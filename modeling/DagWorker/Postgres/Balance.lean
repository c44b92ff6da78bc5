import DagWorker.Postgres.Counters
import DagWorker.Postgres.Fencing
import DagWorker.Postgres.Linking

/-!
# Counters over whole operations

Every operation books what it does to the rows of a scope, and writes the deltas at its
end.  `CollectTerminal` deletes rows and ends without the write, so that the counters stay
exact only as long as it finds nothing to delete.
-/

namespace DagWorker.Postgres

open Dialogue (Uses uses_ask uses_orAbort wp_bind wp_ofExcept)

variable {id fuel : ℕ} {r r' n : NodeRow} {status : Status} {reason : Reason} {message : String}
  {ids : List ℕ} {cfg : ScopeConfig} {specs : List NodeSpec}

/-- The counters of the scope, which are zero as long as it has no row. -/
def Db.counters (db : Db) : ScopeStats := (db.scopeRow.map ScopeRow.stats).getD {}

/-- Every counter says how many rows belong to it. -/
def Db.Exact (db : Db) : Prop :=
  ∀ col ∈ statColumns, db.counters.column col = Table.count db.rows (NodeRow.counted col)

namespace Engine

variable {e e' : Engine}

/-- With the deltas added, every counter says how many rows belong to it. -/
def Balanced (e : Engine) : Prop := ∀ col ∈ statColumns, e.counters.column col = e.owed col

theorem Balanced.start {db : Db} (h : db.Exact) : ({ toDb := db } : Engine).Balanced := by
  intro col hcol
  exact h col hcol

theorem Balanced.even (h : e.Balanced) (heven : Even e e') : e'.Balanced := by
  intro col hcol
  rw [Db.counters, heven.stored, heven.owed]
  exact h col hcol

theorem Even.scope (h : Even e e') : e'.scopeRow.isSome = e.scopeRow.isSome := by
  have hstored := congrArg Option.isSome h.stored
  rwa [Option.isSome_map, Option.isSome_map] at hstored

/-- No row has moved and nothing is booked, so that copies of rows are as current as before. -/
structure Steady (e e' : Engine) : Prop where
  even : Even e e'
  current : ∀ id n, Current e id n → Current e' id n
  stats : e'.stats = e.stats

theorem Steady.refl (e : Engine) : Steady e e := ⟨.refl e, fun _ _ h => h, rfl⟩

theorem Steady.trans {e₁ e₂ e₃ : Engine} (h : Steady e₁ e₂) (h' : Steady e₂ e₃) :
    Steady e₁ e₃ :=
  ⟨h.even.trans h'.even, fun id n hn => h'.current id n (h.current id n hn),
    h'.stats.trans h.stats⟩

theorem Steady.exact (h : Steady e e') (hexact : e.toDb.Exact) : e'.toDb.Exact := by
  intro col hcol
  have howed := h.even.owed col
  rw [owed, owed, h.stats] at howed
  rw [Db.counters, h.even.stored, ← Db.counters, hexact col hcol]
  omega

theorem Steady.of_rows (hrows : e'.rows = e.rows) (hstats : e'.stats = e.stats)
    (hstored : e'.scopeRow.map ScopeRow.stats = e.scopeRow.map ScopeRow.stats) :
    Steady e e' := by
  refine ⟨⟨hstored, owed_of_eq hrows hstats⟩, fun id n hn => ?_, hstats⟩
  rw [Current, hrows]
  exact hn

theorem Steady.of_keep (hr : e.rows.lookup id = some r)
    (hbucket : r'.bucket = r.bucket) (hid : r'.nodeID = r.nodeID)
    (hrows : e'.rows = e.rows.insert id r') (hstats : e'.stats = e.stats)
    (hstored : e'.scopeRow.map ScopeRow.stats = e.scopeRow.map ScopeRow.stats) :
    Steady e e' := by
  refine ⟨.of_keep hr hbucket hrows hstats hstored, ?_, hstats⟩
  rintro x n ⟨s, hs, hcopy⟩
  rw [Current, hrows]
  by_cases hx : x = id
  · subst hx
    obtain rfl := Option.mem_unique hr hs
    exact ⟨r', AList.lookup_insert _, hbucket.trans hcopy.1, hid.trans hcopy.2⟩
  · exact ⟨s, (AList.lookup_insert_ne hx).trans hs, hcopy⟩

theorem Even.of_insert {p : Phase} {s : Status} {p' : Phase}
    {s' : Status} (hr : e.rows.lookup id = some r) (hbucket : bucketColumn p s = r.bucket)
    (hphase : r'.phase = p') (hstatus : r'.status = s') :
    Even e (({ e with rows := e.rows.insert id r' } : Engine).moveBucket p s p' s') := by
  subst hphase hstatus
  apply Even.of_move hr hbucket
  · rw [moveBucket_rows]
  · exact moveBucket_congr rfl
  · rw [moveBucket_scopeRow]

theorem Unique.still (h : e.Unique) (hstill : e.toDb.Still e'.toDb) : e'.Unique := by
  intro x y r s hr hs hid
  obtain ⟨r₀, hr₀, hri⟩ := hstill.back hr
  obtain ⟨s₀, hs₀, hsi⟩ := hstill.back hs
  exact h x y r₀ s₀ hr₀ hs₀ (hri.nodeID.symm.trans (hid.trans hsi.nodeID))

end Engine

open Engine (Even Balanced Steady Current)

/-! ## Programs that only link -/

theorem NodeRow.Rests.bucket (h : r.Rests r') : r'.bucket = r.bucket := by
  rw [NodeRow.bucket, h.phase, h.status, NodeRow.bucket]

theorem Stmt.Linking.exec_stats {srv : Server} {a : Answer} {s : Stmt} {r : s.Result}
    {e e' : Engine} (hs : s.Linking) (h : s.exec srv a e = some (r, e')) : e'.stats = e.stats := by
  obtain ⟨ws, l, hp, rfl⟩ := Stmt.perform_of_exec h
  cases s with
  | insertNode | deleteNode | claim | raiseEpochFloor | ensureScope | bump | takeStats
  | addStats => exact hs.elim
  | liveNodes | successorRanks | predecessorRanks | reclaimCandidates | promoteCandidates
  | findTerminalCandidates =>
    obtain ⟨_, _, ⟨⟩⟩ := Option.bind_eq_some_iff.mp hp
    rfl
  | updateNode | insertEdge | markEdgeSatisfied | deleteEdge | inProgress | extend =>
    simp only [Stmt.perform] at hp
    repeat' split at hp
    all_goals cases hp
    all_goals rfl
  | _ =>
    cases hp
    rfl

theorem Changes.steady {s : Stmt} {e e' : Engine} (h : Changes e.toDb s e'.toDb)
    (hs : s.Linking) (hstats : e'.stats = e.stats) : Steady e e' := by
  obtain ⟨db', l'⟩ := e'
  cases h with
  | nothing => exact .of_rows rfl hstats rfl
  | configure _ _ hsc | close _ hsc => exact .of_rows rfl hstats (by rw [hsc]; rfl)
  | update id f r hr =>
    exact .of_keep hr (hs r).2.bucket (hs r).1.nodeID rfl hstats rfl
  | prolong nodeID epoch leaseFor deadline id r hr =>
    have hbucket : ({ r with deadline := some deadline } : NodeRow).bucket = r.bucket := rfl
    exact .of_keep hr hbucket rfl rfl hstats rfl
  | link | mark | unlink | detach => exact .of_rows rfl hstats rfl
  | createScope | raise | count | insert | delete | grant => exact hs.elim

namespace Tx

variable {srv : Server} {e : Engine}

theorem Linking.steady {α : Type} {p : Tx α} (h : p.Linking) (srv : Server) (e : Engine) :
    p.Wp srv (fun _ e' => Steady e e') e := by
  apply Uses.wp (R := Steady) h
  · exact .refl
  · exact fun _ _ _ => .trans
  · intro s hs a e r e' hexec
    exact (Stmt.exec_changes hexec).steady hs (hs.exec_stats hexec)

/-- Every successful run books what it does. -/
abbrev Evens {α : Type} (p : Tx α) (srv : Server) (e : Engine) : Prop :=
  p.Wp srv (fun _ e' => Even e e') e

theorem Evens.then {α β : Type} {p : Tx α} {f : α → Tx β} (h : p.Evens srv e)
    (hf : ∀ a e', Even e e' → (f a).Evens srv e') : (p >>= f).Evens srv e :=
  h.bind fun a e₁ h₁ => (hf a e₁ h₁).mono fun _ _ h₂ => h₁.trans h₂

theorem Linking.evens {α : Type} {p : Tx α} (h : p.Linking) : p.Evens srv e :=
  (h.steady srv e).mono fun _ _ hs => hs.even

/-! ## The engine -/

theorem terminate_wp_moved {S : ℕ → Prop} {root : ℕ}
    (hS : Engine.Absorbs S e) (hroot : S root) :
    (terminate fuel root status reason message).Wp srv
      (fun effects e' => Engine.Moved S effects e e' ∧ Engine.Absorbs S e') e := by
  refine terminate_wp ⟨Engine.terminate_moved hS hroot, ?_⟩
  exact (Engine.terminateLoop_touches _ hS (by simpa using hroot)).absorbs hS

theorem terminate_even {root : ℕ} :
    (terminate fuel root status reason message).Evens srv e := by
  apply (terminate_wp_moved (S := fun _ => True) (fun _ _ _ _ => trivial) trivial).mono
  exact fun _ _ h => h.1.even

theorem terminateAll_even : (terminateAll fuel status reason message ids).Evens srv e := by
  induction ids generalizing e with
  | nil => exact .refl e
  | cons id ids ih =>
    exact terminate_even.then fun _ _ _ => ih.then fun _ _ _ => .refl _

theorem makeReady_even (hn : Current e id n) :
    (makeReady id n).Evens srv e := by
  apply makeReady_wp
  have hmoved : Engine.Moved (fun _ => True) ([] ++ [(e.makeReady srv id n).1]) e _ :=
    Engine.makeReady_moved hn trivial
  exact hmoved.even

theorem updateNode_steady {f : NodeRow → NodeRow}
    (hf : ∀ r, (f r).bucket = r.bucket ∧ (f r).nodeID = r.nodeID) :
    (updateNode id f).Wp srv (fun _ e' => Steady e e') e := by
  apply wp_updateNode
  · exact fun _ => .refl e
  · exact fun r hr _ => .of_keep hr (hf r).1 (hf r).2 rfl rfl rfl

theorem schedule_even {delay : Int} (hn : Current e id n) :
    (schedule id n delay).Evens srv e := by
  obtain ⟨r, hr, hbucket, -⟩ := hn
  apply wp_bind.mpr
  intro a now e₁ hexec
  cases hexec
  apply wp_updateExisting
  intro s hs
  apply wp_bind.mpr
  apply moveBucket_wp
  exact Even.of_insert hr hbucket.symm rfl rfl

theorem settleTouched_wp_even (hu : e.Unique) (hnd : ids.Nodup) :
    (settleTouched fuel ids).Evens srv e := by
  apply settleTouched_wp
  exact Engine.settleTouched_even hu hnd

/-! ## Leases -/

theorem failAttempt_even (hn : Current e id n) :
    (failAttempt fuel cfg id n reason message).Evens srv e := by
  unfold failAttempt
  simp only
  split
  · apply terminate_even.bind
    exact fun _ _ h => h
  apply (ofProg_neutral.linking.steady srv e).bind
  intro delay e₁ h₁
  have hfields : (setRetryFields id reason message).Wp srv (fun _ e' => Steady e₁ e') e₁ := by
    have hwrite : (updateNode id fun r =>
        { r with reason := reason, message := message, worker := "" }).Wp srv
        (fun _ e' => Steady e₁ e') e₁ := updateNode_steady fun _ => ⟨rfl, rfl⟩
    exact hwrite.bind fun _ _ h => h
  apply hfields.bind
  intro _ e₂ h₂
  apply (schedule_even ((h₁.trans h₂).current id n hn)).bind
  intro readyAt e₃ h₃
  apply (bumpSeq_neutral.linking.steady srv e₃).bind
  intro seq e₄ h₄
  have hevent : ∀ ev, (insertEvent ev).Linking := fun ev => uses_ask trivial
  apply ((hevent _).steady srv e₄).bind
  intro ef e₅ h₅
  exact ((h₁.trans h₂).even.trans h₃).trans (h₄.trans h₅).even

theorem current_of_row (hn : e.rows.lookup id = some n) :
    Current e id n := ⟨n, hn, rfl, rfl⟩

theorem reclaimLoop_even :
    (reclaimLoop fuel cfg ids).Evens srv e := by
  induction ids generalizing e with
  | nil => exact .refl e
  | cons id ids ih =>
    apply wp_bind.mpr
    apply loadForUpdate_wp
    cases hn : e.rows.lookup id with
    | none => exact ih
    | some n =>
      simp only
      split
      · exact ih
      apply (failAttempt_even (current_of_row hn)).then
      exact fun _ _ _ => ih.then fun _ _ _ => .refl _

theorem reclaimExpired_even {limit : Int} :
    (reclaimExpired fuel cfg limit).Evens srv e := by
  have hcands : ∀ limit, (query (.reclaimCandidates limit)).Linking := fun _ => uses_ask trivial
  apply (hcands _).evens.then
  intro ids e₁ _
  apply reclaimLoop_even.then
  intro x e₂ _
  have hmore : (query .moreExpired).Linking := uses_ask trivial
  exact hmore.evens.then fun _ _ _ => .refl _

theorem promoteLoop_even :
    (promoteLoop ids).Evens srv e := by
  induction ids generalizing e with
  | nil => exact .refl e
  | cons id ids ih =>
    apply wp_bind.mpr
    apply loadForUpdate_wp
    cases hn : e.rows.lookup id with
    | none => exact ih
    | some n =>
      simp only
      split
      · exact ih
      apply (makeReady_even (current_of_row hn)).then
      exact fun _ _ _ => ih.then fun _ _ _ => .refl _

theorem promoteScheduled_even : promoteScheduled.Evens srv e := by
  have hcands : (query .promoteCandidates).Linking := uses_ask trivial
  exact hcands.evens.then fun _ _ _ => promoteLoop_even

/-- A claim moves a ready row, which is then booked. -/
theorem claimOne_even {kinds : List String} {leaseFor : Int} {workerID : String} :
    (claimOne kinds leaseFor workerID).Evens srv e := by
  apply wp_bind.mpr
  intro a x e₁ hexec
  obtain ⟨ws, l, hp, rfl⟩ := Stmt.perform_of_exec hexec
  simp only [Stmt.perform, Option.bind_eq_bind, Option.bind_eq_some_iff] at hp
  obtain ⟨ids, hids, hp⟩ := hp
  split at hp
  · cases hp
    exact .refl e
  rename_i id r rest hrows
  split at hp
  · cases hp
    obtain ⟨hr, hready⟩ := Answer.ready_of_skipLocked hrows hids
    have hbucket : bucketColumn .ready .new = r.bucket := by
      rw [NodeRow.bucket, hready]
      rfl
    apply wp_bind.mpr
    apply moveBucket_wp
    have hevent : ∀ ev, (insertEvent ev).Linking := fun ev => uses_ask trivial
    apply ((hevent _).steady srv _).bind
    intro ef e₂ h₂
    exact (Even.of_insert hr hbucket rfl rfl).trans h₂.even
  · cases hp

theorem grantLoop_even {req : ClaimRequest} {left : ℕ} {inProgress : Int}
    {res : ClaimResult} :
    (grantLoop cfg req left inProgress res).Evens srv e := by
  induction left generalizing e inProgress res with
  | zero => exact .refl e
  | succ left ih =>
    rw [grantLoop]
    split
    · exact .refl e
    apply claimOne_even.bind
    intro x e₁ h₁
    cases x with
    | none => exact h₁
    | some x =>
      exact ih.mono fun _ _ h₂ => h₁.trans h₂

theorem applyOutcome_even {req : CompleteRequest} (hn : Current e id n) :
    (applyOutcome fuel cfg id n req).Evens srv e := by
  -- the worker's columns are written before the node is terminated
  have hend : ∀ (f : NodeRow → NodeRow) (status : Status) (reason : Reason) (message : String),
      (∀ r, (f r).bucket = r.bucket ∧ (f r).nodeID = r.nodeID) →
      (updateNode id f >>= fun _ => terminate fuel id status reason message).Evens srv e := by
    intro f status reason message hf
    apply Dialogue.Wp.bind (updateNode_steady hf)
    intro _ e₁ h₁
    apply terminate_even.mono
    exact fun _ e₂ h₂ => h₁.even.trans h₂
  unfold applyOutcome
  split
  · split
    · trivial
    · have hsuccess : (completeSuccess fuel id req.result).Evens srv e :=
        hend (fun r => { r with result := req.result, worker := "" }) _ _ _ fun _ => ⟨rfl, rfl⟩
      exact hsuccess.bind fun _ _ h => h
  · split
    · have hskip : (completeSkip fuel id req.message).Evens srv e :=
        hend (fun r => { r with worker := "" }) _ _ _ fun _ => ⟨rfl, rfl⟩
      exact hskip.bind fun _ _ h => h
    · apply (failAttempt_even hn).bind
      exact fun _ _ h => h

/-! ## Creating and deleting rows -/

/-- The counters of created nodes are booked. -/
theorem countCreated_wp {rows : List (ℕ × NodeRow)} :
    (countCreated rows).Wp srv (fun _ e' => e'.toDb = e.toDb ∧ ∀ col,
      e'.owed col = e.owed col - (rows.map fun x => ((x.2.counted col).toNat : Int)).sum) e := by
  induction rows generalizing e with
  | nil => exact ⟨rfl, by simp⟩
  | cons n rows ih =>
    apply wp_bind.mpr
    apply wp_bump
    apply wp_bind.mpr
    apply wp_bump
    apply ih.mono
    rintro _ e' ⟨hdb, howed⟩
    refine ⟨hdb, fun col => ?_⟩
    have hn := counted_eq n.2 col
    have hbucket : bucketColumn n.2.phase n.2.status = n.2.bucket := rfl
    rw [howed, Engine.owed_bump, Engine.owed_bump, hbucket, List.map_cons, List.sum_cons]
    omega

theorem createNodes_wp :
    (createNodes specs).Wp srv (fun out e' => Even e e' ∧
      (∀ id r, e.rows.lookup id = some r → e'.rows.lookup id = some r) ∧
      (∀ x ∈ out, e'.rows.lookup x.1 = some x.2) ∧
      ∀ spec ∈ specs, ∃ x ∈ out, x.2.nodeID = spec.id) e := by
  apply insertNodes_wp.bind
  rintro out e₁ ⟨h₁, -⟩
  apply countCreated_wp.bind
  rintro _ e₂ ⟨hdb, howed⟩
  refine ⟨⟨?_, fun col => ?_⟩, ?_, ?_, h₁.named⟩
  · rw [hdb, h₁.scopeRow]
  · have hcount := congrArg (fun n : ℕ => (n : Int)) (h₁.count (NodeRow.counted col))
    have hsum : (((out.map fun x => (x.2.counted col).toNat).sum : ℕ) : Int) =
        (out.map fun x => ((x.2.counted col).toNat : Int)).sum := by
      rw [Nat.cast_list_sum, List.map_map]
      rfl
    rw [howed, Engine.owed, Engine.owed, h₁.stats]
    omega
  · rw [hdb]
    exact h₁.kept
  · rw [hdb]
    exact h₁.rows

theorem materialiseAddNodesBatch_wp :
    (materialiseAddNodesBatch specs).Wp srv (fun x e' => Even e e' ∧ Coherent e' x.1 ∧
      ∀ spec ∈ specs, (x.1.lookup spec.id).isSome) e := by
  apply wp_bind.mpr
  apply wp_read (s := .loadManyForUpdateByExternal (specs.map fun spec => spec.id)) fun _ => rfl
  apply wp_bind.mpr
  apply wp_ofExcept
  rintro ⟨nodes, toCreate⟩ hsplit
  obtain ⟨-, ⟨⟩⟩ := splitSpecs_ok_iff.mp hsplit
  generalize hread : e.rowsOf _ = existing
  have hexisting : ∀ x ∈ specs.filterMap (rowFor existing), e.rows.lookup x.1 = some x.2 := by
    intro x hx
    obtain ⟨spec, -, hrow⟩ := List.mem_filterMap.mp hx
    have hmem := (rowFor_some hrow).1
    rw [← hread] at hmem
    exact (Engine.mem_rowsOf.mp hmem).2
  obtain ⟨hnodes, -, hfound⟩ := foldl_insert_coherent (.empty e) hexisting
  apply createNodes_wp.bind
  rintro created e₁ ⟨heven, hkept, hrows, hnamed⟩
  have hnodes₁ := hnodes.kept hkept
  obtain ⟨hcoherent, hgrows, hcreated⟩ := foldl_insert_coherent hnodes₁ hrows
  refine ⟨heven, hcoherent, fun spec hspec => ?_⟩
  cases hrow : rowFor existing spec with
  | some x =>
    rw [← (rowFor_some hrow).2]
    exact hgrows _ (hfound x (List.mem_filterMap.mpr ⟨spec, hspec, hrow⟩))
  | none =>
    obtain ⟨n, hn, hid⟩ := hnamed spec (by simp [hspec, hrow])
    rw [← hid]
    exact hcreated n hn

theorem wp_deleteNode {Q : Unit → Engine → Prop}
    (h : ∀ e' : Engine, e'.rows = e.rows.erase id → e'.scopeRow = e.scopeRow →
      e'.stats = e.stats → Q () e') : (query (.deleteNode id)).Wp srv Q e := by
  intro a x e' hexec
  cases hexec
  apply h
  · simp only [Db.applyAll_append, Db.applyAll_dropEdges]
    rfl
  · simp only [Db.applyAll_append, Db.applyAll_dropEdges]
    rfl
  · rfl

/-- A row is deleted, and booked from a current copy of it. -/
theorem deleteNodeRow_even {v epoch : ℕ} (hn : Current e v n) :
    (deleteNodeRow v n.phase n.status epoch).Wp srv
      (fun _ e' => Even e e' ∧ e'.rows = e.rows.erase v) e := by
  obtain ⟨r, hr, hbucket, -⟩ := hn
  have hbooked : bucketColumn n.phase n.status = r.bucket := hbucket.symm
  apply wp_bind.mpr
  apply wp_bump
  apply wp_bind.mpr
  apply wp_bump
  have hraise : ∀ e₁ : Engine, (query (.raiseEpochFloor (widenI64 epoch))).Wp srv
      (fun _ e' => e'.rows = e₁.rows ∧ e'.stats = e₁.stats ∧
        e'.scopeRow.map ScopeRow.stats = e₁.scopeRow.map ScopeRow.stats) e₁ := by
    intro e₁ a x e' hexec
    cases hexec
    cases hsc : e₁.scopeRow with
    | none => simp [Stmt.updateScope, hsc, Db.applyAll]
    | some sc => simp [Stmt.updateScope, hsc, Db.applyAll, Db.apply]
  apply (hraise _).bind
  rintro _ e₂ ⟨hrows, hstats, hstored⟩
  apply wp_deleteNode
  intro e₃ hrows₃ hscope₃ hstats₃
  have hrows' : e₃.rows = e.rows.erase v := by
    rw [hrows₃, hrows]
    rfl
  refine ⟨⟨?_, fun col => ?_⟩, hrows'⟩
  · rw [hscope₃, hstored]
    rfl
  have howed : e₃.owed col = ((e.bump (bucketColumn n.phase n.status) (-1)).bump
      "stat_total" (-1)).owed col - (r.counted col).toNat := by
    have hcount := Table.count_erase (p := NodeRow.counted col) hr
    rw [Engine.owed, Engine.owed, hrows', hstats₃, hstats]
    simp only [Engine.bump]
    omega
  rw [howed, Engine.owed_bump, Engine.owed_bump, counted_eq, hbooked]
  omega

end Tx
end DagWorker.Postgres
