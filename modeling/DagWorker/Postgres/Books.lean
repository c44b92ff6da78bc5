import DagWorker.Postgres.Counters
import DagWorker.Postgres.Views

/-!
# The books of a claim

What a claim amid other claims knows about its rows and its deltas is kept in a `Book`: the
rows it holds, what the counters are off by while a move is under way, and a bound of the
delta of leases in flight.  Others cannot make a book wrong, and each part of the claim
before the grants keeps it.
-/

namespace DagWorker.Postgres

variable {ws : List Write} {s : Stmt} {r n : NodeRow} {id : ℕ}

/-- The number of claimed nodes. -/
def Db.claimed (db : Db) : ℕ := Table.count db.rows fun r => r.phase = .claimed

/-- The scope has the limit `k`, its counter covers the claimed nodes, and they are within
the limit. -/
structure Db.Within (k : ℕ) (db : Db) : Prop where
  scope : ∃ sc, db.scopeRow = some sc ∧ sc.cfg.resolved.maxInFlight = k ∧
    (db.claimed : Int) ≤ sc.stats.inProgress
  le : db.claimed ≤ k

theorem NodeRow.counted_inProgress (r : NodeRow) :
    r.counted "stat_in_progress" = decide (r.phase = .claimed) := by
  unfold NodeRow.counted NodeRow.bucket bucketColumn
  cases r.phase <;> simp
  split <;> decide

theorem Db.claimed_eq (db : Db) :
    db.claimed = Table.count db.rows (NodeRow.counted "stat_in_progress") := by
  unfold Db.claimed
  congr 1
  funext r
  exact (NodeRow.counted_inProgress r).symm

def Own.engine (own : Own) (db : Db) : Engine := { toDb := own.view db, toLocal := own.toLocal }

def Own.pending (own : Own) (col : String) : Int := (own.stats.lookup col).getD 0

/-! ## The books of a transaction -/

/-- What is known about a transaction: a bound of its delta of leases in flight, the scope
row it read last, what the counters are off by, and the rows it holds. -/
structure Book where
  top : Int := 0
  last : Option ScopeRow := none
  off : String → Int := fun _ => 0
  held : ℕ → NodeRow → Prop := fun _ _ => False

structure Book.Holds (k : ℕ) (b : Book) (db : Db) (own : Own) : Prop where
  within : db.Within k
  guarded : own.Guarded
  plain : ∀ w ∈ own.writes, ∀ sc, w ≠ .scopeRow sc
  owed : ∀ col, (own.engine db).owed col = Table.count db.rows (NodeRow.counted col) + b.off col
  top : own.pending "stat_in_progress" ≤ b.top
  last : own.lastScope = b.last
  held : ∀ id r, b.held id r → own.Holds db id r

namespace Book

variable {k : ℕ} {b b' : Book} {db db' snap : Db} {own own' : Own} {srv : Server} {a : Answer}

/-- A claim amid claims. -/
abbrev amidClaims (k : ℕ) (srv : Server) : Setting Stmt.Result Answer Db Own :=
  (Pact.keeping (Db.Within k)).amid srv

theorem stable (k : ℕ) (b : Book) (srv : Server) : (amidClaims k srv).Stable (b.Holds k) := by
  rintro db db' own ⟨hagree, hwithin⟩ h
  refine ⟨hwithin h.within, h.guarded, h.plain, fun col => ?_, h.top, h.last, fun id r hr => ?_⟩
  · have hcount := h.guarded.count_view hagree (NodeRow.counted col)
    have howed := h.owed col
    simp only [Engine.owed, Own.engine] at howed ⊢
    omega
  · exact (h.held id r hr).stable hagree

theorem Holds.weaken (h : b.Holds k db own) (htop : b.top ≤ b'.top) (hlast : b'.last = b.last)
    (hoff : b'.off = b.off) (hheld : ∀ id r, b'.held id r → b.held id r) :
    b'.Holds k db own :=
  ⟨h.within, h.guarded, h.plain, fun col => (h.owed col).trans (by rw [hoff]), h.top.trans htop,
    h.last.trans hlast.symm, fun id r hr => h.held id r (hheld id r hr)⟩

theorem Holds.advance (h : b.Holds k db own) (hguarded : own'.Guarded)
    (hwrites : own'.writes = own.writes ++ ws) (hplain : ∀ w ∈ ws, ∀ sc, w ≠ .scopeRow sc)
    (howed : ∀ col, (own'.engine db).owed col = (own.engine db).owed col + b'.off col - b.off col)
    (htop : own'.pending "stat_in_progress" ≤ b'.top) (hlast : own'.lastScope = b'.last)
    (hheld : ∀ id r, b'.held id r → own'.Holds db id r) : b'.Holds k db own' := by
  refine ⟨h.within, hguarded, fun w hw => ?_, fun col => ?_, htop, hlast, hheld⟩
  · rw [hwrites] at hw
    rcases List.mem_append.mp hw with hw | hw
    · exact h.plain w hw
    · exact hplain w hw
  · rw [howed, h.owed]
    omega

end Book

/-! ## Statements that book nothing -/

/-- The statement writes no row and keeps the deltas. -/
def Stmt.Quiet : Stmt → Prop
  | .loadForUpdate _ => True
  | .successorsForUpdate _ => True
  | .markEdgeSatisfied _ _ => True
  | .insertEvent _ => True
  | .nextFifo => True
  | .clockTimestamp => True
  | .nextJitter _ => True
  | .reclaimCandidates _ => True
  | .promoteCandidates => True
  | .moreExpired => True
  | .pendingStat _ => True
  | _ => False

theorem Stmt.Quiet.perform {srv : Server} {a : Answer} {e : Engine} (hs : s.Quiet)
    {r : s.Result} {l : Local} (h : s.perform srv a e = some (r, ws, l)) :
    (∀ w ∈ ws, ∃ k, w = .edge k true) ∧ l.stats = e.stats := by
  cases s with
  | markEdgeSatisfied u v =>
    simp only [Stmt.perform] at h
    split at h
    · cases h
      exact ⟨fun w hw => ⟨_, List.mem_singleton.mp hw⟩, rfl⟩
    · cases h
      exact ⟨fun w hw => absurd hw List.not_mem_nil, rfl⟩
  | reclaimCandidates | promoteCandidates =>
    obtain ⟨_, _, ⟨⟩⟩ := Option.bind_eq_some_iff.mp h
    exact ⟨fun w hw => absurd hw List.not_mem_nil, rfl⟩
  | loadForUpdate | successorsForUpdate | insertEvent | nextFifo | clockTimestamp | nextJitter
  | moreExpired | pendingStat =>
    cases h
    exact ⟨fun w hw => absurd hw List.not_mem_nil, rfl⟩
  | _ => cases hs

theorem Stmt.Quiet.scopeRead (hs : s.Quiet) (e : Engine) (last : Option ScopeRow) :
    s.scopeRead e last = last := by
  cases s <;> first | rfl | cases hs

theorem Db.applyAll_edges_rows (h : ∀ w ∈ ws, ∃ k, w = .edge k true) (db : Db) :
    (db.applyAll ws).rows = db.rows := by
  induction ws generalizing db with
  | nil => rfl
  | cons w ws ih =>
    obtain ⟨k, rfl⟩ := h w List.mem_cons_self
    exact ih (fun v hv => h v (List.mem_cons_of_mem _ hv)) _

namespace Book

variable {k : ℕ} {b b' : Book} {db db' snap : Db} {own own' : Own} {srv : Server} {a : Answer}

theorem Holds.quiet (h : b.Holds k db own) (hs : s.Quiet) {r : s.Result}
    (hamid : s.amid srv a snap db own = some (r, own')) :
    b.Holds k db own' ∧ (own'.view db).rows = (own.view db).rows := by
  have hguarded := Stmt.amid_guarded hamid h.guarded
  obtain ⟨ws, l, hperform, rfl⟩ := Stmt.amid_cases hamid
  obtain ⟨hedges, hstats⟩ := hs.perform hperform
  have hlocal : (s.sees snap db own).toLocal = own.toLocal := by
    cases s <;> rfl
  have hstats : l.stats = own.stats := by
    rw [hstats, ← hlocal]
  have hrows : (db.applyAll (own.writes ++ ws)).rows = (db.applyAll own.writes).rows := by
    rw [Db.applyAll_append, Db.applyAll_edges_rows hedges]
  refine ⟨?_, hrows⟩
  apply h.advance hguarded rfl
  · intro w hw sc heq
    obtain ⟨key, rfl⟩ := hedges w hw
    cases heq
  · intro col
    rw [Engine.owed_of_eq (e := own.engine db) hrows hstats]
    omega
  · rw [Own.pending, hstats]
    exact h.top
  · rw [hs.scopeRead]
    exact h.last
  · intro id r hr
    obtain ⟨hlock, hrow⟩ := h.held id r hr
    exact ⟨List.mem_append_left _ hlock, (congrArg _ hrows).trans hrow⟩

/-- Amid claims, what starts with the book ends with `Q`. -/
abbrev Leads {α : Type} (k : ℕ) (srv : Server) (b : Book) (p : Tx α) (Q : α → Db → Own → Prop) :
    Prop :=
  (amidClaims k srv).Triple (b.Holds k) p Q

/-- Amid claims, what starts with one book ends with another. -/
abbrev Turns {α : Type} (k : ℕ) (srv : Server) (b : Book) (p : Tx α) (b' : Book) : Prop :=
  b.Leads k srv p fun _ => b'.Holds k

variable {α : Type} {Q : α → Db → Own → Prop} {f : NodeRow → NodeRow}

theorem turns_ret {x : α}
    (h : ∀ {db own}, b.Holds k db own → b'.Holds k db own := by exact fun h => h) :
    b.Turns k srv (pure x) b' :=
  Setting.triple_ret (stable k b' srv) h

theorem turns_query
    (h : ∀ a snap db own r own', b.Holds k db own → s.amid srv a snap db own = some (r, own') →
      b'.Holds k db own') : b.Turns k srv (Tx.query s) b' :=
  fun _ _ hb => Pact.ensures_query (stable k b srv) (fun _ => stable k b' srv) hb
    fun a snap db' r own' _ _ hdb hamid => h a snap db' _ r own' hdb hamid

theorem stable_exists {ι : Type} (φ : ι → Prop) (B : ι → Book) :
    (amidClaims k srv).Stable fun db own => ∃ i, φ i ∧ (B i).Holds k db own := by
  rintro st st' t hrely ⟨i, hi, hb⟩
  exact ⟨i, hi, stable k _ srv _ _ _ hrely hb⟩

/-- A statement, and what follows it with the book that its answer leaves. -/
theorem leads_query {g : s.Result → Tx α}
    (h : ∀ a snap db own r own', b.Holds k db own → s.amid srv a snap db own = some (r, own') →
      ∃ b' : Book, b'.Leads k srv (g r) Q ∧ b'.Holds k db own') :
    b.Leads k srv (Tx.query s >>= g) Q := by
  intro db own hb
  apply (Pact.ensures_query (stable k b srv) (fun _ => stable_exists _ _) hb
    fun a snap db' r own' _ _ hdb hamid => h a snap db' _ r own' hdb hamid).bind
  rintro r db own ⟨b', hg, hb'⟩
  exact hg db own hb'

theorem turns_quiet (hs : s.Quiet) : b.Turns k srv (Tx.query s) b :=
  turns_query fun _ _ _ _ _ _ hdb hamid => (hdb.quiet hs hamid).1

/-! ## Rows -/

def hold (b : Book) (id : ℕ) (r : NodeRow) : Book :=
  { b with held := fun x s => x = id ∧ s = r ∨ x ≠ id ∧ b.held x s }

/-- Nothing is known about the row. -/
def forget (b : Book) (id : ℕ) : Book := { b with held := fun x s => x ≠ id ∧ b.held x s }

/-- Nothing is known about any row. -/
def clear (b : Book) : Book := { b with held := fun _ _ => False }

theorem Holds.hold (h : b.Holds k db own) (hr : own.Holds db id r) :
    (b.hold id r).Holds k db own := by
  refine ⟨h.within, h.guarded, h.plain, h.owed, h.top, h.last, fun x s hs => ?_⟩
  rcases hs with ⟨rfl, rfl⟩ | ⟨-, hs⟩
  · exact hr
  · exact h.held x s hs

theorem held_hold : (b.hold id r).held id r := .inl ⟨rfl, rfl⟩

theorem Holds.forget (h : b.Holds k db own) (id : ℕ) : (b.forget id).Holds k db own :=
  h.weaken le_rfl rfl rfl fun _ _ hr => hr.2

theorem Holds.clear (h : b.Holds k db own) : b.clear.Holds k db own :=
  h.weaken le_rfl rfl rfl fun _ _ hr => hr.elim

theorem leads_loadForUpdate {g : Option NodeRow → Tx α} (hnone : b.Leads k srv (g none) Q)
    (hsome : ∀ r, (b.hold id r).Leads k srv (g (some r)) Q) :
    b.Leads k srv (Tx.loadForUpdate id >>= g) Q := by
  apply leads_query
  intro a snap db own r own' hdb hamid
  obtain ⟨hquiet, hrows⟩ := hdb.quiet (s := .loadForUpdate id) trivial hamid
  obtain ⟨ws, l, hperform, heq⟩ := Stmt.amid_cases hamid
  have hr : r = (own.view db).rows.lookup id := by
    cases hperform
    rfl
  cases r with
  | none => exact ⟨b, hnone, hquiet⟩
  | some r =>
    refine ⟨b.hold id r, hsome r, hquiet.hold ⟨?_, (congrArg _ hrows).trans hr.symm⟩⟩
    rw [heq]
    exact List.mem_append_right _ (List.mem_singleton_self _)

theorem leads_successorsForUpdate {u : ℕ} {g : List (ℕ × NodeRow) → Tx α}
    (hg : ∀ succs : List (ℕ × NodeRow), (succs.map Prod.fst).Nodup →
      Leads k srv { b with held := fun id r => (id, r) ∈ succs } (g succs) Q) :
    b.Leads k srv (Tx.successorsForUpdate u >>= g) Q := by
  apply leads_query
  intro a snap db own succs own' hdb hamid
  obtain ⟨hquiet, hrows⟩ := hdb.quiet (s := .successorsForUpdate u) trivial hamid
  obtain ⟨ws, l, hperform, heq⟩ := Stmt.amid_cases hamid
  have hsuccs : succs = ((Stmt.successorsForUpdate u).sees snap db own).successorsForUpdate u := by
    cases hperform
    rfl
  refine ⟨_, hg succs (hsuccs ▸ Engine.successorsForUpdate_nodup _ u), hquiet.within,
    hquiet.guarded, hquiet.plain, hquiet.owed, hquiet.top, hquiet.last, fun id r hr => ⟨?_, ?_⟩⟩
  · rw [heq]
    exact List.mem_append_right _ (List.mem_map_of_mem (f := fun x => Lock.row x.1) hr)
  · rw [hsuccs] at hr
    exact (congrArg _ hrows).trans (Engine.mem_successorsForUpdate.mp hr).2

def write (b : Book) (id : ℕ) (r r' : NodeRow) : Book :=
  { b with
    off := fun col => b.off col - same r.bucket col + same r'.bucket col
    held := fun x s => x = id ∧ s = r' ∨ x ≠ id ∧ b.held x s }

theorem leads_updateNode {g : Option NodeRow → Tx α} (hr : b.held id r)
    (hg : (b.write id r (f r)).Leads k srv (g (some (f r))) Q) :
    b.Leads k srv (Tx.updateNode id f >>= g) Q := by
  apply leads_query
  intro a snap db own n own' hdb hamid
  have hguarded := Stmt.amid_guarded hamid hdb.guarded
  obtain ⟨ws, l, hperform, heq⟩ := Stmt.amid_cases hamid
  obtain ⟨hlock, hrow⟩ := hdb.held id r hr
  have hsees : (((Stmt.updateNode id f).sees snap db own).rows.lookup id) = some r := hrow
  simp only [Stmt.perform, hsees] at hperform
  split at hperform
  · cases hperform
    have hview : (own'.view db).rows = (own.view db).rows.insert id (f r) := by
      rw [heq, Own.view, Db.applyAll_append]
      rfl
    refine ⟨_, hg, hdb.advance hguarded (by rw [heq]) ?_ ?_ ?_ ?_ ?_⟩
    · intro w hw sc hsc
      rw [List.mem_singleton.mp hw] at hsc
      cases hsc
    · intro col
      have howed : (own'.engine db).owed col =
          (own.engine db).owed col - same r.bucket col + same (f r).bucket col :=
        Engine.owed_insert hrow hview (by rw [heq]; rfl) col
      simp only [write]
      omega
    · rw [heq]
      exact hdb.top
    · rw [heq]
      exact hdb.last
    · rintro x s (⟨rfl, rfl⟩ | ⟨hx, hs⟩)
      · refine ⟨?_, ?_⟩
        · rw [heq]
          exact List.mem_append_left _ hlock
        · rw [hview]
          exact AList.lookup_insert _
      · obtain ⟨hlock', hrow'⟩ := hdb.held x s hs
        refine ⟨?_, ?_⟩
        · rw [heq]
          exact List.mem_append_left _ hlock'
        · rw [hview, AList.lookup_insert_ne hx]
          exact hrow'
  · cases hperform

/-- An update that leaves the row in its bucket. -/
theorem leads_update_keep {g : Option NodeRow → Tx α} (hr : b.held id r)
    (hbucket : (f r).bucket = r.bucket) (hg : (b.hold id (f r)).Leads k srv (g (some (f r))) Q) :
    b.Leads k srv (Tx.updateNode id f >>= g) Q := by
  apply leads_updateNode hr
  apply hg.pre
  intro db own h
  refine h.weaken le_rfl rfl ?_ fun _ _ hr => hr
  funext col
  simp only [write, hold, hbucket]
  omega

def bump (b : Book) (c : String) (d : Int) : Book :=
  { b with
    off := fun col => b.off col - d * same c col
    top := b.top + d * same c "stat_in_progress" }

theorem pending_bump (e : Engine) (c : String) (d : Int) (col : String) :
    ((e.bump c d).stats.lookup col).getD 0 = (e.stats.lookup col).getD 0 + d * same c col := by
  unfold Engine.bump same
  by_cases hc : c = col
  · subst hc
    simp
  · simp [hc, AList.lookup_insert_ne (Ne.symm hc)]

theorem turns_bump {c : String} {d : Int} : b.Turns k srv (Tx.bump c d) (b.bump c d) := by
  apply turns_query
  intro a snap db own n own' hdb hamid
  have hguarded := Stmt.amid_guarded hamid hdb.guarded
  obtain ⟨ws, l, hperform, heq⟩ := Stmt.amid_cases hamid
  cases hperform
  have hengine : own'.engine db = (own.engine db).bump c d := by
    rw [heq]
    simp only [Own.engine, Own.view, List.append_nil]
    rfl
  apply hdb.advance hguarded (by rw [heq])
  · exact fun w hw => absurd hw List.not_mem_nil
  · intro col
    rw [hengine, Engine.owed_bump]
    simp only [bump]
    omega
  · have hpending : own'.pending "stat_in_progress" =
        own.pending "stat_in_progress" + d * same c "stat_in_progress" := by
      rw [heq]
      exact pending_bump _ c d _
    rw [hpending]
    exact Int.add_le_add_right hdb.top _
  · rw [heq]
    exact hdb.last
  · intro x s hs
    obtain ⟨hlock, hrow⟩ := hdb.held x s hs
    rw [heq]
    refine ⟨List.mem_append_left _ hlock, ?_⟩
    simp only [Own.view, List.append_nil]
    exact hrow

def move (b : Book) (p : Phase) (s : Status) (p' : Phase) (s' : Status) : Book :=
  { b with
    off := fun col => b.off col + same (bucketColumn p s) col - same (bucketColumn p' s') col
    top := b.top - same (bucketColumn p s) "stat_in_progress" +
      same (bucketColumn p' s') "stat_in_progress" }

theorem turns_moveBucket {p p' : Phase} {s s' : Status} :
    b.Turns k srv (Tx.moveBucket p s p' s') (b.move p s p' s') := by
  simp only [Tx.moveBucket]
  split
  · next heq =>
      refine turns_ret fun h => h.weaken ?_ rfl ?_ fun _ _ hr => hr
      · simp only [move, heq]
        omega
      · funext col
        simp only [move, heq]
        omega
  · refine turns_bump.bind fun _ => turns_bump.post fun h => ?_
    refine h.weaken ?_ rfl ?_ fun _ _ hr => hr
    · simp only [move, bump]
      omega
    · funext col
      simp only [move, bump]
      omega

/-! ## The engine -/

variable {fuel u : ℕ} {status : Status} {reason : Reason} {message : String} {cfg : ScopeConfig}
  {queue : List Engine.TerminateItem} {effects : List Effect} {ids : List ℕ}

/-- A held row moves, and the move is booked from its bucket. -/
theorem turns_moved {r' : NodeRow} {p : Phase} {s : Status} (hbucket : bucketColumn p s = r.bucket)
    (hfree : r'.phase ≠ .claimed) :
    (b.write id r r').Turns k srv (Tx.moveBucket p s r'.phase r'.status) (b.hold id r') := by
  have hzero : same (bucketColumn r'.phase r'.status) "stat_in_progress" = 0 := by
    have hcount := NodeRow.counted_inProgress r'
    rw [decide_eq_false hfree, NodeRow.counted, Bool.or_eq_false_iff] at hcount
    exact if_neg (of_decide_eq_false hcount.2)
  have hpos : 0 ≤ same (bucketColumn p s) "stat_in_progress" := by
    unfold same
    split <;> decide
  refine turns_moveBucket.post fun h => h.weaken ?_ rfl ?_ fun _ _ hs => hs
  · simp only [Book.move, Book.write, Book.hold, hzero]
    omega
  funext col
  have hbucket' : bucketColumn r'.phase r'.status = r'.bucket := rfl
  simp only [Book.move, Book.write, Book.hold, hbucket, hbucket']
  omega

theorem Holds.forget_hold (h : (b.hold id r).Holds k db own) : (b.forget id).Holds k db own :=
  h.weaken le_rfl rfl rfl fun _ _ hs => .inr hs

theorem turns_makeReady (hr : b.held id r) (hbucket : n.bucket = r.bucket) :
    b.Turns k srv (Tx.makeReady id n) (b.forget id) := by
  apply (turns_quiet (s := .nextFifo) trivial).bind
  intro fifo
  apply leads_updateNode hr
  apply (turns_moved hbucket (by simp)).bind
  exact fun _ => (turns_quiet (s := .insertEvent _) trivial).pre Holds.forget_hold

theorem turns_finish {it : Engine.TerminateItem} (hr : b.held it.id r)
    (hbucket : n.bucket = r.bucket) : b.Turns k srv (Tx.finish it n) (b.forget it.id) := by
  apply leads_updateNode hr
  apply (turns_moved hbucket (by simp)).bind
  exact fun _ => (turns_quiet (s := .insertEvent _) trivial).pre Holds.forget_hold

theorem turns_cascadeOne {w : ℕ} {succ : NodeRow} (hw : b.held w succ) :
    b.Turns k srv (Tx.cascadeOne u status reason w succ queue effects) (b.forget w) := by
  apply (turns_quiet (s := .markEdgeSatisfied u w) trivial).bind
  intro flipped
  split
  · have hdeps : b.Turns k srv (Tx.applyDepDelta w status reason) (b.hold w { succ with
        deps := Engine.resolve succ.deps (.ofTerminal status reason) }) :=
      leads_update_keep (f := fun r =>
        { r with deps := Engine.resolve r.deps (.ofTerminal status reason) }) hw rfl turns_ret
    apply hdeps.bind
    intro deps
    split
    · exact turns_ret Holds.forget_hold
    split
    · exact turns_ret Holds.forget_hold
    split
    · split
      · refine (turns_makeReady held_hold ?_).bind fun ef => turns_ret fun h => ?_
        · rfl
        · exact h.weaken le_rfl rfl rfl fun _ _ hs => ⟨hs.1, .inr hs⟩
      · exact turns_ret Holds.forget_hold
    · exact turns_ret Holds.forget_hold
  · exact turns_ret fun h => h.forget w

theorem turns_cascadeLoop {succs : List (ℕ × NodeRow)} (hnd : (succs.map Prod.fst).Nodup)
    (hheld : ∀ x ∈ succs, b.held x.1 x.2) :
    b.Turns k srv (Tx.cascadeLoop u status reason succs queue effects) b.clear := by
  induction succs generalizing b queue effects with
  | nil => exact turns_ret Holds.clear
  | cons x succs ih =>
    rw [List.map_cons, List.nodup_cons] at hnd
    apply (turns_cascadeOne (hheld x (.head _))).bind
    refine fun y => ih (b := b.forget x.1) hnd.2 fun z hz => ⟨?_, ?_⟩
    · rintro heq
      exact hnd.1 (List.mem_map.mpr ⟨z, hz, heq⟩)
    · exact hheld z (.tail _ hz)

theorem turns_cascadeSuccessors :
    b.clear.Turns k srv (Tx.cascadeSuccessors queue u status reason effects) b.clear := by
  apply leads_successorsForUpdate
  exact fun succs hnd => turns_cascadeLoop hnd fun _ hx => hx

theorem turns_terminateLoop :
    b.clear.Turns k srv (Tx.terminateLoop fuel queue effects) b.clear := by
  induction fuel generalizing queue effects with
  | zero => exact fun _ _ _ => trivial
  | succ fuel ih =>
    cases queue with
    | nil => exact turns_ret
    | cons it queue =>
      apply leads_loadForUpdate ih
      intro n
      dsimp only
      split
      · exact ih.pre Holds.clear
      apply (turns_finish held_hold rfl).bind
      intro ef
      apply (turns_cascadeSuccessors.pre Holds.clear).bind
      exact fun y => ih

theorem turns_terminate {root : ℕ} :
    b.clear.Turns k srv (Tx.terminate fuel root status reason message) b.clear :=
  turns_terminateLoop

/-! ## Reclaiming and promoting -/

theorem turns_ofProg {p : Prog α} : b.Turns k srv (Tx.ofProg p) b := by
  induction p with
  | ret a => exact turns_ret
  | now f ih => exact (turns_quiet (s := .clockTimestamp) trivial).bind ih
  | jitter bound f ih => exact (turns_quiet (s := .nextJitter bound) trivial).bind ih
  | range keys f ih => exact ih keys

theorem leads_schedule {delay : Int} (hr : b.held id r) (hbucket : n.bucket = r.bucket) :
    b.Leads k srv (Tx.schedule id n delay) fun t =>
      (b.hold id { r with phase := .scheduled, status := .new, readyAt := some t }).Holds k := by
  apply (turns_quiet (s := .clockTimestamp) trivial).bind
  intro now
  apply leads_updateNode hr
  apply (turns_moved hbucket (by simp)).bind
  exact fun _ => Setting.triple_ret (stable k _ srv) fun h => h

theorem turns_bumpSeq (hr : b.held id r) :
    b.Turns k srv (Tx.bumpSeq id) (b.hold id { r with seq := r.seq + 1 }) :=
  leads_update_keep (f := fun r => { r with seq := r.seq + 1 }) hr rfl turns_ret

theorem turns_failAttempt (hn : b.held id n) :
    b.Turns k srv (Tx.failAttempt fuel cfg id n reason message) b.clear := by
  unfold Tx.failAttempt
  dsimp only
  split
  · exact (turns_terminate.pre Holds.clear).bind fun _ => turns_ret
  apply turns_ofProg.bind
  intro delay
  -- the row keeps its bucket until `schedule` moves it
  have hset : b.Turns k srv (Tx.setRetryFields id reason message) (b.hold id { n with
      reason := reason, message := message, worker := "" }) :=
    leads_update_keep (f := fun r =>
      { r with reason := reason, message := message, worker := "" }) hn rfl turns_ret
  apply hset.bind
  intro _
  apply (leads_schedule held_hold rfl).bind
  intro readyAt
  apply (turns_bumpSeq held_hold).bind
  intro seq
  apply (turns_quiet (s := .insertEvent _) trivial).bind
  exact fun ef => turns_ret Holds.clear

theorem turns_reclaimLoop : b.clear.Turns k srv (Tx.reclaimLoop fuel cfg ids) b.clear := by
  induction ids with
  | nil => exact turns_ret
  | cons id ids ih =>
    apply leads_loadForUpdate ih
    intro n
    dsimp only
    split
    · exact ih.pre Holds.clear
    · apply (turns_failAttempt held_hold).bind
      exact fun x => ih.bind fun y => turns_ret

theorem turns_reclaimExpired {limit : Int} :
    b.clear.Turns k srv (Tx.reclaimExpired fuel cfg limit) b.clear := by
  apply (turns_quiet (s := .reclaimCandidates _) trivial).bind
  intro ids
  apply turns_reclaimLoop.bind
  intro x
  exact (turns_quiet (s := .moreExpired) trivial).bind fun more => turns_ret

theorem turns_promoteLoop : b.clear.Turns k srv (Tx.promoteLoop ids) b.clear := by
  induction ids with
  | nil => exact turns_ret
  | cons id ids ih =>
    apply leads_loadForUpdate ih
    intro n
    dsimp only
    split
    · exact ih.pre Holds.clear
    · apply (turns_makeReady held_hold rfl).bind
      exact fun ef => .bind (ih.pre fun h => h.clear) fun effects => turns_ret

theorem turns_promoteScheduled : b.clear.Turns k srv Tx.promoteScheduled b.clear :=
  (turns_quiet (s := .promoteCandidates) trivial).bind fun _ => turns_promoteLoop

end Book
end DagWorker.Postgres
