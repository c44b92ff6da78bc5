import DagWorker.Postgres.Operations
import DagWorker.Postgres.Cascade

/-!
# What a statement does to the tables

`Changes` lists everything one statement can do, with the conditions under which it does
it.  Every invariant of the tables is proved from this list.
-/

namespace DagWorker.Postgres

variable {id : ℕ} {e : Engine} {nodeID : NodeID} {ids rows : List ℕ} {limit : Option ℕ} (db : Db)
  (ks : List (ℕ × ℕ))

namespace Db

/-- The epoch that a new node starts from. -/
def floor (db : Db) : ℕ := (db.scopeRow.map ScopeRow.epochFloor).getD 0

def dropEdges (db : Db) (ks : List (ℕ × ℕ)) : Db :=
  { db with edges := ks.foldl (fun m k => m.erase k) db.edges }

theorem dropEdges_lookup (k : ℕ × ℕ) :
    (db.dropEdges ks).edges.lookup k = if k ∈ ks then none else db.edges.lookup k := by
  unfold dropEdges
  generalize db.edges = m
  induction ks generalizing m with
  | nil => simp
  | cons j ks ih =>
    rw [List.foldl_cons, ih]
    by_cases hks : k ∈ ks
    · simp [hks]
    by_cases hj : k = j
    · subst hj
      simp [hks]
    · simp [hks, hj, AList.lookup_erase_ne hj]

theorem applyAll_dropEdges : db.applyAll (ks.map .dropEdge) = db.dropEdges ks := by
  induction ks generalizing db with
  | nil => rfl
  | cons k ks ih => exact ih (db.apply (.dropEdge k))

theorem applyAll_append (ws ws' : List Write) :
    db.applyAll (ws ++ ws') = (db.applyAll ws).applyAll ws' := List.foldl_append

def edgesTo (db : Db) (id : ℕ) : List (ℕ × ℕ) :=
  db.edges.keys.filter fun (k : ℕ × ℕ) => k.2 = id

def incident (db : Db) (id : ℕ) : List (ℕ × ℕ) :=
  db.edges.keys.filter fun (k : ℕ × ℕ) => k.1 = id ∨ k.2 = id

theorem mem_keys_iff {db : Db} {k : ℕ × ℕ} :
    k ∈ db.edges.keys ↔ (db.edges.lookup k).isSome := by
  rw [AList.lookup_isSome, AList.mem_keys]

theorem dropEdges_filter_lookup (p : ℕ × ℕ → Bool) (k : ℕ × ℕ) :
    (db.dropEdges (db.edges.keys.filter p)).edges.lookup k =
      if p k = true then none else db.edges.lookup k := by
  rw [dropEdges_lookup]
  by_cases hp : p k = true
  · rw [if_pos hp]
    split
    · rfl
    rename_i hmem
    have hnone : k ∉ db.edges.keys := fun h => hmem (List.mem_filter.mpr ⟨h, hp⟩)
    rw [mem_keys_iff, Option.not_isSome_iff_eq_none] at hnone
    exact hnone
  · rw [if_neg hp, if_neg]
    exact fun h => hp (List.mem_filter.mp h).2

theorem edgesTo_lookup (id : ℕ) (k : ℕ × ℕ) :
    (db.dropEdges (db.edgesTo id)).edges.lookup k =
      if k.2 = id then none else db.edges.lookup k := by
  simp only [edgesTo, dropEdges_filter_lookup, decide_eq_true_eq]

theorem incident_lookup (id : ℕ) (k : ℕ × ℕ) :
    (db.dropEdges (db.incident id)).edges.lookup k =
      if k.1 = id ∨ k.2 = id then none else db.edges.lookup k := by
  simp only [incident, dropEdges_filter_lookup, decide_eq_true_eq]

end Db

/-! ## Statements -/

/-- One statement on the tables. -/
inductive Changes (db : Db) : Stmt → Db → Prop
  | nothing (s : Stmt) : Changes db s db
  | createScope (defaults : ScopeConfig) : db.scopeRow = none →
      Changes db (.ensureScope defaults)
        { db with scopeRow := some { cfg := storedConfig defaults } }
  | configure (cfg : ScopeConfig) (sc : ScopeRow) : db.scopeRow = some sc →
      Changes db (.setScopeConfig cfg)
        { db with scopeRow := some { sc with cfg := storedConfig cfg } }
  | close (sc : ScopeRow) : db.scopeRow = some sc →
      Changes db .setSealed { db with scopeRow := some { sc with isSealed := true } }
  | raise (epoch : ℕ) (sc : ScopeRow) : db.scopeRow = some sc →
      Changes db (.raiseEpochFloor epoch)
        { db with scopeRow := some { sc with epochFloor := max sc.epochFloor epoch } }
  | count (deltas : List (String × Int)) (sc : ScopeRow) : db.scopeRow = some sc →
      Changes db (.addStats deltas)
        { db with
          scopeRow := some
            { sc with stats := deltas.foldl (fun st d => st.addColumn d.1 d.2) sc.stats } }
  | update (id : ℕ) (f : NodeRow → NodeRow) (r : NodeRow) : db.rows.lookup id = some r →
      (f r).admissible = true →
      Changes db (.updateNode id f) { db with rows := db.rows.insert id (f r) }
  | insert (spec : NodeSpec) (id rank : ℕ) (created updated : Int) :
      db.nextID ≤ id → db.nextRank ≤ rank → db.rows.lookup id = none →
      (∀ x r, db.rows.lookup x = some r → r.nodeID ≠ spec.id) →
      Changes db (.insertNode spec)
        { db with
          rows := db.rows.insert id (createdRow spec rank db.floor created updated)
          nextID := id + 1
          nextRank := rank + 1 }
  | delete (id : ℕ) :
      Changes db (.deleteNode id)
        { db.dropEdges (db.incident id) with rows := db.rows.erase id }
  | link (u w : ℕ) (b : Bool) : db.edges.lookup (u, w) = none →
      (db.rows.lookup u).isSome → (db.rows.lookup w).isSome →
      Changes db (.insertEdge u w b) { db with edges := db.edges.insert (u, w) b }
  | mark (u w : ℕ) : db.edges.lookup (u, w) = some false →
      Changes db (.markEdgeSatisfied u w) { db with edges := db.edges.insert (u, w) true }
  | unlink (u w : ℕ) (b : Bool) : db.edges.lookup (u, w) = some b →
      Changes db (.deleteEdge u w) { db with edges := db.edges.erase (u, w) }
  | detach (w : ℕ) : Changes db (.deleteEdgesTo w) (db.dropEdges (db.edgesTo w))
  | grant (kinds : List String) (workerID : String) (leaseFor deadline : Int) (id : ℕ)
      (r : NodeRow) : db.rows.lookup id = some r → r.phase = .ready → r.epoch + 1 < 2 ^ 63 →
      Changes db (.claim kinds workerID leaseFor)
        { db with rows := db.rows.insert id (claimedRow workerID deadline r) }
  | prolong (nodeID : NodeID) (epoch : ℕ) (leaseFor deadline : Int) (id : ℕ) (r : NodeRow) :
      db.rows.lookup id = some r → r.phase = .claimed →
      Changes db (.extend nodeID epoch leaseFor)
        { db with rows := db.rows.insert id { r with deadline := some deadline } }

namespace Engine

theorem findExternal_some {r : NodeRow} (h : e.findExternal nodeID = some (id, r)) :
    e.rows.lookup id = some r ∧ r.nodeID = nodeID := by
  rw [findExternal, Option.map_eq_some_iff] at h
  obtain ⟨⟨id', r'⟩, hfind, heq⟩ := h
  obtain ⟨rfl, rfl⟩ := Prod.mk.inj heq
  exact ⟨AList.mem_lookup_iff.mpr (List.mem_of_find?_eq_some hfind),
    by simpa using List.find?_some hfind⟩

theorem findExternal_none (h : e.findExternal nodeID = none) {r : NodeRow}
    (hr : e.rows.lookup id = some r) : r.nodeID ≠ nodeID := by
  rw [findExternal, Option.map_eq_none_iff, List.find?_eq_none] at h
  simpa using h ⟨id, r⟩ (AList.mem_lookup_iff.mp hr)

theorem mem_rowsOf {x : ℕ × NodeRow} :
    x ∈ e.rowsOf ids ↔ x.1 ∈ ids ∧ e.rows.lookup x.1 = some x.2 := by
  rw [rowsOf, List.mem_filterMap]
  constructor
  · rintro ⟨id, hid, hx⟩
    obtain ⟨r, hr, rfl⟩ := Option.map_eq_some_iff.mp hx
    exact ⟨hid, hr⟩
  · rintro ⟨hid, hr⟩
    exact ⟨x.1, hid, by rw [hr]; rfl⟩

theorem mem_idsWhere {p : NodeRow → Bool} :
    id ∈ e.idsWhere p ↔ ∃ r, e.rows.lookup id = some r ∧ p r = true := by
  rw [idsWhere, (List.perm_insertionSort _ _).mem_iff, List.mem_map]
  constructor
  · rintro ⟨⟨x, r⟩, hx, rfl⟩
    obtain ⟨hmem, hp⟩ := List.mem_filter.mp hx
    exact ⟨r, AList.mem_lookup_iff.mpr hmem, hp⟩
  · rintro ⟨r, hr, hp⟩
    exact ⟨⟨id, r⟩, List.mem_filter.mpr ⟨AList.mem_lookup_iff.mp hr, hp⟩, rfl⟩

end Engine

theorem mem_of_limited (h : id ∈ limited limit rows) : id ∈ rows := by
  cases limit with
  | none => exact h
  | some n => exact List.mem_of_mem_take h

theorem Answer.mem_of_skipLocked {a : Answer} {le : ℕ → ℕ → Prop} [DecidableRel le]
    (h : a.skipLocked le limit ids = some rows) (hid : id ∈ rows) : id ∈ ids := by
  simp only [skipLocked] at h
  split at h
  · rename_i hanswer
    rw [Option.some.injEq] at h
    subst h
    exact (List.mem_filter.mp (hanswer.1.mem_iff.mp (mem_of_limited hid))).1
  · cases h

/-- The row that a claim finds is ready. -/
theorem Answer.ready_of_skipLocked {a : Answer} {kinds : List String} {r : NodeRow}
    {rest : List (ℕ × NodeRow)} (hrows : e.rowsOf ids = (id, r) :: rest)
    (h : a.skipLocked e.before limit (e.idsWhere (Engine.isClaimable kinds)) = some ids) :
    e.rows.lookup id = some r ∧ r.phase = .ready := by
  have hmem : (id, r) ∈ e.rowsOf ids := by
    rw [hrows]
    exact .head _
  obtain ⟨hid, hr⟩ := Engine.mem_rowsOf.mp hmem
  obtain ⟨r', hr', hready⟩ := Engine.mem_idsWhere.mp (mem_of_skipLocked h hid)
  obtain rfl := Option.mem_unique hr hr'
  simp only [Engine.isClaimable, Bool.and_eq_true, decide_eq_true_eq] at hready
  exact ⟨hr, hready.1⟩

namespace Stmt

variable {srv : Server} {a : Answer} {e e' : Engine}

theorem changes_updateScope {s : Stmt} {f : ScopeRow → ScopeRow}
    (h : ∀ sc, e.scopeRow = some sc → Changes e.toDb s { e.toDb with scopeRow := some (f sc) }) :
    Changes e.toDb s (e.toDb.applyAll (updateScope e f)) := by
  unfold updateScope
  split
  · exact .nothing s
  · rename_i sc hsc
    exact h sc hsc

/-- Everything a statement can do to the tables. -/
theorem exec_changes {s : Stmt} {r : s.Result} (h : s.exec srv a e = some (r, e')) :
    Changes e.toDb s e'.toDb := by
  rw [exec, Option.map_eq_some_iff] at h
  obtain ⟨⟨x, ws, l⟩, hp, heq⟩ := h
  obtain ⟨rfl, rfl⟩ := Prod.mk.inj heq
  cases s with
  | ensureScope defaults =>
    simp only [perform] at hp
    split at hp
    · cases hp
      exact .nothing _
    · rename_i hnone
      cases hp
      exact .createScope defaults hnone
  | setScopeConfig cfg =>
    cases hp
    exact changes_updateScope fun sc hsc => .configure cfg sc hsc
  | setSealed =>
    cases hp
    exact changes_updateScope fun sc hsc => .close sc hsc
  | raiseEpochFloor epoch =>
    cases hp
    exact changes_updateScope fun sc hsc => .raise epoch sc hsc
  | addStats deltas =>
    cases hp
    exact changes_updateScope fun sc hsc => .count deltas sc hsc
  | updateNode id f =>
    simp only [perform] at hp
    split at hp
    · cases hp
      exact .nothing _
    rename_i row hrow
    split at hp
    · rename_i hadm
      cases hp
      exact .update id f row hrow hadm
    · cases hp
  | insertNode spec =>
    simp only [perform] at hp
    split at hp
    · rename_i hcond
      cases hp
      have hkey := Option.isNone_iff_eq_none.mp hcond.1
      have hname := Option.isNone_iff_eq_none.mp hcond.2.1
      exact .insert spec _ _ _ _ (Nat.le_add_right _ _) (Nat.le_add_right _ _) hkey
        fun x r hr => Engine.findExternal_none hname hr
    · cases hp
  | deleteNode id =>
    cases hp
    rw [Db.applyAll_append, Db.applyAll_dropEdges]
    exact .delete id
  | insertEdge u w b =>
    simp only [perform] at hp
    split at hp
    · rename_i hcond
      cases hp
      exact .link u w b (Option.isNone_iff_eq_none.mp hcond.1) hcond.2.1 hcond.2.2
    · cases hp
  | markEdgeSatisfied u w =>
    simp only [perform] at hp
    split at hp
    · rename_i hopen
      cases hp
      exact .mark u w hopen
    · cases hp
      exact .nothing _
  | deleteEdge u w =>
    simp only [perform] at hp
    split at hp
    · cases hp
      exact .nothing _
    · rename_i b hb
      cases hp
      exact .unlink u w b hb
  | deleteEdgesTo w =>
    cases hp
    rw [Db.applyAll_dropEdges]
    exact .detach w
  | claim kinds workerID leaseFor =>
    simp only [perform, Option.bind_eq_bind, Option.bind_eq_some_iff] at hp
    obtain ⟨ids, hids, hp⟩ := hp
    split at hp
    · cases hp
      exact .nothing _
    rename_i id row rest hrows
    split at hp
    · rename_i hepoch
      cases hp
      obtain ⟨hrow, hphase⟩ := Answer.ready_of_skipLocked hrows hids
      exact .grant kinds workerID leaseFor _ id row hrow hphase hepoch
    · cases hp
  | extend nodeID epoch leaseFor =>
    simp only [perform] at hp
    split at hp
    · cases hp
      exact .nothing _
    rename_i id row hfind
    split at hp
    · rename_i hheld
      cases hp
      exact .prolong nodeID epoch leaseFor _ id row (Engine.findExternal_some hfind).1 hheld.1
    · cases hp
      exact .nothing _
  | liveNodes | successorRanks | predecessorRanks | reclaimCandidates | promoteCandidates
  | findTerminalCandidates =>
    obtain ⟨_, _, ⟨⟩⟩ := Option.bind_eq_some_iff.mp hp
    exact .nothing _
  | inProgress =>
    simp only [perform] at hp
    split at hp
    · cases hp
    · cases hp
      exact .nothing _
  | _ =>
    cases hp
    exact .nothing _

end Stmt

end DagWorker.Postgres
