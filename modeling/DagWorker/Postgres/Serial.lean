import DagWorker.Postgres.Gentle
import DagWorker.Support.Table

/-!
# Programs of the engine, run alone

When no other transaction commits between its statements, a program of the engine
computes the function of the same name on the tables it started from.
-/

namespace DagWorker.Postgres.Tx

open Engine (TerminateItem)
open Dialogue (orAbort wp_bind)

variable {srv : Server} {e : Engine}
variable {id u w : ℕ} {f : NodeRow → NodeRow} {Q : List TerminateItem × List Effect → Engine → Prop}
  {n : NodeRow} {status : Status} {reason : Reason} {queue : List TerminateItem}
  {effects : List Effect}

/-! ## Statements -/

theorem wp_updateNode {Q : Option NodeRow → Engine → Prop}
    (hnone : e.rows.lookup id = none → Q none e)
    (hsome : ∀ r, e.rows.lookup id = some r → (f r).admissible = true →
      Q (some (f r)) { e with rows := e.rows.insert id (f r) }) : (updateNode id f).Wp srv Q e := by
  intro a r e' hexec
  obtain ⟨ws, l, hp, rfl⟩ := Stmt.perform_of_exec hexec
  simp only [Stmt.perform] at hp
  split at hp
  · cases hp
    exact hnone ‹_›
  rename_i row hrow
  split_ifs at hp with hadm
  cases hp
  exact hsome row hrow hadm

theorem wp_updateExisting {α : Type} {k : NodeRow → Tx α} {Q : α → Engine → Prop}
    (h : ∀ r, e.rows.lookup id = some r →
      (k (f r)).Wp srv Q { e with rows := e.rows.insert id (f r) }) :
    (updateNode id f >>= fun r => orAbort r >>= k).Wp srv Q e := by
  apply wp_bind.mpr
  apply wp_updateNode
  · exact fun _ => trivial
  · exact fun r hr _ => h r hr

theorem wp_bump {col : String} {d : Int} {Q : Unit → Engine → Prop} (h : Q () (e.bump col d)) :
    (bump col d).Wp srv Q e := by
  intro a r e' hexec
  cases hexec
  exact h

theorem moveBucket_wp {p : Phase} {s : Status} {p' : Phase} {s' : Status}
    {Q : Unit → Engine → Prop} (h : Q () (e.moveBucket p s p' s')) :
    (moveBucket p s p' s').Wp srv Q e := by
  simp only [Engine.moveBucket] at h
  simp only [moveBucket]
  split_ifs at h ⊢
  · exact h
  · apply wp_bind.mpr
    apply wp_bump
    exact wp_bump h

theorem insertEvent_wp {ev : PendingEvent} {Q : Effect → Engine → Prop}
    (h : Q (e.insertEvent srv ev.nodeID ev.nodeKind ev.kind ev.fromStatus ev.toStatus ev.reason
        ev.message ev.attempt ev.seq).1
      (e.insertEvent srv ev.nodeID ev.nodeKind ev.kind ev.fromStatus ev.toStatus ev.reason
        ev.message ev.attempt ev.seq).2) : (insertEvent ev).Wp srv Q e := by
  intro a r e' hexec
  cases hexec
  exact h

theorem loadForUpdate_wp {Q : Option NodeRow → Engine → Prop} (h : Q (e.rows.lookup id) e) :
    (loadForUpdate id).Wp srv Q e :=
  wp_read (s := .loadForUpdate id) (fun _ => rfl) h

theorem successorsForUpdate_wp {Q : List (ℕ × NodeRow) → Engine → Prop}
    (h : Q (e.successorsForUpdate u) e) : (successorsForUpdate u).Wp srv Q e :=
  wp_read (s := .successorsForUpdate u) (fun _ => rfl) h

theorem markEdgeSatisfied_wp {Q : Bool → Engine → Prop}
    (h : Q (e.markEdgeSatisfied u w).1 (e.markEdgeSatisfied u w).2) :
    (markEdgeSatisfied u w).Wp srv Q e := by
  intro a r e' hexec
  obtain ⟨ws, l, hp, rfl⟩ := Stmt.perform_of_exec hexec
  simp only [Stmt.perform] at hp
  split at hp
  · cases hp
    rwa [Engine.markEdgeSatisfied_of_open e ‹_›] at h
  · rename_i hopen
    cases hp
    rwa [Engine.markEdgeSatisfied_of_not_open e fun heq => hopen heq] at h

theorem updateNode_of_some {r : NodeRow} (hr : e.rows.lookup id = some r) :
    e.updateNode id f = { e with rows := e.rows.insert id (f r) } := by
  simp [Engine.updateNode, hr]

/-- `RETURNING seq` of a row just written. -/
@[simp] theorem seqOf_moveBucket_insert (db : Db) (l : Local) (m : GoMap ℕ NodeRow) (id : ℕ)
    (r : NodeRow) (p : Phase) (s : Status) (p' : Phase) (s' : Status) :
    (({ db with rows := m.insert id r, toLocal := l } : Engine).moveBucket p s p' s').seqOf id =
      r.seq := by
  rw [Engine.seqOf, Engine.moveBucket_rows]
  simp only [AList.lookup_insert]

/-! ## Scheduling -/

theorem makeReady_wp {Q : Effect → Engine → Prop}
    (h : Q (e.makeReady srv id n).1 (e.makeReady srv id n).2) : (makeReady id n).Wp srv Q e := by
  apply wp_bind.mpr
  intro a fifo e₁ hexec
  cases hexec
  apply wp_updateExisting
  intro r hr
  have hr : e.rows.lookup id = some r := hr
  apply wp_bind.mpr
  apply moveBucket_wp
  apply insertEvent_wp
  simp only [Engine.makeReady, updateNode_of_some hr, seqOf_moveBucket_insert] at h
  exact h

theorem makeBlocked_wp {Q : Unit → Engine → Prop} (h : Q () (e.makeBlocked id n)) :
    (makeBlocked id n).Wp srv Q e := by
  apply wp_bind.mpr
  apply wp_updateNode
  · intro hnone
    apply moveBucket_wp
    simp only [Engine.makeBlocked, Engine.updateNode, hnone] at h
    exact h
  · intro r hr _
    apply moveBucket_wp
    simp only [Engine.makeBlocked, updateNode_of_some hr] at h
    exact h

theorem finish_wp {it : TerminateItem} {Q : Effect → Engine → Prop}
    (h : Q (e.finish srv it n).1 (e.finish srv it n).2) : (finish it n).Wp srv Q e := by
  apply wp_updateExisting
  intro r hr
  apply wp_bind.mpr
  apply moveBucket_wp
  apply insertEvent_wp
  simp only [Engine.finish, updateNode_of_some hr, seqOf_moveBucket_insert] at h
  exact h

theorem applyDepDelta_wp {Q : DepCounts → Engine → Prop}
    (h : Q ((e.applyDepDelta w status reason).depsOf w) (e.applyDepDelta w status reason)) :
    (applyDepDelta w status reason).Wp srv Q e := by
  apply wp_updateExisting
  intro r hr
  simp only [Engine.applyDepDelta, updateNode_of_some hr, Engine.depsOf,
    AList.lookup_insert] at h
  exact h

/-! ## Terminating -/

theorem cascadeOne_wp {succ : NodeRow}
    (h : Q (Engine.cascadeOne srv u status reason w succ e queue effects).2
      (Engine.cascadeOne srv u status reason w succ e queue effects).1) :
    (cascadeOne u status reason w succ queue effects).Wp srv Q e := by
  apply wp_bind.mpr
  apply markEdgeSatisfied_wp
  by_cases hopen : e.edges.lookup (u, w) = some false
  · rw [Engine.cascadeOne, Engine.markEdgeSatisfied_of_open e hopen] at h
    rw [Engine.markEdgeSatisfied_of_open e hopen]
    simp only at h
    apply wp_bind.mpr
    apply applyDepDelta_wp
    split_ifs at h ⊢
    · exact h
    · exact h
    · apply wp_bind.mpr
      exact makeReady_wp h
    · exact h
    · exact h
  · rw [Engine.cascadeOne_of_not_open hopen] at h
    rw [Engine.markEdgeSatisfied_of_not_open e hopen]
    exact h

theorem cascadeLoop_wp {succs : List (ℕ × NodeRow)}
    (h : Q (Engine.cascadeLoop srv u status reason succs e queue effects).2
      (Engine.cascadeLoop srv u status reason succs e queue effects).1) :
    (cascadeLoop u status reason succs queue effects).Wp srv Q e := by
  induction succs generalizing queue effects e with
  | nil => exact h
  | cons x succs ih =>
    apply wp_bind.mpr
    apply cascadeOne_wp
    exact ih h

/-- Whatever fuel the program had left, the function does the same with any larger one. -/
theorem terminateLoop_wp {fuel fuel' : ℕ} (hle : fuel ≤ fuel') {Q : List Effect → Engine → Prop}
    (h : Q (Engine.terminateLoop srv fuel' queue e effects).2
      (Engine.terminateLoop srv fuel' queue e effects).1) :
    (terminateLoop fuel queue effects).Wp srv Q e := by
  induction fuel generalizing fuel' queue effects e with
  | zero => trivial
  | succ fuel ih =>
    obtain ⟨fuel', rfl⟩ : ∃ m, fuel' = m + 1 := ⟨fuel' - 1, by omega⟩
    have hle : fuel ≤ fuel' := by omega
    cases queue with
    | nil => exact h
    | cons it queue =>
      apply wp_bind.mpr
      apply loadForUpdate_wp
      rw [Engine.terminateLoop, Engine.loadForUpdate] at h
      cases hrow : e.rows.lookup it.id with
      | none =>
        rw [hrow] at h
        exact ih hle h
      | some n =>
        rw [hrow] at h
        simp only at h ⊢
        split_ifs at h ⊢
        · exact ih hle h
        apply wp_bind.mpr
        apply finish_wp
        apply wp_bind.mpr
        apply wp_bind.mpr
        apply successorsForUpdate_wp
        apply cascadeLoop_wp
        exact ih hle h

end DagWorker.Postgres.Tx

namespace DagWorker.Postgres.Engine

variable {srv : Server} {e : Engine} {queue : List TerminateItem} {effects : List Effect}
variable (u : ℕ) (status : Status) (reason : Reason)

/-! ## Fuel -/

theorem openEdges_resolved {u w : ℕ} (hopen : e.edges.lookup (u, w) = some false) :
    (e.resolved u w status reason).openEdges + 1 = e.openEdges := by
  have hedges : (e.resolved u w status reason).edges = e.edges.insert (u, w) true :=
    applyDepDelta_edges _ w status reason
  have hcount := Table.count_insert_of_some (p := fun b => decide (b = false)) (v := true) hopen
  rw [openEdges, hedges]
  exact hcount

/-- An entry joins the queue only with an edge that is no longer open. -/
theorem cascadeOne_fuel (w : ℕ) (succ : NodeRow) :
    (cascadeOne srv u status reason w succ e queue effects).2.1.length +
        (cascadeOne srv u status reason w succ e queue effects).1.openEdges ≤
      queue.length + e.openEdges := by
  have hcases : Cascaded srv u status reason w succ e queue effects _ :=
    cascadeOne_cascaded u status reason w succ
  generalize cascadeOne srv u status reason w succ e queue effects = x at hcases
  cases hcases with
  | skip => exact le_rfl
  | tell hopen =>
    have hless := openEdges_resolved status reason hopen
    simp only
    omega
  | enqueue reason' hopen =>
    have hless := openEdges_resolved status reason hopen
    simp only [List.length_append, List.length_singleton]
    omega
  | release hopen =>
    have hless := openEdges_resolved status reason hopen
    have hready : ((e.resolved u w status reason).makeReady srv w succ).2.openEdges =
        (e.resolved u w status reason).openEdges := by
      rw [openEdges, makeReady_edges, openEdges]
    simp only [hready]
    omega

theorem cascadeLoop_fuel (succs : List (ℕ × NodeRow)) :
    (cascadeLoop srv u status reason succs e queue effects).2.1.length +
        (cascadeLoop srv u status reason succs e queue effects).1.openEdges ≤
      queue.length + e.openEdges := by
  induction succs generalizing e queue effects with
  | nil => exact le_rfl
  | cons x succs ih => exact ih.trans (cascadeOne_fuel u status reason x.1 x.2)

theorem terminateLoop_fuel {fuel fuel' : ℕ} (hle : fuel ≤ fuel')
    (hfuel : queue.length + e.openEdges ≤ fuel) :
    terminateLoop srv fuel' queue e effects = terminateLoop srv fuel queue e effects := by
  induction fuel generalizing fuel' queue e effects with
  | zero =>
    obtain rfl : queue = [] := List.length_eq_zero_iff.mp (by omega)
    rw [terminateLoop_nil, terminateLoop_nil]
  | succ fuel ih =>
    obtain ⟨fuel', rfl⟩ : ∃ m, fuel' = m + 1 := ⟨fuel' - 1, by omega⟩
    have hle : fuel ≤ fuel' := by omega
    cases queue with
    | nil => rfl
    | cons it queue =>
      rw [List.length_cons] at hfuel
      rw [terminateLoop, terminateLoop]
      cases e.loadForUpdate it.id with
      | none => exact ih hle (by omega)
      | some n =>
        simp only
        split
        · exact ih hle (by omega)
        apply ih hle
        have hedges : (e.finish srv it n).2.openEdges = e.openEdges := by
          rw [openEdges, finish_edges, openEdges]
        apply (cascadeLoop_fuel it.id it.status it.reason
          ((e.finish srv it n).2.successorsForUpdate it.id)).trans
        omega

end DagWorker.Postgres.Engine

namespace DagWorker.Postgres.Tx

open Dialogue (wp_bind)

variable {srv : Server} {e : Engine}
variable {fuel : ℕ} {Q : List Effect → Engine → Prop} {ids : List ℕ}

/-! ## Settling -/

theorem terminate_wp {root : ℕ} {status : Status} {reason : Reason} {message : String}
    (h : Q (e.terminate srv root status reason message).2
      (e.terminate srv root status reason message).1) :
    (terminate fuel root status reason message).Wp srv Q e := by
  apply terminateLoop_wp (le_max_left fuel (e.openEdges + 1))
  rw [Engine.terminateLoop_fuel (le_max_right fuel (e.openEdges + 1))]
  · exact h
  · simp [Nat.add_comm]

theorem settle_wp {id : ℕ} {n : NodeRow} (h : Q (e.settle srv id n).2 (e.settle srv id n).1) :
    (settle fuel id n).Wp srv Q e := by
  unfold Engine.settle at h
  unfold settle
  split_ifs at h ⊢
  · exact h
  · exact terminate_wp h
  · apply wp_bind.mpr
    exact makeReady_wp h
  · exact h
  · apply wp_bind.mpr
    exact makeBlocked_wp h
  · exact h

theorem loadManyForUpdate_wp {Q : List (ℕ × NodeRow) → Engine → Prop}
    (h : Q (e.loadManyForUpdate ids) e) : (loadManyForUpdate ids).Wp srv Q e := by
  induction ids generalizing Q with
  | nil => exact h
  | cons id ids ih =>
    apply wp_bind.mpr
    apply loadForUpdate_wp
    apply wp_bind.mpr
    apply ih
    rw [Engine.loadManyForUpdate, List.filterMap_cons] at h
    cases hrow : e.rows.lookup id with
    | none =>
      rw [hrow] at h
      exact h
    | some r =>
      rw [hrow] at h
      exact h

theorem settleOne_wp {id : ℕ} {snapshot : NodeRow} {reload : Bool}
    {Q : List Effect × Bool → Engine → Prop}
    (h : Q (e.settleOne srv id snapshot reload).2 (e.settleOne srv id snapshot reload).1) :
    (settleOne fuel id snapshot reload).Wp srv Q e := by
  have hread : ∀ {Q : Option NodeRow → Engine → Prop},
      Q (if reload then e.loadForUpdate id else some snapshot) e →
      (if reload then loadForUpdate id else pure (some snapshot) : Tx (Option NodeRow)).Wp srv
        Q e := by
    intro Q hQ
    cases reload with
    | false => exact hQ
    | true => exact loadForUpdate_wp hQ
  unfold Engine.settleOne at h
  apply wp_bind.mpr
  apply hread
  cases hrow : (if reload then e.loadForUpdate id else some snapshot) with
  | none =>
    rw [hrow] at h
    exact h
  | some n =>
    rw [hrow] at h
    apply wp_bind.mpr
    exact settle_wp h

theorem settleLoop_wp {snapshots : GoMap ℕ NodeRow} {stale : Bool}
    (h : Q (Engine.settleLoop srv snapshots ids stale e).2
      (Engine.settleLoop srv snapshots ids stale e).1) :
    (settleLoop fuel snapshots ids stale).Wp srv Q e := by
  induction ids generalizing stale e Q with
  | nil => exact h
  | cons id ids ih =>
    rw [Engine.settleLoop] at h
    rw [settleLoop]
    cases hsnap : snapshots.lookup id with
    | none =>
      rw [hsnap] at h
      exact ih h
    | some n =>
      rw [hsnap] at h
      apply wp_bind.mpr
      apply settleOne_wp
      apply wp_bind.mpr
      exact ih h

/-- The program of `settleTouched` computes the function. -/
theorem settleTouched_wp (h : Q (e.settleTouched srv ids).2 (e.settleTouched srv ids).1) :
    (settleTouched fuel ids).Wp srv Q e := by
  unfold Engine.settleTouched at h
  unfold settleTouched
  split_ifs at h ⊢
  · exact h
  · apply wp_bind.mpr
    apply loadManyForUpdate_wp
    exact settleLoop_wp h

end DagWorker.Postgres.Tx
