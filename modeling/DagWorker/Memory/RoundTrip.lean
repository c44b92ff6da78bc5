import DagWorker.Memory.Runs

/-!
# Snapshots of restored stores

`Restore` of a store's own snapshot succeeds when no scope has an empty name, and the
store it builds has the same snapshot: the same scopes, nodes, edges, leases and
counters, under new handles.
-/

namespace DagWorker.Memory

namespace Scope

section Copies

variable {hs : List ℕ} {s s' : Scope} (hc : Copies hs s s')
include hc

theorem Copies.aliveHandles_eq : s'.aliveHandles = List.range hs.length := by
  rw [aliveHandles, hc.size, List.filter_eq_self]
  intro i hi
  exact (hc.alive_iff i).mpr (List.mem_range.mp hi)

theorem Copies.snapshotNode_eq {i : ℕ} (hlt : i < hs.length) :
    s'.snapshotNode i = s.snapshotNode (old hs i) := by
  obtain ⟨hsucc, hsuccLt⟩ := hc.succ i hlt
  obtain ⟨hpred, hpredLt⟩ := hc.pred i hlt
  have hids : (s'.succ i).map (fun w => (s'.recs w).id) =
      (s.succ (old hs i)).map fun w => (s.recs w).id := by
    rw [← hsucc, List.map_map]
    exact List.map_congr_left fun w hw => by rw [hc.recs w (hsuccLt w hw), Function.comp]
  have hsources : (s'.pred i).map (fun e => PredSnapshot.mk (s'.recs e.source).id e.satisfied) =
      (s.pred (old hs i)).map fun e => PredSnapshot.mk (s.recs e.source).id e.satisfied := by
    rw [← hpred, List.map_map]
    exact List.map_congr_left fun e he => by rw [hc.recs e.source (hpredLt e he), Function.comp]
  simp only [snapshotNode, hc.recs i hlt, hc.ord i hlt, hc.deadline i hlt, hc.readyAt i hlt,
    hc.fifo i hlt, hids, hsources]

/-- A copy whose handles are in identifier order has the same snapshot. -/
theorem Copies.snapshotScope_eq
    (hsorted : hs.Pairwise fun a b => (s.recs a).id ≤ (s.recs b).id)
    (hnodes : s.snapshotScope.nodes = hs.map s.snapshotNode) :
    s'.snapshotScope = s.snapshotScope := by
  have hrange : (List.range hs.length).Pairwise fun a b => (s'.recs a).id ≤ (s'.recs b).id := by
    rw [List.pairwise_iff_getElem] at hsorted ⊢
    intro i j hi hj hij
    rw [List.length_range] at hi hj
    rw [List.getElem_range, List.getElem_range, hc.recs i hi, hc.recs j hj, old_eq hi, old_eq hj]
    exact hsorted i j hi hj hij
  have hsort : s'.sortedHandles = List.range hs.length := by
    rw [sortedHandles, hc.aliveHandles_eq]
    exact hrange.insertionSort_eq
  have hmap : s'.snapshotScope.nodes = s.snapshotScope.nodes := by
    rw [hnodes, snapshotScope_nodes, hsort]
    apply List.ext_getElem
    · simp
    intro i hi _
    have hlt : i < hs.length := by simpa using hi
    rw [List.getElem_map, List.getElem_map, List.getElem_range, hc.snapshotNode_eq hlt,
      old_eq hlt]
  simp only [snapshotScope, ScopeSnapshot.mk.injEq, hc.name, hc.cfg, hc.isSealed, hc.epochFloor,
    hc.nextOrd, hc.nextFifo, hc.cursor, hc.stats, true_and]
  exact hmap

end Copies

theorem sortedHandles_pairwise (s : Scope) :
    s.sortedHandles.Pairwise fun a b => (s.recs a).id ≤ (s.recs b).id := by
  have := List.pairwise_insertionSort (fun a b => (s.recs a).id ≤ (s.recs b).id) s.aliveHandles
  exact this

theorem snapshotScope_restored {s : Scope} (hi : s.Inv) (logCap : ℕ) :
    (s.restored logCap).snapshotScope = s.snapshotScope :=
  (restored_copies hi logCap).snapshotScope_eq s.sortedHandles_pairwise s.snapshotScope_nodes

end Scope

section Store

variable {st st' : Store} {defaults : ScopeConfig} {logCap : ℕ}

theorem restoreScopes_ok {cap : ℕ} {names : List String}
    (hinv : ∀ name s, st.scopes.lookup name = some s → s.Inv ∧ s.name = name)
    (hnames : "" ∉ names) (st₀ : Store) :
    ∃ st', Store.restoreScopes cap
      (names.filterMap fun name => (st.scopes.lookup name).map Scope.snapshotScope) st₀ =
        .ok st' := by
  induction names generalizing st₀ with
  | nil => exact ⟨st₀, rfl⟩
  | cons n names ih =>
    rw [List.mem_cons, not_or] at hnames
    cases hl : st.scopes.lookup n with
    | none =>
      rw [List.filterMap_cons_none (by simp [hl])]
      exact ih hnames.2 st₀
    | some s =>
      obtain ⟨hi, hname⟩ := hinv n s hl
      have hne : s.snapshotScope.name ≠ "" := by
        rw [show s.snapshotScope.name = n from hname]
        exact Ne.symm hnames.1
      rw [List.filterMap_cons_some (b := s.snapshotScope) (by simp [hl]), Store.restoreScopes,
        if_neg hne, Scope.restoreScope_eq hi]
      exact ih hnames.2 _

/-- A store without a nameless scope can be restored from its snapshot. -/
theorem restore_ok (hinv : ∀ name s, st.scopes.lookup name = some s → s.Inv ∧ s.name = name)
    (hname : st.scopes.lookup "" = none) (defaults : ScopeConfig) (logCap : ℕ) :
    ∃ st', Store.restore st.snapshot defaults logCap = .ok st' := by
  refine restoreScopes_ok hinv ?_ _
  rw [(List.perm_insertionSort _ _).mem_iff, ← AList.mem_keys, ← AList.lookup_isSome, hname]
  simp

theorem mem_scopes_iff_of_restore
    (hinv : ∀ name s, st.scopes.lookup name = some s → s.Inv ∧ s.name = name)
    (hok : Store.restore st.snapshot defaults logCap = .ok st') (name : String) :
    name ∈ st'.scopes ↔ name ∈ st.scopes := by
  rw [← AList.lookup_isSome, ← AList.lookup_isSome, restore_lookup hinv hok, Option.isSome_map]

theorem snapshot_restore
    (hinv : ∀ name s, st.scopes.lookup name = some s → s.Inv ∧ s.name = name)
    (hok : Store.restore st.snapshot defaults logCap = .ok st') :
    st'.snapshot = st.snapshot := by
  have hkeys : st'.scopes.keys.insertionSort (· ≤ ·) = st.scopes.keys.insertionSort (· ≤ ·) := by
    refine List.Perm.eq_of_pairwise (fun a b _ _ => String.le_antisymm)
      (List.pairwise_insertionSort _ _) (List.pairwise_insertionSort _ _) ?_
    refine ((List.perm_insertionSort _ _).trans ?_).trans (List.perm_insertionSort _ _).symm
    rw [List.perm_ext_iff_of_nodup st'.scopes.keys_nodup st.scopes.keys_nodup]
    intro name
    rw [← AList.mem_keys, ← AList.mem_keys, mem_scopes_iff_of_restore hinv hok]
  rw [Store.snapshot, Store.snapshot, hkeys]
  refine List.filterMap_congr fun name _ => ?_
  rw [restore_lookup hinv hok]
  cases hl : st.scopes.lookup name with
  | none => rfl
  | some s => exact congrArg some (Scope.snapshotScope_restored (hinv name s hl).1 _)

end Store

end DagWorker.Memory
