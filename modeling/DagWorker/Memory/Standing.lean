import DagWorker.Memory.Representation
import DagWorker.Memory.RoundTrip

/-!
# What every reachable store stands by

Its snapshot can be restored and is the snapshot of what it restores to, and a termination
leaves nothing behind.
-/

namespace DagWorker.Memory

variable {st : Store}

/-- The snapshot of a reachable store restores to a store with the same snapshot, whose
scopes satisfy the invariants: ranks, insertion stamps and counters included. -/
theorem reachable_snapshot_stable (hr : Reachable st) (hname : st.scopes.lookup "" = none)
    (defaults : ScopeConfig) (logCap : ℕ) :
    ∃ st', Store.restore st.snapshot defaults logCap = .ok st' ∧ st'.snapshot = st.snapshot ∧
      ∀ name s, st'.scopes.lookup name = some s → s.Sound name := by
  have hinv : ∀ name s, st.scopes.lookup name = some s → s.Inv ∧ s.name = name :=
    fun name s hl => ⟨(hr.sound name s hl).inv, (hr.sound name s hl).name_eq⟩
  obtain ⟨st', hok⟩ := restore_ok hinv hname defaults logCap
  refine ⟨st', hok, snapshot_restore hinv hok, fun name s' hl => ?_⟩
  rw [restore_lookup hinv hok] at hl
  obtain ⟨s, hs, rfl⟩ := Option.map_eq_some_iff.mp hl
  exact (hr.sound name s hs).copies (Scope.restored_copies (hinv name s hs).1 _)

theorem exists_chain : ∃ st s, Reachable st ∧ st.scopes.lookup "" = none ∧
    st.scopes.lookup "jobs" = some s ∧ s.Alive 1 := by
  obtain ⟨steps, st, hrun, hp⟩ := Trace.exists_run_of_execute exec chainCalls (Store.new {} 0)
    (p := fun _ st => (st.scopes.lookup "").isNone &&
      (st.scopes.lookup "jobs").any fun s => (s.recs 1).alive) (by decide +kernel)
  rw [Bool.and_eq_true, Option.isNone_iff_eq_none] at hp
  obtain ⟨s, hl, ha⟩ := (Option.any_eq_true _ _).mp hp.2
  exact ⟨st, s, ⟨{}, 0, steps, hrun⟩, hp.1, hl, ha⟩

theorem chain_snapshot_stable : ∃ st st' : Store, (st.scopes.lookup "jobs").isSome ∧
    Store.restore st.snapshot {} 0 = .ok st' ∧ st'.snapshot = st.snapshot := by
  obtain ⟨st, s, hr, hname, hl, -⟩ := exists_chain
  obtain ⟨st', hok, hsame, -⟩ := reachable_snapshot_stable hr hname {} 0
  exact ⟨st, st', Option.isSome_of_eq_some hl, hok, hsame⟩

/-- A termination of any live node, to whatever status and at whatever time, ends with the
node done.  It keeps the invariants, the ends of other nodes, and the rules that were
undecided or satisfied. -/
theorem reachable_terminate_drains (hr : Reachable st) {name : String} {s : Scope}
    (hl : st.scopes.lookup name = some s) {h : ℕ} (ha : s.Alive h) {status : Status}
    (hst : status.terminal = true) (reason : Reason) (msg : String) (out : List Effect) :
    (s.terminate h status reason msg out).All fun r =>
      r.1.Sound name ∧ (r.1.recs h).phase = .done ∧
      (∀ v, (s.recs v).phase = .done → (r.1.recs v).phase = .done ∧
        (r.1.recs v).status = (s.recs v).status ∧ (r.1.recs v).reason = (s.recs v).reason) ∧
      ∀ v, (Scope.RuleOpen (s.recs v) → Scope.RuleOpen (r.1.recs v)) ∧
        (Scope.RuleMet (s.recs v) → Scope.RuleMet (r.1.recs v)) := by
  have hs := hr.sound name s hl
  refine (Scope.terminate_drains hs.inv hst).mono fun r hdrains => ?_
  obtain ⟨es, -, hd, -⟩ := hdrains
  refine ⟨⟨hs.inv.path hd.path, hd.path.name.trans hs.name_eq, hd.flagged hs.flagged⟩,
    hd.finished _ (.head _) ha, hd.cascades.done, fun v => ⟨fun h => ?_, hd.heldOK v⟩⟩
  exact hd.settled v (.inl h)

theorem chain_terminate_drains : ∃ st s, Reachable st ∧ st.scopes.lookup "jobs" = some s ∧
    (s.terminate 1 .error .workerError "" []).All fun r => (r.1.recs 1).phase = .done := by
  obtain ⟨st, s, hr, -, hl, ha⟩ := exists_chain
  have hst : Status.error.terminal = true := rfl
  have hdrains := reachable_terminate_drains hr hl ha hst .workerError "" []
  exact ⟨st, s, hr, hl, hdrains.mono fun r h => h.2.1⟩

end DagWorker.Memory
