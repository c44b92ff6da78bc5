import DagWorker.Memory.Runs

/-!
# The state of a scope in every reachable store

What the invariants say about the fields of a scope after any run: its edges and
tallies, its index, queues and counters, and its topological order.
-/

namespace DagWorker.Memory

/-! ## A run of three nodes -/

/-- A chain of three nodes, the first of which is claimed and completed. -/
def chainCalls : List Call :=
  [{ input := .addNodes "jobs" [{ id := "a" }, { id := "b", deps := ["a"] },
      { id := "c", deps := ["b"] }], clock := [10, 11, 12, 13, 14] },
   { input := .claim { scope := "jobs" }, clock := [20, 21] },
   { input := .complete { lease := { scope := "jobs", nodeID := "a", epoch := 1 }, success := true },
     clock := [30, 31, 32, 33] }]

/-- What a run of calls leaves in the scope is reachable. -/
theorem exists_jobs (calls : List Call) {p : Scope → Bool}
    (h : (Trace.execute exec calls (Store.new {} 0)).any
      (fun r => (r.2.scopes.lookup "jobs").any p) = true) :
    ∃ st s, Reachable st ∧ st.scopes.lookup "jobs" = some s ∧ p s = true := by
  obtain ⟨steps, st, hrun, hp⟩ :=
    Trace.exists_run_of_execute exec _ _ (p := fun _ st => (st.scopes.lookup "jobs").any p) h
  cases hl : st.scopes.lookup "jobs" with
  | none => simp [hl] at hp
  | some s =>
    rw [hl, Option.any_some] at hp
    exact ⟨st, s, ⟨{}, 0, steps, hrun⟩, hl, hp⟩

/-! ## Edges and tallies -/

namespace Scope

/-- The two edge lists mirror each other, and the marks and tallies on them are
those of the predecessors' present states. -/
structure EdgesExact (s : Scope) : Prop where
  live : ∀ u v, v ∈ s.succ u ∨ u ∈ s.sources v → s.Alive u ∧ s.Alive v
  succ_nodup : ∀ h, (s.succ h).Nodup
  pred_nodup : ∀ h, (s.sources h).Nodup
  mirror : ∀ u v, u ∈ s.sources v ↔ v ∈ s.succ u
  satisfied_iff : ∀ v, ∀ e ∈ s.pred v, e.satisfied = true ↔ (s.recs e.source).phase = .done
  unsatisfied_eq : ∀ v, (s.recs v).deps.unsatisfied =
    (s.sources v).countP fun u => !(s.recs u).status.terminal
  succeeded_eq : ∀ v, (s.recs v).deps.succeeded =
    (s.sources v).countP fun u => (s.recs u).status = .success
  skipped_eq : ∀ v, (s.recs v).deps.skipped =
    (s.sources v).countP fun u => (s.recs u).status = .error ∧ (s.recs u).reason = .skipped
  failed_eq : ∀ v, (s.recs v).deps.failed =
    (s.sources v).countP fun u => (s.recs u).status = .error ∧ (s.recs u).reason ≠ .skipped
  suppressed_eq : s.suppressed = 0

variable {s : Scope}

theorem Inv.terminal_iff (hi : s.Inv) (h : ℕ) :
    (s.recs h).status.terminal = true ↔ (s.recs h).phase = .done := by
  have hfit := hi.fitted h
  revert hfit
  cases (s.recs h).phase <;> cases (s.recs h).status <;> simp [fits, Status.terminal]

theorem satisfied_iff_done (hi : s.Inv) (hf : s.Flagged) {v : ℕ} {e : PredEdge}
    (he : e ∈ s.pred v) : e.satisfied = true ↔ (s.recs e.source).phase = .done :=
  ⟨hi.tallied.satisfied_done v e he, hf v e he⟩

/-- A count is the number of predecessors whose record belongs to it. -/
theorem count_eq_countP (hi : s.Inv) (hf : s.Flagged) (v : ℕ) {o : DepCounts.Outcome}
    {p : NodeRec → Bool} (hp : ∀ r, edgeOutcome r.status.terminal r = o ↔ p r = true) :
    (s.recs v).deps.count o = (s.sources v).countP fun u => p (s.recs u) := by
  rw [hi.tallied.count_eq, tally, sources, List.countP_map]
  refine List.countP_congr fun e he => ?_
  have hsat : e.satisfied = (s.recs e.source).status.terminal := by
    rw [Bool.eq_iff_iff, satisfied_iff_done hi hf he, hi.terminal_iff]
  simp only [decide_eq_true_eq, Function.comp_apply]
  rw [hsat, hp]

theorem edgesExact_of_inv (hi : s.Inv) (hf : s.Flagged) : s.EdgesExact where
  live := by
    rintro u v (huv | huv)
    · exact ⟨hi.mirrored.alive_of_mem_succ huv, hi.mirrored.alive_target huv⟩
    · exact ⟨hi.mirrored.alive_source huv, hi.mirrored.alive_of_mem_sources huv⟩
  succ_nodup := hi.mirrored.succ_nodup
  pred_nodup := hi.mirrored.sources_nodup
  mirror := fun u v => (hi.mirrored.mem_succ u v).symm
  satisfied_iff := fun _ _ he => satisfied_iff_done hi hf he
  unsatisfied_eq := fun v =>
    count_eq_countP hi hf v (o := .unsatisfied) (p := fun r => !r.status.terminal) fun r => by
      cases hr : r.status.terminal <;> simp [DepCounts.Outcome.ofTerminal_ne_unsatisfied]
  succeeded_eq := fun v =>
    count_eq_countP hi hf v (o := .succeeded) (p := fun r => r.status = .success) fun r => by
      cases hr : r.status <;> by_cases hk : r.reason = .skipped <;>
        simp [edgeOutcome, Status.terminal, DepCounts.Outcome.ofTerminal, hr, hk]
  skipped_eq := fun v =>
    count_eq_countP hi hf v (o := .skipped)
      (p := fun r => r.status = .error ∧ r.reason = .skipped) fun r => by
      cases hr : r.status <;> by_cases hk : r.reason = .skipped <;>
        simp [edgeOutcome, Status.terminal, DepCounts.Outcome.ofTerminal, hr, hk]
  failed_eq := fun v =>
    count_eq_countP hi hf v (o := .failed)
      (p := fun r => r.status = .error ∧ r.reason ≠ .skipped) fun r => by
      cases hr : r.status <;> by_cases hk : r.reason = .skipped <;>
        simp [edgeOutcome, Status.terminal, DepCounts.Outcome.ofTerminal, hr, hk]
  suppressed_eq := hi.tallied.suppressed_eq

end Scope

/-- In every reachable store the edges mirror each other, the tallies are exact,
and no guard has ever skipped a decrement. -/
theorem reachable_edgesExact {st : Store} (hr : Reachable st) {name : String} {s : Scope}
    (hl : st.scopes.lookup name = some s) : s.EdgesExact :=
  have hs := hr.sound name s hl
  Scope.edgesExact_of_inv hs.inv hs.flagged

/-- The tallies of a chain whose first node has succeeded. -/
theorem chain_edgesExact : ∃ st s, Reachable st ∧ st.scopes.lookup "jobs" = some s ∧
    ((s.recs 1).deps.succeeded = 1 ∧ (s.recs 2).deps.unsatisfied = 1) ∧ s.EdgesExact := by
  obtain ⟨st, s, hr, hl, hp⟩ := exists_jobs chainCalls
    (p := fun s => (s.recs 1).deps.succeeded = 1 ∧ (s.recs 2).deps.unsatisfied = 1)
    (by decide +kernel)
  exact ⟨st, s, hr, hl, of_decide_eq_true hp, reachable_edgesExact hr hl⟩

/-! ## Index, queues and counters -/

namespace Scope

/-- The index, the free list, the queues, the statuses and the counters of a scope
all agree with the phases of its live nodes. -/
structure Represented (s : Scope) : Prop where
  lookup_alive : ∀ id h, s.lookup id = some h → s.Alive h
  alive_lookup : ∀ h, s.Alive h → ∃! id, s.lookup id = some h
  free_nodup : s.free.Nodup
  alive_or_free : ∀ h, h < s.size ↔ s.Alive h ∨ h ∈ s.free
  not_alive_and_free : ∀ h, ¬ (s.Alive h ∧ h ∈ s.free)
  ready_iff : ∀ kind h, (s.readyHeap kind).contains h = true ↔
    s.Alive h ∧ (s.recs h).phase = .ready ∧ (s.recs h).kind = kind
  leases_iff : ∀ h, s.leases.contains h = true ↔ s.Alive h ∧ (s.recs h).phase = .claimed
  scheduled_iff : ∀ h, s.scheduled.contains h = true ↔
    s.Alive h ∧ (s.recs h).phase = .scheduled
  heaps : s.leases.Consistent ∧ s.scheduled.Consistent ∧
    ∀ kind, (s.readyHeap kind).Consistent
  status_new : ∀ h, s.Alive h →
    ((s.recs h).phase = .blocked ∨ (s.recs h).phase = .scheduled ∨ (s.recs h).phase = .ready) →
      (s.recs h).status = .new
  status_inProgress : ∀ h, s.Alive h → (s.recs h).phase = .claimed →
    (s.recs h).status = .inProgress
  status_done : ∀ h, s.Alive h → (s.recs h).phase = .done →
    (s.recs h).status = .success ∨ (s.recs h).status = .error
  counters : ∀ b, counter s.stats b =
    (((Finset.range s.size).filter fun h => s.Alive h ∧ bucket (s.recs h) = b).card : ℕ)
  total_eq : s.stats.total = s.stats.blocked + s.stats.scheduled + s.stats.ready +
    s.stats.inProgress + s.stats.succeeded + s.stats.failed

variable {s : Scope}

theorem represented_of_inv (hi : s.Inv) : s.Represented where
  lookup_alive := fun _ _ hl => hi.indexed.alive_of_lookup hl
  alive_lookup := fun h hh =>
    ⟨(s.recs h).id, hi.indexed.lookup_id hh, fun _ hl => (hi.indexed.id_of_lookup hl).symm⟩
  free_nodup := hi.indexed.free_nodup
  alive_or_free := by
    intro h
    rw [hi.indexed.mem_free]
    by_cases hh : s.Alive h
    · exact iff_of_true (hi.indexed.lt_size h hh) (.inl hh)
    · simp [hh]
  not_alive_and_free := fun h hh => ((hi.indexed.mem_free h).mp hh.2).2 hh.1
  ready_iff := by
    intro kind h
    rw [(hi.queued.readyHeap kind).contains_eq]
    simp [readyOf, inPhase, and_assoc]
  leases_iff := by
    intro h
    rw [hi.queued.leases.contains_eq]
    simp [inPhase]
  scheduled_iff := by
    intro h
    rw [hi.queued.scheduled.contains_eq]
    simp [inPhase]
  heaps := ⟨hi.queued.leases.consistent, hi.queued.scheduled.consistent,
    fun kind => (hi.queued.readyHeap kind).consistent⟩
  status_new := by
    intro h _ hp
    have hfit := hi.fitted h
    rcases hp with hp | hp | hp <;> simpa [hp, fits] using hfit
  status_inProgress := by
    intro h _ hp
    have hfit := hi.fitted h
    simpa [hp, fits] using hfit
  status_done := by
    intro h _ hp
    have hfit := hi.fitted h
    simpa [hp, fits, Status.terminal] using hfit
  counters := by
    intro b
    rw [hi.counted.counter_eq, Count.slots]
    simp [inBucket]
  total_eq := hi.counted.total_eq

end Scope

/-- In every reachable store the index, the queues and the counters of a scope
are exact. -/
theorem reachable_represented {st : Store} (hr : Reachable st) {name : String} {s : Scope}
    (hl : st.scopes.lookup name = some s) : s.Represented :=
  Scope.represented_of_inv (hr.sound name s hl).inv

/-- The counters of the same chain. -/
theorem chain_represented : ∃ st s, Reachable st ∧ st.scopes.lookup "jobs" = some s ∧
    (s.stats.succeeded = 1 ∧ s.stats.ready = 1 ∧ s.stats.blocked = 1) ∧ s.Represented := by
  obtain ⟨st, s, hr, hl, hp⟩ := exists_jobs chainCalls
    (p := fun s => s.stats.succeeded = 1 ∧ s.stats.ready = 1 ∧ s.stats.blocked = 1)
    (by decide +kernel)
  exact ⟨st, s, hr, hl, of_decide_eq_true hp, reachable_represented hr hl⟩

/-! ## Order -/

namespace Scope

/-- The ranks of the live nodes are a topological order of a graph without
cycles. -/
structure Acyclic (s : Scope) : Prop where
  ord_inj : ∀ u v, s.Alive u → s.Alive v → s.ord u = s.ord v → u = v
  ord_le : ∀ u, s.Alive u → s.ord u ≤ s.nextOrd
  ord_lt : ∀ u v, v ∈ s.succ u → s.ord u < s.ord v
  no_cycle : ∀ u, ¬ Relation.TransGen (fun a b => b ∈ s.succ a) u u

variable {s : Scope}

theorem ord_lt_of_transGen (hr : s.Ranked) {u v : ℕ}
    (huv : Relation.TransGen (fun a b => b ∈ s.succ a) u v) : s.ord u < s.ord v := by
  induction huv with
  | single hab => exact hr.edge _ _ hab
  | tail _ hbc ih => exact ih.trans (hr.edge _ _ hbc)

theorem acyclic_of_inv (hi : s.Inv) : s.Acyclic where
  ord_inj := hi.ranked.inj
  ord_le := hi.ranked.le
  ord_lt := hi.ranked.edge
  no_cycle := fun _ huu => lt_irrefl _ (ord_lt_of_transGen hi.ranked huu)

end Scope

/-- In every reachable store the ranks order the graph, which has no cycle. -/
theorem reachable_acyclic {st : Store} (hr : Reachable st) {name : String} {s : Scope}
    (hl : st.scopes.lookup name = some s) : s.Acyclic :=
  Scope.acyclic_of_inv (hr.sound name s hl).inv

/-- The edges of the same chain. -/
theorem chain_acyclic : ∃ st s, Reachable st ∧ st.scopes.lookup "jobs" = some s ∧
    (s.succ 0 = [1] ∧ s.succ 1 = [2]) ∧ s.Acyclic := by
  obtain ⟨st, s, hr, hl, hp⟩ := exists_jobs chainCalls
    (p := fun s => s.succ 0 = [1] ∧ s.succ 1 = [2]) (by decide +kernel)
  exact ⟨st, s, hr, hl, of_decide_eq_true hp, reachable_acyclic hr hl⟩

end DagWorker.Memory
