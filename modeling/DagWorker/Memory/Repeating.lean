import DagWorker.Memory.Runs

/-!
# A batch issued twice

`AddNodes` leaves its batch in the scope: the nodes match their specs, the dependencies are
linked, and what was touched is settled.  Every stage of a second call then finds its work
done, so the call announces nothing and returns the store it was given.
-/

namespace DagWorker.Memory

variable {out : List Effect}

namespace Scope

variable {s : Scope} {specs : List NodeSpec} {j : Journal}

theorem materialise_of_found {now : Int} {fresh : List ℕ}
    (h : ∀ spec ∈ specs, ∃ v, s.lookup spec.id = some v ∧ s.specMatches v spec) :
    materialise now specs s j fresh = (none, s, j, fresh) := by
  induction specs with
  | nil => rfl
  | cons spec specs ih =>
    obtain ⟨v, hv, hmatch⟩ := h spec (.head _)
    rw [materialise, hv]
    dsimp only
    rw [if_pos hmatch]
    exact ih fun sp hsp => h sp (.tail _ hsp)

/-- An edge that exists is skipped, whatever the phase of its target. -/
theorem linkDeps_of_linked {id : NodeID} {v : ℕ} {deps : List NodeID}
    (h : ∀ dep ∈ deps, ∃ u, s.lookup dep = some u ∧ s.hasEdge u v) :
    linkDeps id v deps s j = (none, s, j) := by
  induction deps with
  | nil => rfl
  | cons dep deps ih =>
    obtain ⟨u, hu, hedge⟩ := h dep (.head _)
    rw [linkDeps, hu]
    dsimp only
    rw [tryLink, if_pos hedge]
    exact ih fun d hd => h d (.tail _ hd)

theorem linkBatch_of_linked (touched : List ℕ)
    (h : ∀ spec ∈ specs, ∃ v, s.lookup spec.id = some v ∧
      ∀ dep ∈ spec.deps, ∃ u, s.lookup dep = some u ∧ s.hasEdge u v) :
    ∃ t, linkBatch specs s j touched = (none, s, j, t) ∧
      ∀ k ∈ t, k ∈ touched ∨ ∃ spec ∈ specs, s.lookup spec.id = some k := by
  induction specs generalizing touched with
  | nil => exact ⟨touched, rfl, fun k hk => .inl hk⟩
  | cons spec specs ih =>
    obtain ⟨v, hv, hdeps⟩ := h spec (.head _)
    obtain ⟨t, heq, ht⟩ := ih (addOnce touched v) fun sp hsp =>
      h sp (.tail _ hsp)
    refine ⟨t, ?_, fun k hk => ?_⟩
    · rw [linkBatch, hv]
      dsimp only [Option.getD_some]
      rw [linkDeps_of_linked hdeps]
      exact heq
    · rcases ht k hk with hk | ⟨sp, hsp, hk⟩
      · rcases mem_addOnce.mp hk with rfl | hk
        · exact .inr ⟨spec, .head _, hv⟩
        · exact .inl hk
      · exact .inr ⟨sp, .tail _ hsp, hk⟩

/-- A settled node is a fixed point of `settle`. -/
theorem settle_of_settled {v : ℕ} (halive : s.Alive v) (hopen : RuleOpen (s.recs v))
    (hmet : (s.recs v).phase = .ready → RuleMet (s.recs v)) : s.settle v out = pure (s, out) := by
  unfold settle
  cases hp : (s.recs v).phase with
  | blocked =>
    obtain ⟨hready, hlost⟩ := hopen halive hp
    simp [hp, hready, hlost]
  | ready =>
    have hready := hmet hp halive (by rw [hp]; rfl)
    have hlost : (s.recs v).deps.unsatisfiable (s.recs v).trigger = false := by
      by_contra h
      simp [DepCounts.not_ready_of_unsatisfiable (Bool.eq_true_of_not_eq_false h)] at hready
    simp [hp, hready, hlost]
  | scheduled => simp [hp]
  | claimed => simp [hp]
  | done => simp [hp]

theorem settleAll_of_settled {hs : List ℕ} (h : ∀ v ∈ hs, s.settle v out = pure (s, out)) :
    settleAll hs s out = pure (s, out) := by
  induction hs with
  | nil => rfl
  | cons v hs ih =>
    rw [settleAll, h v (.head _)]
    exact ih fun k hk => h k (List.mem_cons_of_mem v hk)

/-- A batch that is in the scope already changes nothing. -/
theorem Accepted.addNodes (h : Accepted s specs) (hi : s.Inv) :
    (s.addNodes specs).All fun r => r = ({}, s) := by
  unfold Scope.addNodes
  rw [if_neg (by simp [h.unsealed]), h.valid]
  simp only [Prog.all_bind, Prog.all_getNow]
  intro now
  rw [materialise_of_found fun sp hsp => (h.found sp hsp).imp fun v hv => ⟨hv.1, hv.2.1⟩]
  obtain ⟨t, heq, ht⟩ := linkBatch_of_linked (j := {}) []
    fun sp hsp => (h.found sp hsp).imp fun v hv => ⟨hv.1, hv.2.2.2.2⟩
  have hsettled : ∀ k ∈ t, s.settle k [] = pure (s, []) := by
    intro k hk
    obtain ⟨sp, hsp, hk⟩ := (ht k hk).resolve_left (by simp)
    obtain ⟨v, hv, -, hopen, hmet, -⟩ := h.found sp hsp
    obtain rfl := Option.mem_unique hv hk
    exact settle_of_settled (hi.indexed.alive_of_lookup hv) hopen hmet
  dsimp only
  rw [heq]
  dsimp only [recordCreated]
  rw [Prog.all_bind, Prog.pure_eq_ret, Prog.all_ret, Prog.all_bind, settleAll_of_settled hsettled]
  simp [h.complete]

end Scope

/-- `AddNodes` is idempotent: once it has succeeded, the same call succeeds again, without an
effect, and returns the very same store. -/
theorem addNodes_idempotent {st : Store} (hr : Reachable st) (name : String)
    (specs : List NodeSpec) :
    (st.addNodes name specs).All fun r => r.1.err = none →
      (r.2.addNodes name specs).All fun r' => r' = ({}, r.2) := by
  unfold Store.addNodes
  split
  · exact fun _ => rfl
  by_cases hclosed : st.closed = true
  · rw [Store.creating, if_pos hclosed]
    exact nofun
  refine Store.all_creating nofun fun s hs => ?_
  have hi := (hs.sound hr.sound).inv
  refine (Scope.addNodes_revises hi specs).mono fun x ⟨hrev, _, _, _, haccepted⟩ herr => ?_
  have hagain := (haccepted herr).1.addNodes (hi.path hrev.path)
  have hfinds : (st.setScope name x.2).scopes.lookup name = some x.2 :=
    AList.lookup_insert st.scopes
  rw [Store.creating, if_neg (by exact hclosed), hfinds]
  refine Store.all_onScope (hagain.mono fun x' heq => ?_)
  rw [heq]
  simp only [Store.setScope, AList.insert_insert]

/-- The rule of `a` cannot be satisfied, and it takes `b` along. -/
def doomedBatch : List NodeSpec :=
  [{ id := "a", trigger := .noneFailedMinOneSuccess }, { id := "b", deps := ["a"] }]

/-- Adding two nodes that terminate at once, again. -/
theorem doomedBatch_again : ∃ st r, Reachable st ∧
    Prog.Yields (st.addNodes "jobs" doomedBatch) r ∧ r.1.err = none ∧
    r.1.effects.map (·.toStatus) = [.new, .new, .error, .error] ∧
    (r.2.addNodes "jobs" doomedBatch).All fun r' => r' = ({}, r.2) := by
  obtain ⟨steps, st, hrun, hp⟩ := Trace.exists_run_of_execute exec [] (Store.new {} 0)
    (p := fun _ st => ((st.addNodes "jobs" doomedBatch).run (List.replicate 8 10) []).any
      fun r => r.1.err = none ∧ r.1.effects.map (·.toStatus) = [.new, .new, .error, .error])
    (by decide +kernel)
  have hr : Reachable st := ⟨{}, 0, steps, hrun⟩
  obtain ⟨r, hyields, hfacts⟩ := (Option.any_eq_true _ _).mp hp
  obtain ⟨herr, hstatus⟩ := of_decide_eq_true hfacts
  have hagain := (addNodes_idempotent hr "jobs" doomedBatch).of_yields
    (Prog.yields_of_run hyields)
  exact ⟨st, r, hr, Prog.yields_of_run hyields, herr, hstatus, hagain herr⟩

end DagWorker.Memory
