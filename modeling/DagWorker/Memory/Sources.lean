import DagWorker.Memory.Representation

/-!
# Nodes without predecessors

A node that no edge leads to is settled on an empty tally.  Four of the five rules are
satisfied by it.  `noneFailedMinOneSuccess` wants a success among predecessors that do not
exist, which can never come about, so that `settle` terminates such a node.
-/

namespace DagWorker.Memory

namespace Scope

variable {s s₁ s' : Scope} {T : Set ℕ} {es : List Effect} {v : ℕ}

/-- A node that has lost its last edge between `s` and `s₁` is among those settled then. -/
theorem Settles.freed_ready_iff (hs : Settles s₁ T es s') (hi : s.Inv) (hi₁ : s₁.Inv)
    (hsame : v ∉ T → s₁.recs v = s.recs v) (hdeps : ∃ d, s₁.recs v = { s.recs v with deps := d })
    (hp : (s.recs v).phase = .blocked ∨ (s.recs v).phase = .ready) (hsome : s.pred v ≠ [])
    (hnone : s'.pred v = []) :
    (s'.recs v).phase = .ready ↔ (s.recs v).trigger ≠ .noneFailedMinOneSuccess := by
  obtain ⟨d, hd⟩ := hdeps
  have hv : v ∈ T := by
    by_contra hv
    rw [(hi₁.path hs.path).pred_eq_nil_iff, hs.cascades.succ, ← hi₁.pred_eq_nil_iff,
      ← hi₁.deps_eq_empty_iff, hsame hv, hi.deps_eq_empty_iff] at hnone
    exact hsome hnone
  have halive : s₁.Alive v := by
    rw [Alive, hd]
    by_contra hdead
    exact hsome (hi.mirrored.dead_pred v hdead)
  have hready := hs.ready_iff hi₁ hv halive hnone (by rwa [hd])
  rwa [hd] at hready

/-- `RemoveEdges` settles the nodes it has freed, unless it fails. -/
theorem removeEdges_freed (hi : s.Inv) (edges : List Edge) :
    (s.removeEdges edges).All fun r => ∀ v,
      (s.recs v).phase = .blocked ∨ (s.recs v).phase = .ready → s.pred v ≠ [] →
      r.2.pred v = [] → ((r.2.recs v).phase = .ready ↔
        if s.knownPrefix edges = edges then (s.recs v).trigger ≠ .noneFailedMinOneSuccess
        else (s.recs v).phase = .ready) := by
  obtain ⟨err, s₁, t, heq, he, -, ht, -, herr⟩ := unlinkEdgeList_edited edges [] hi
  have hi₁ := hi.path he.path
  rw [removeEdges, heq]
  cases err with
  | some e =>
    intro v _ _ _
    rw [if_neg fun h => by simpa using herr.mpr h, he.phase]
  | none =>
    rw [Prog.all_bind]
    refine (settleAll_settles hi₁ fun k hk => ?_).mono ?_
    · exact (he.alive k).mpr ((ht k hk).resolve_left (by simp))
    · rintro r ⟨es, -, hs, -⟩ v hp hsome hnone
      rw [if_pos (herr.mp rfl)]
      exact hs.freed_ready_iff hi hi₁ (he.same v) (he.deps v) hp hsome hnone

/-- `RemoveNode` settles the nodes it has freed under `detach`. -/
theorem removeNode_freed (hi : s.Inv) (id : NodeID) :
    (s.removeNode id .detach).All fun r => ∀ v,
      (s.recs v).phase = .blocked ∨ (s.recs v).phase = .ready → s.pred v ≠ [] →
      r.2.Alive v → r.2.pred v = [] →
      ((r.2.recs v).phase = .ready ↔ (s.recs v).trigger ≠ .noneFailedMinOneSuccess) := by
  unfold removeNode
  split
  · exact fun v _ hsome _ hnone => absurd hnone hsome
  rename_i h hlook
  have hh := hi.indexed.alive_of_lookup hlook
  obtain rfl := hi.indexed.id_of_lookup hlook
  split
  · exact fun v _ hsome _ hnone => absurd hnone hsome
  have hpath := removed_path hi hh
  rw [ite_self, detachAndDelete_eq, if_pos rfl, Prog.all_bind]
  refine (settleAll_settles (hi.path hpath) fun w hw => ?_).mono ?_
  · exact (removed_alive (ne_of_mem_succ hi hw)).mpr (hi.mirrored.alive_target hw)
  rintro r ⟨es, -, hs, -⟩ v hp hsome halive hnone
  have he := isolated_edited s h
  have hvh : v ≠ h := by
    rintro rfl
    simp [Alive, hs.cascades.alive, removed_recs] at halive
  refine hs.freed_ready_iff hi (hi.path hpath) (fun hv => ?_) ?_ hp hsome hnone
  · rw [removed_recs, Function.update_of_ne hvh]
    exact he.same v fun hmem => hmem.elim hv hvh
  · rw [removed_recs, Function.update_of_ne hvh]
    exact he.deps v

end Scope

/-- A new node without dependencies, and a waiting node whose last predecessor edge is
dropped, are claimable afterwards exactly when the rule is not `noneFailedMinOneSuccess`.  A
`RemoveEdges` that fails does not settle what it has freed. -/
theorem source_ready_iff {st : Store} (hr : Reachable st) {name : String} {s : Scope}
    (hs : st.Finds name s) :
    (∀ specs, (s.addNodes specs).All fun r => r.1.err = none → ∀ spec ∈ specs,
      spec.deps = [] → s.lookup spec.id = none → ∃ v, r.2.lookup spec.id = some v ∧
        ((r.2.recs v).phase = .ready ↔ spec.trigger ≠ .noneFailedMinOneSuccess)) ∧
    (∀ edges, (s.removeEdges edges).All fun r => ∀ v,
      (s.recs v).phase = .blocked ∨ (s.recs v).phase = .ready → s.pred v ≠ [] →
      r.2.pred v = [] → ((r.2.recs v).phase = .ready ↔
        if s.knownPrefix edges = edges then (s.recs v).trigger ≠ .noneFailedMinOneSuccess
        else (s.recs v).phase = .ready)) ∧
    ∀ id, (s.removeNode id .detach).All fun r => ∀ v,
      (s.recs v).phase = .blocked ∨ (s.recs v).phase = .ready → s.pred v ≠ [] →
      r.2.Alive v → r.2.pred v = [] →
      ((r.2.recs v).phase = .ready ↔ (s.recs v).trigger ≠ .noneFailedMinOneSuccess) := by
  have hi := (hs.sound hr.sound).inv
  exact ⟨fun specs => (Scope.addNodes_revises hi specs).mono fun r ⟨_, _, _, _, hstarts⟩ herr =>
    (hstarts herr).2, Scope.removeEdges_freed hi, Scope.removeNode_freed hi⟩

/-- The edge that `c` was waiting for is dropped. -/
theorem chain_freed_ready : ∃ st s r, Reachable st ∧ st.scopes.lookup "jobs" = some s ∧
    Prog.Yields (s.removeEdges [⟨"b", "c"⟩]) r ∧ (s.recs 2).phase = .blocked ∧
    s.pred 2 ≠ [] ∧ r.2.pred 2 = [] ∧ (r.2.recs 2).phase = .ready := by
  obtain ⟨st, s, hr, hl, hp⟩ := exists_jobs chainCalls
    (p := fun s => ((s.removeEdges [⟨"b", "c"⟩]).run (List.replicate 4 40) []).any fun r =>
      (s.recs 2).phase = .blocked ∧ s.pred 2 ≠ [] ∧ r.2.pred 2 = [] ∧
        s.knownPrefix [⟨"b", "c"⟩] = [⟨"b", "c"⟩] ∧
        (s.recs 2).trigger ≠ .noneFailedMinOneSuccess) (by decide +kernel)
  obtain ⟨r, hrun, hfacts⟩ := (Option.any_eq_true _ _).mp hp
  obtain ⟨hblocked, hsome, hnone, hknown, hrule⟩ := of_decide_eq_true hfacts
  have hyields := Prog.yields_of_run hrun
  refine ⟨st, s, r, hr, hl, hyields, hblocked, hsome, hnone, ?_⟩
  rw [((source_ready_iff hr (.inl hl)).2.1 _).of_yields hyields 2 (.inl hblocked) hsome hnone,
    if_pos hknown]
  exact hrule

/-- A node with no dependencies at all terminates as it is created. -/
theorem lonely_terminated : ∃ st s r, Reachable st ∧ st.scopes.lookup "jobs" = some s ∧
    Prog.Yields (s.addNodes [{ id := "x", trigger := .noneFailedMinOneSuccess }]) r ∧
    r.1.err = none ∧ r.2.lookup "x" = some 3 ∧ (r.2.recs 3).phase = .done ∧
    (r.2.recs 3).status = .error ∧ (r.2.recs 3).reason = .skipped := by
  obtain ⟨st, s, hr, hl, hp⟩ := exists_jobs chainCalls
    (p := fun s => ((s.addNodes [{ id := "x", trigger := .noneFailedMinOneSuccess }]).run
      (List.replicate 4 40) []).any fun r => r.1.err = none ∧ r.2.lookup "x" = some 3 ∧
        (r.2.recs 3).phase = .done ∧ (r.2.recs 3).status = .error ∧
        (r.2.recs 3).reason = .skipped) (by decide +kernel)
  obtain ⟨r, hrun, hfacts⟩ := (Option.any_eq_true _ _).mp hp
  exact ⟨st, s, r, hr, hl, Prog.yields_of_run hrun, of_decide_eq_true hfacts⟩

end DagWorker.Memory
