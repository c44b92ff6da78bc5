import DagWorker.Redis.Edits

/-!
# Graph integrity

Every script but one keeps the two halves of an edge in step and mentions only nodes that
exist; `scriptCollectIfEligible` deletes a node without taking it out of the successor sets
of its predecessors.
-/

namespace DagWorker.Redis

open Function

variable {s : State} {cutoffMs : Int}

namespace State

/-- The edges name existing nodes and are stored on both sides; an identifier without a
node has no edges, so that it starts with none when it is created again. -/
structure Intact (s : State) : Prop where
  mirrored : ∀ u v, v ∈ s.succ u ↔ u ∈ (s.pred v).keys
  succ_exists : ∀ u v, v ∈ s.succ u → s.has v = true
  pred_exists : ∀ u v, u ∈ (s.pred v).keys → s.has u = true
  bare : ∀ id, s.has id = false → s.succ id = [] ∧ (s.pred id).keys = []

theorem Wired.intact (h : s.Wired) : s.Intact where
  mirrored u v := (h.mirrored u v).trans (s.hasEdge_iff u v)
  succ_exists u v hv := (h.exist u v ((h.mirrored u v).mp hv)).2
  pred_exists u v hu := (h.exist u v ((s.hasEdge_iff u v).mpr hu)).1
  bare id hid := by
    refine ⟨List.eq_nil_iff_forall_not_mem.mpr fun v hv => ?_,
      List.eq_nil_iff_forall_not_mem.mpr fun u hu => ?_⟩
    · have := (h.exist id v ((h.mirrored id v).mp hv)).1
      simp [hid] at this
    · have := (h.exist u id ((s.hasEdge_iff u id).mpr hu)).2
      simp [hid] at this

/-! ## Claiming and collecting -/

theorem sameGraph_grant (s : State) (kind : String) (id : NodeID) (n : NodeHash)
    (args : ClaimArgs) (nowMs : Int) : SameGraph s (s.grant kind id n args nowMs) := by
  obtain ⟨mid, hmid, hgrant⟩ := s.grant_spec kind id n args nowMs
  refine (hmid.sameGraph.trans ⟨fun x => ?_, by simp, fun u v => by simp [hasEdge]⟩).trans
    hgrant.sameGraph
  rw [has, has, node_modNode]
  split
  · next hx => simp [hx]
  · rfl

theorem sameGraph_claimLoop (args : ClaimArgs) (kinds : List String) (nowMs : Int) (left : ℕ)
    (s : State) (rows : List LeaseRow) :
    SameGraph s (claimLoop args kinds nowMs left s rows).2 := by
  induction left generalizing s rows with
  | zero => exact SameGraph.refl s
  | succ left ih =>
    simp only [claimLoop]
    split
    · exact SameGraph.refl s
    split
    · exact SameGraph.refl s
    · split
      · exact SameGraph.refl s
      · exact (sameGraph_grant s _ _ _ args nowMs).trans (ih _ _)

theorem claim_wired (hs : s.Wired) (args : ClaimArgs) : (s.claim args).All fun r => r.2.Wired := by
  intro nowMs
  refine quiet_reclaimExpired.bind fun r hr => ?_
  refine Prog.All.bind (Prog.all_of_forall (P := fun _ => True) (fun _ => trivial) _)
    fun kinds _ => ?_
  exact ((hr.trans quiet_promoteScheduled).sameGraph.trans
    (sameGraph_claimLoop args kinds nowMs _ _ [])).wired hs

theorem collectIfEligible_wired (hs : s.Wired) {id : NodeID}
    (hpred : s.Eligible id cutoffMs → (s.pred id).keys = []) :
    (s.collectIfEligible id cutoffMs).2.Wired := by
  rcases s.collectIfEligible_cases id cutoffMs with ⟨n, -, hel, h⟩ | ⟨-, h⟩
  · rw [h]
    have hq : Quiet s ((s.adjustBucket .done n.status (-1)).adjustTotal (-1)) :=
      quiet_adjustBucket.trans quiet_adjustTotal
    have ⟨_, _, _, _, hsucc⟩ := hel
    refine (hq.sameGraph.wired hs).delKeys (fun u => ?_) fun v => ?_
    · rw [hq.edge, ← Bool.not_eq_true, s.hasEdge_iff, hpred hel]
      simp
    · rw [hq.edge, ← Bool.not_eq_true, ← hs.mirrored, hsucc]
      simp
  · rwa [h]

/-- Deleting a node that has a predecessor leaves it in a successor set. -/
theorem not_intact_of_collect (hs : s.Intact) {id : NodeID} (hel : s.Eligible id cutoffMs)
    {u : NodeID} (hu : u ∈ (s.pred id).keys) : ¬(s.collectIfEligible id cutoffMs).2.Intact := by
  rcases s.collectIfEligible_cases id cutoffMs with ⟨n, -, -, h⟩ | ⟨hne, -⟩
  · intro hafter
    rw [h] at hafter
    have hmem : id ∈ s.succ u := (hs.mirrored u id).mpr hu
    have hune : u ≠ id := by
      rintro rfl
      obtain ⟨-, -, -, -, hsucc⟩ := hel
      simp [hsucc] at hmem
    have hleft :
        id ∈ (((s.adjustBucket .done n.status (-1)).adjustTotal (-1)).delKeys id).succ u := by
      simpa [delKeys, hune, adjustBucket, adjustTotal] using hmem
    have hgone := hafter.succ_exists u id hleft
    simp [delKeys_has] at hgone
  · exact absurd hel hne

end State

/-! ## Whole runs -/

/-- A collection that deletes a node finds it without predecessors. -/
def Unhooked (r : StepRecord) : Prop :=
  ∀ id cutoffMs, r.call = .collectIfEligible id cutoffMs → r.before.Eligible id cutoffMs →
    (r.before.pred id).keys = []

/-- Every script but a collection keeps the graph intact, and a collection does if it
finds its node without predecessors. -/
theorem exec_wired (hs : s.Wired) (c : Script)
    (hcollect : ∀ id cutoffMs, c = .collectIfEligible id cutoffMs → s.Eligible id cutoffMs →
      (s.pred id).keys = []) : (c.exec s).All fun r => r.2.Wired := by
  by_cases hc : ∃ id cutoffMs, c = .collectIfEligible id cutoffMs
  · obtain ⟨id, cutoffMs, rfl⟩ := hc
    exact State.collectIfEligible_wired hs (hcollect id cutoffMs rfl)
  by_cases hclaim : ∃ args, c = .claim args
  · obtain ⟨args, rfl⟩ := hclaim
    exact State.claim_wired hs args
  · refine (exec_change s c (fun id cutoffMs h => hc ⟨id, cutoffMs, h⟩)
      fun args h => hclaim ⟨args, h⟩).mono fun r hr => ?_
    exact hr.wired hs

theorem fresh_wired (cfg : Cfg) : (State.fresh cfg).Wired :=
  ⟨fun u v => by simp [State.fresh, State.hasEdge],
    fun u v huv => by simp [State.fresh, State.hasEdge] at huv⟩

/-- The graph is intact in every state of a run exactly when every collection finds the
node it deletes without predecessors. -/
theorem run_intact_iff {cfg : Cfg} {steps : List StepRecord} {s : State}
    (hrun : Run (State.fresh cfg) steps s) :
    (∀ r ∈ steps, r.after.Intact) ↔ ∀ r ∈ steps, Unhooked r := by
  constructor
  · intro hintact r hr id cutoffMs hcall hel
    obtain ⟨pre, post, rfl, hpre, hv⟩ := hrun.prefix_of_mem hr
    have hbefore : r.before.Intact := by
      rcases hpre.eq_or_after with h | ⟨q, hq, h⟩ <;> rw [h]
      · exact (fresh_wired cfg).intact
      · exact hintact q (by simp [hq])
    by_contra hne
    obtain ⟨u, hu⟩ := List.exists_mem_of_ne_nil _ hne
    refine State.not_intact_of_collect hbefore hel hu ?_
    rw [Trace.Step.Valid, hcall] at hv
    have hall : ((Script.collectIfEligible id cutoffMs).exec r.before).All
        fun x => x = r.before.collectIfEligible id cutoffMs := by
      exact rfl
    rw [← hall.of_yields hv]
    exact hintact r hr
  · intro hcond
    have hwired : ∀ {pre t}, Run (State.fresh cfg) pre t → (∀ r ∈ pre, Unhooked r) → t.Wired :=
      fun hpre hpreCond => hpre.preserves (fresh_wired cfg) fun r hr hv hbefore =>
        (exec_wired hbefore r.call (hpreCond r hr)).of_yields hv
    intro r hr
    obtain ⟨pre, post, rfl, hpre, hv⟩ := hrun.prefix_of_mem hr
    have hafter := hwired (Trace.Run.snoc hpre hv) fun q hq => hcond q (by
      rcases List.mem_append.mp hq with hq | hq <;> simp_all)
    exact hafter.intact

/-- A failed pair of nodes, unlinked before the second one is collected. -/
def unlinkedCalls : List (Trace.Call Script) :=
  [{ input := .addNodes 10 [{ id := "u" }, { id := "v", deps := ["u"] }], clock := [10] },
   { input := .cancelNodes ["u"], clock := [20] },
   { input := .removeEdges [("u", "v")], clock := [30] },
   { input := .collectIfEligible "v" 40 }]

/-- A test for `Unhooked`. -/
def unhooked (r : StepRecord) : Bool :=
  match r.call with
  | .collectIfEligible id _ => (r.before.pred id).keys = []
  | _ => true

theorem Unhooked.of_test {r : StepRecord} (h : unhooked r = true) : Unhooked r := by
  intro id cutoffMs hcall _
  simpa [unhooked, hcall] using h

theorem unlinkedCalls_intact : ∃ steps s, Run (State.fresh {}) steps s ∧
    s.has "v" = false ∧ (∀ r ∈ steps, Unhooked r) ∧ ∀ r ∈ steps, r.after.Intact := by
  obtain ⟨steps, s, hrun, hp⟩ := Trace.exists_run_of_execute Script.exec unlinkedCalls
    (State.fresh {}) (p := fun steps s => steps.all unhooked && !s.has "v") (by decide +kernel)
  rw [Bool.and_eq_true, List.all_eq_true, Bool.not_eq_true'] at hp
  have hcond : ∀ r ∈ steps, Unhooked r := fun r hr => Unhooked.of_test (hp.1 r hr)
  exact ⟨steps, s, hrun, hp.2, hcond, (run_intact_iff hrun).mpr hcond⟩

/-- The same pair, collected while it is linked. -/
def linkedCalls : List (Trace.Call Script) :=
  [{ input := .addNodes 10 [{ id := "u" }, { id := "v", deps := ["u"] }], clock := [10] },
   { input := .cancelNodes ["u"], clock := [20] },
   { input := .collectIfEligible "v" 30 }]

/-- The collected node stays in the successor set of its predecessor. -/
theorem linkedCalls_dangling : ∃ steps s, Run (State.fresh {}) steps s ∧
    s.has "u" = true ∧ s.has "v" = false ∧ "v" ∈ s.succ "u" ∧ ¬s.Intact := by
  obtain ⟨steps, s, hrun, hp⟩ := Trace.exists_run_of_execute Script.exec linkedCalls
    (State.fresh {}) (p := fun _ s => s.has "u" && !s.has "v" && decide ("v" ∈ s.succ "u"))
    (by decide +kernel)
  simp only [Bool.and_eq_true, Bool.not_eq_true', decide_eq_true_eq] at hp
  obtain ⟨⟨hu, hv⟩, hmem⟩ := hp
  refine ⟨steps, s, hrun, hu, hv, hmem, fun hintact => ?_⟩
  simp [hintact.succ_exists "u" "v" hmem] at hv

end DagWorker.Redis
