import DagWorker.Memory.Representation

/-!
# Refused calls

`AddNodes` and `AddEdges` undo what they did before an error: apart from ranks and the
bookkeeping of slots the scope is as before.  `RemoveEdges` and `Cancel` keep no journal,
and leave the scope alone exactly when no edge was dropped and no node cancelled before the
identifier that is missing.
-/

namespace DagWorker.Memory

open Function

variable {s : Scope}

/-- A refused call on the scope `name` has at most created it, empty. -/
structure Store.Undone (st : Store) (name : String) (st' : Store) : Prop where
  defaults : st'.defaults = st.defaults
  logCap : st'.logCap = st.logCap
  closed : st'.closed = st.closed
  others : ∀ n, n ≠ name → st'.scopes.lookup n = st.scopes.lookup n
  scope : st'.scopes.lookup name = st.scopes.lookup name ∨
    ∃ s s', st.Finds name s ∧ st'.scopes.lookup name = some s' ∧ s.Restored s'

theorem Store.Undone.refl (st : Store) (name : String) : st.Undone name st :=
  ⟨rfl, rfl, rfl, fun _ _ => rfl, .inl rfl⟩

theorem Store.Undone.of_restored {st : Store} {name : String} {s' : Scope} (hs : st.Finds name s)
    (hr : s.Restored s') : st.Undone name (st.setScope name s') := by
  refine ⟨rfl, rfl, rfl, fun n hn => ?_, .inr ⟨s, s', hs, ?_, hr⟩⟩
  · exact AList.lookup_insert_ne hn
  · exact AList.lookup_insert ..

/-- `AddNodes` and `AddEdges` on a reachable store do all that they were asked for or
nothing. -/
theorem reachable_batches_undone {st : Store} (hst : Reachable st) (name : String)
    (specs : List NodeSpec) (edges : List Edge) :
    (((Op.addNodes name specs).exec st).All fun x => x.1.err.isSome → st.Undone name x.2) ∧
      ((Op.addEdges name edges).exec st).All fun x => x.1.err.isSome → st.Undone name x.2 := by
  have hfinds : ∀ s, st.Finds name s → s.Inv := fun s hs => (hs.sound hst.sound).inv
  constructor
  · rw [Op.exec, all_outcome, Store.addNodes]
    split
    · exact fun _ => .refl st name
    apply Store.all_creating
    · exact fun _ => .refl st name
    · intro s hs
      apply (Scope.addNodes_revises (hfinds s hs) specs).mono
      exact fun r hr herr => .of_restored hs (hr.2.2.2.1 herr).2
  · rw [Op.exec, all_outcome, Store.addEdges]
    split
    · exact fun _ => .refl st name
    apply Store.all_existing
    · exact fun _ => .refl st name
    · exact fun _ => .refl st name
    · intro s hs
      apply (Scope.addEdges_revises (hfinds s hs) edges).mono
      exact fun r hr herr => .of_restored hs (hr.2.2.2 herr).2

/-- One more call after some others. -/
theorem exists_call_of_execute (calls : List Call) (last : Call) {p : Store → Out → Store → Bool}
    (h : (Trace.execute exec calls (Store.new {} 0)).any (fun r =>
      ((last.input.exec r.2).run last.clock last.jitters).any fun x => p r.2 x.1 x.2) = true) :
    ∃ st out st', Reachable st ∧ Prog.Yields (last.input.exec st) (out, st') ∧
      p st out st' = true := by
  obtain ⟨steps, st, hrun, hp⟩ := Trace.exists_run_of_execute exec calls (Store.new {} 0)
    (p := fun _ st => ((last.input.exec st).run last.clock last.jitters).any fun x => p st x.1 x.2) h
  obtain ⟨⟨out, st'⟩, hout, hp⟩ := Option.any_eq_true _ _ |>.mp hp
  exact ⟨st, out, st', ⟨{}, 0, steps, hrun⟩, Prog.yields_of_run hout, hp⟩

/-- A batch with a new node `d` after `c`, on which `b` is then to depend. -/
def loopCall : Call :=
  { input := .addNodes "jobs" [{ id := "d", deps := ["c"] }, { id := "b", deps := ["a", "d"] }]
    clock := [40] }

/-- The cycle shows when `d` has been created and linked. -/
theorem loop_undone : ∃ st out st', Reachable st ∧
    Prog.Yields (loopCall.input.exec st) (out, st') ∧
    (∃ path, out.err = some (.cycle "jobs" "d" "b" path)) ∧ st.Undone "jobs" st' := by
  obtain ⟨st, out, st', hst, hyields, hp⟩ := exists_call_of_execute chainCalls loopCall
    (p := fun _ out _ => out.err = some (.cycle "jobs" "d" "b" ["b", "c", "d"]))
    (by decide +kernel)
  have hpath : out.err = some (.cycle "jobs" "d" "b" ["b", "c", "d"]) := of_decide_eq_true hp
  have hundone := (reachable_batches_undone hst "jobs" _ []).1.of_yields hyields
  exact ⟨st, out, st', hst, hyields, ⟨_, hpath⟩, hundone (by simp [hpath])⟩

namespace Scope

/-! ## Dropping edges -/

/-- Edges, tallies and phases are as before, and no node has become one that waits although
its rule is decided. -/
structure SameGraph (s s' : Scope) : Prop where
  lookup : ∀ id, s'.lookup id = s.lookup id
  pred : s'.pred = s.pred
  succ : s'.succ = s.succ
  deps : ∀ h, (s'.recs h).deps = (s.recs h).deps
  phase : ∀ h, (s'.recs h).phase = (s.recs h).phase
  settled : s.SettledBut ∅ → s'.SettledBut ∅

theorem SameGraph.refl (s : Scope) : s.SameGraph s :=
  ⟨fun _ => rfl, rfl, rfl, fun _ => rfl, fun _ => rfl, fun h => h⟩

/-- Every end is known, or none of the edges before the first unknown end exists. -/
def DropsNothing (s : Scope) (es : List Edge) : Prop :=
  s.knownPrefix es = es ∨ ∀ e ∈ s.knownPrefix es, ∀ u v,
    s.lookup e.fromID = some u → s.lookup e.toID = some v → s.hasEdge u v = false

theorem unlinkEdge_of_absent {u v : ℕ} (h : s.hasEdge u v = false) :
    s.unlinkEdge u v = (s, false) := by
  apply unlinkEdge_of_none
  simpa [hasEdge] using h

theorem unlinkEdgeList_of_absent {es : List Edge} (touched : List ℕ)
    (h : ∀ e ∈ s.knownPrefix es, ∀ u v,
      s.lookup e.fromID = some u → s.lookup e.toID = some v → s.hasEdge u v = false) :
    (unlinkEdgeList es s touched).2.1 = s := by
  induction es generalizing touched with
  | nil => rfl
  | cons e es ih =>
    rw [unlinkEdgeList]
    split
    · rfl
    rename_i u hu
    split
    · rfl
    rename_i v hv
    have hknown : s.knownPrefix (e :: es) = e :: s.knownPrefix es := by
      simp [knownPrefix, hu, hv]
    rw [hknown] at h
    rw [unlinkEdge_of_absent (h e (.head _) u v hu hv)]
    exact ih _ fun e' he' => h e' (List.mem_cons_of_mem e he')

/-- An edge that is dropped before an error stays dropped. -/
theorem removeEdges_same_iff (hi : s.Inv) (es : List Edge) :
    ((s.removeEdges es).All fun r => r.1.err.isSome → s.SameGraph r.2) ↔ s.DropsNothing es := by
  obtain ⟨err, s', t, heq, he, -, -, hpreds, herr⟩ := unlinkEdgeList_edited es [] hi
  rw [removeEdges, heq]
  cases err with
  | none =>
    rw [Prog.all_bind]
    exact iff_of_true (Prog.all_of_forall (fun _ h => by simp at h) _) (.inl (herr.mp rfl))
  | some e =>
    have hcut : s.knownPrefix es ≠ es := fun h => absurd (herr.mpr h) (by simp)
    constructor
    · intro hsame
      have hg : s.SameGraph s' := hsame rfl
      right
      intro d hd u v hu hv
      by_contra hedge
      -- the source of the edge is a predecessor that the loop takes away
      have hsource : d.fromID ∈ s.preds v := by
        rw [Bool.not_eq_false, hasEdge, List.any_eq_true] at hedge
        obtain ⟨p, hp, hpu⟩ := hedge
        rw [preds, List.mem_toFinset, ← hi.indexed.id_of_lookup hu, ← of_decide_eq_true hpu]
        exact List.mem_map_of_mem (List.mem_map_of_mem hp)
      have hincoming : d.fromID ∈ s.incoming (s.knownPrefix es) v :=
        mem_incoming.mpr ⟨d, hd, hv, rfl⟩
      have hkept : s'.preds v = s.preds v := by
        simp only [preds, sources, hg.pred, he.id]
      rw [← hkept, hpreds, Finset.mem_sdiff] at hsource
      exact hsource.2 hincoming
    · rintro (hall | hnone)
      · exact absurd hall hcut
      have hsame := unlinkEdgeList_of_absent [] hnone
      rw [heq] at hsame
      subst hsame
      exact fun _ => SameGraph.refl s'

/-! ## Cancelling -/

/-- No node's status, phase, reason or tally has changed, and no event was recorded. -/
structure Untouched (s s' : Scope) : Prop where
  lookup : ∀ id, s'.lookup id = s.lookup id
  status : ∀ h, (s'.recs h).status = (s.recs h).status
  phase : ∀ h, (s'.recs h).phase = (s.recs h).phase
  reason : ∀ h, (s'.recs h).reason = (s.recs h).reason
  deps : ∀ h, (s'.recs h).deps = (s.recs h).deps
  log : s'.log = s.log
  cursor : s'.cursor = s.cursor

theorem Untouched.refl (s : Scope) : s.Untouched s :=
  ⟨fun _ => rfl, fun _ => rfl, fun _ => rfl, fun _ => rfl, fun _ => rfl, rfl, rfl⟩

/-- Every identifier is known, or all nodes before the first unknown one are done. -/
def CancelsNothing (s : Scope) (ids : List NodeID) : Prop :=
  s.knownIDs ids = ids ∨ ∀ id ∈ s.knownIDs ids, ∀ h, s.lookup id = some h →
    (s.recs h).phase = .done

theorem cancelLoop_of_done {ids : List NodeID} (out : List Effect) (hcut : s.knownIDs ids ≠ ids)
    (h : ∀ id ∈ s.knownIDs ids, ∀ h, s.lookup id = some h → (s.recs h).phase = .done) :
    (cancelLoop ids s out).All fun r => r.2 = s := by
  induction ids with
  | nil => exact absurd rfl hcut
  | cons id ids ih =>
    rw [cancelLoop]
    split
    · rfl
    rename_i k hl
    have hknown : s.knownIDs (id :: ids) = id :: s.knownIDs ids := by
      simp [knownIDs, hl]
    rw [hknown] at h hcut
    rw [if_pos (h id (.head _) k hl)]
    exact ih (fun heq => hcut (by rw [heq])) fun d hd => h d (List.mem_cons_of_mem id hd)

theorem cancel_untouched_iff (hi : s.Inv) (ids : List NodeID) :
    ((s.cancel ids).All fun r => r.1.err.isSome → s.Untouched r.2) ↔ s.CancelsNothing ids := by
  have hcancels : (s.cancel ids).All (Cancels s ids) :=
    (cancelLoop_cancels ids hi).mono fun r ⟨_, _, _, hc⟩ => hc
  by_cases hcut : s.knownIDs ids = ids
  · refine iff_of_true (hcancels.mono fun r hc hsome => ?_) (.inl hcut)
    rw [hc.err.mpr hcut] at hsome
    cases hsome
  constructor
  · intro hall
    right
    intro id hid h hl
    -- any outcome of the call shows that the node is done
    obtain ⟨r, hr⟩ := Prog.exists_yields (s.cancel ids)
    obtain ⟨hsame, hc⟩ := (hall.and hcancels).of_yields hr
    have hsome : r.1.err.isSome := by
      rw [Option.isSome_iff_ne_none]
      exact fun hnone => hcut (hc.err.mp hnone)
    rw [← (hsame hsome).phase]
    exact hc.done id hid h hl
  · rintro (hall | hdone)
    · exact absurd hall hcut
    · apply (cancelLoop_of_done [] hcut hdone).mono
      rintro r rfl _
      exact Untouched.refl r.2

end Scope

end DagWorker.Memory
