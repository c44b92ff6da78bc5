import DagWorker.Backends.Order
import DagWorker.Memory.Rejection
import DagWorker.Redis.Edits

/-!
# Refused calls in two backends

`RemoveEdges` drops edges one by one in the in-memory store and in the script alike, and
neither puts them back on an error.  `Cancel` of the in-memory store cancels one node after
the other, where the script first looks for all of them.
-/

namespace DagWorker

open Function

variable {R : Scope → Scope → Prop} {name : String} (s : State) (edges : List (NodeID × NodeID))

namespace Redis.State

/-! ## The script for edges -/

/-- Edges, tallies and phases are as before. -/
structure SameEdges (s t : State) : Prop where
  pred : t.pred = s.pred
  succ : t.succ = s.succ
  nodes : ∀ id, (t.node id).map (fun n => (n.deps, n.phase)) =
    (s.node id).map fun n => (n.deps, n.phase)

theorem SameEdges.refl : s.SameEdges s := ⟨rfl, rfl, fun _ => rfl⟩

/-- The edges the script gets to: those before the first unknown end. -/
def knownEdges (s : State) (edges : List (NodeID × NodeID)) : List (NodeID × NodeID) :=
  edges.takeWhile fun e => s.has e.1 && s.has e.2

/-- Every end is known, or none of the edges before the first unknown end exists. -/
def DropsNothing (s : State) (edges : List (NodeID × NodeID)) : Prop :=
  s.knownEdges edges = edges ∨ ∀ e ∈ s.knownEdges edges, s.hasEdge e.1 e.2 = false

theorem unlinkEdges_spec (touched : List NodeID) (s : State) :
    ((unlinkEdges edges touched s).1.isOk ↔ s.knownEdges edges = edges) ∧
      (∀ u v, (unlinkEdges edges touched s).2.hasEdge u v = true →
        s.hasEdge u v = true ∧ (u, v) ∉ s.knownEdges edges) ∧
      ((∀ e ∈ s.knownEdges edges, s.hasEdge e.1 e.2 = false) →
        (unlinkEdges edges touched s).2 = s) := by
  induction edges generalizing touched s with
  | nil => simp [unlinkEdges, knownEdges, Except.isOk, Except.toBool]
  | cons e edges ih =>
    obtain ⟨a, b⟩ := e
    rw [unlinkEdges]
    by_cases ha : s.has a = false
    · simp [ha, knownEdges, Except.isOk, Except.toBool]
    rw [if_neg ha]
    by_cases hb : s.has b = false
    · simp [hb, knownEdges, Except.isOk, Except.toBool]
    rw [if_neg hb]
    have hknown : s.knownEdges ((a, b) :: edges) = (a, b) :: s.knownEdges edges := by
      simp [knownEdges, ha, hb]
    rw [hknown]
    cases hu : s.unlinkEdge a b with
    | none =>
      have hedge := unlinkEdge_eq_none.mp hu
      obtain ⟨hok, hkept, hsame⟩ := ih touched s
      refine ⟨by simpa using hok, fun u v huv => ?_, fun h => ?_⟩
      · obtain ⟨hold, hnot⟩ := hkept u v huv
        refine ⟨hold, ?_⟩
        rw [List.mem_cons, not_or]
        refine ⟨?_, hnot⟩
        rintro heq
        obtain ⟨rfl, rfl⟩ := Prod.mk.inj heq
        rw [hedge] at hold
        cases hold
      · exact hsame fun e he => h e (.tail _ he)
    | some t =>
      have hhas : t.has = s.has := funext (still_unlinkEdge hu).has
      have hrejects : t.knownEdges edges = s.knownEdges edges := by
        simp only [knownEdges, hhas]
      obtain ⟨hok, hkept, -⟩ := ih (touch touched b) t
      rw [hrejects] at hok hkept
      refine ⟨by simpa using hok, fun u v huv => ?_, fun h => ?_⟩
      · obtain ⟨hold, hnot⟩ := hkept u v huv
        rw [hasEdge_of_unlinkEdge hu, Bool.and_eq_true, Bool.not_eq_true',
          decide_eq_false_iff_not] at hold
        refine ⟨hold.1, ?_⟩
        rw [List.mem_cons, not_or]
        exact ⟨fun heq => hold.2 (Prod.mk.inj heq), hnot⟩
      · have hnone := unlinkEdge_eq_none.mpr (h (a, b) (.head _))
        rw [hnone] at hu
        cases hu

/-- An edge that the script drops before an error stays dropped. -/
theorem removeEdges_same_iff :
    ((s.removeEdges edges).All fun r => ∀ e, r.1 = .error e → s.SameEdges r.2) ↔
      s.DropsNothing edges := by
  obtain ⟨hok, hkept, hsame⟩ := unlinkEdges_spec edges [] s
  rw [removeEdges, Prog.all_bind, Prog.all_getNow]
  cases hrun : unlinkEdges edges [] s with
  | mk res t =>
    rw [hrun] at hok hkept hsame
    cases res with
    | ok touched =>
      have hall : s.knownEdges edges = edges := hok.mp rfl
      refine iff_of_true (fun nowMs => ?_) (.inl hall)
      rw [Prog.all_bind]
      exact Prog.all_of_forall (fun _ e he => by cases he) _
    | error e =>
      constructor
      · intro hall
        have hg : s.SameEdges t := hall 0 e rfl
        right
        rintro ⟨u, v⟩ huv
        by_contra hedge
        rw [Bool.not_eq_false] at hedge
        have hstill : t.hasEdge u v = true := by rwa [hasEdge, hg.pred]
        exact (hkept u v hstill).2 huv
      · rintro (hall | hnone) nowMs
        · cases hok.mpr hall
        · have hts : t = s := hsame hnone
          subst hts
          exact fun _ _ => SameEdges.refl t

/-! ## The script for cancellations -/

/-- The script looks for all nodes before it cancels one. -/
theorem cancelNodes_rejected (ids : List NodeID) :
    (s.cancelNodes ids).All fun r => ∀ e, r.1 = .error e → r.2 = s := by
  rw [cancelNodes]
  split
  · exact fun _ _ => rfl
  rw [Prog.all_bind, Prog.all_getNow]
  intro nowMs
  rw [Prog.all_bind]
  exact Prog.all_of_forall (fun _ e he => by cases he) _

end Redis.State

namespace Memory

/-! ## The in-memory store -/

/-- The same scopes, each related to what it was. -/
structure Store.Alike (R : Scope → Scope → Prop) (st st' : Store) : Prop where
  known : ∀ name, (st'.scopes.lookup name).isSome = (st.scopes.lookup name).isSome
  scope : ∀ name s s', st.scopes.lookup name = some s → st'.scopes.lookup name = some s' → R s s'

theorem Store.Alike.refl (hR : ∀ s, R s s) (st : Store) : st.Alike R st := by
  refine ⟨fun _ => rfl, fun name s s' hs hs' => ?_⟩
  obtain rfl := Option.mem_unique hs hs'
  exact hR s

theorem Store.alike_setScope_iff (hR : ∀ s, R s s) {st : Store} {s s' : Scope}
    (hs : st.scopes.lookup name = some s) : st.Alike R (st.setScope name s') ↔ R s s' := by
  have hown : (st.setScope name s').scopes.lookup name = some s' := AList.lookup_insert ..
  constructor
  · exact fun h => h.scope name s s' hs hown
  intro h
  refine ⟨fun n => ?_, fun n t t' ht ht' => ?_⟩
  · by_cases hn : n = name
    · rw [hn, hown, hs]
      rfl
    · rw [Store.setScope, AList.lookup_insert_ne hn]
  · by_cases hn : n = name
    · subst hn
      obtain rfl := Option.mem_unique hs ht
      obtain rfl := Option.mem_unique hown ht'
      exact h
    · rw [Store.setScope, AList.lookup_insert_ne hn] at ht'
      obtain rfl := Option.mem_unique ht ht'
      exact hR t

/-- A call that works on an existing scope leaves the store alone on an error exactly when
its body leaves the scope alone. -/
theorem Store.existing_alike_iff (hR : ∀ s, R s s) {st : Store}
    {f : Scope → Prog (Scope.EffectsResult × Scope)} :
    ((st.existing name Store.failed f).All fun x => x.1.err.isSome → st.Alike R x.2) ↔
      st.closed = true ∨ ∀ s, st.scopes.lookup name = some s →
        (f s).All fun x => x.1.err.isSome → R s x.2 := by
  rw [Store.existing]
  by_cases hclosed : st.closed = true
  · rw [if_pos hclosed]
    exact iff_of_true (fun _ => .refl hR st) (.inl hclosed)
  rw [if_neg hclosed]
  cases hs : st.scopes.lookup name with
  | none => exact iff_of_true (fun _ => .refl hR st) (.inr fun s h => by cases h)
  | some s =>
    have hbody : ((st.onScope name s f).All fun x => x.1.err.isSome → st.Alike R x.2) ↔
        (f s).All fun x => x.1.err.isSome → R s x.2 := by
      rw [Store.onScope, Prog.all_bind]
      exact ⟨fun h => h.mono fun x hx herr => (alike_setScope_iff hR hs).mp (hx herr),
        fun h => h.mono fun x hx herr => (alike_setScope_iff hR hs).mpr (hx herr)⟩
    refine hbody.trans ⟨fun h => .inr fun t ht => ?_, fun h => ?_⟩
    · obtain rfl := Option.some.inj ht
      exact h
    · exact (h.resolve_left hclosed) s rfl

end Memory

namespace Backends

open Memory (Store Op Out Reachable Scope)

/-- A refused `RemoveEdges` leaves edges, tallies and phases as they were exactly when no
edge before the first unknown end exists, in the in-memory store and in the script. -/
theorem removeEdges_unchanged_iff {st : Store} (hst : Reachable st) (name : String)
    (edges : List Edge) (r : Redis.State) :
    ((((Op.removeEdges name edges).exec st).All fun x =>
        x.1.err.isSome → st.Alike Scope.SameGraph x.2) ↔
      st.closed = true ∨ ∀ s, st.scopes.lookup name = some s → s.DropsNothing edges) ∧
    (((r.removeEdges (edges.map fun e => (e.fromID, e.toID))).All fun x =>
        ∀ e, x.1 = .error e → r.SameEdges x.2) ↔
      r.DropsNothing (edges.map fun e => (e.fromID, e.toID))) := by
  refine ⟨?_, r.removeEdges_same_iff _⟩
  rw [Op.exec, Memory.all_outcome, Store.removeEdges]
  split
  · rename_i hnil
    obtain rfl := List.isEmpty_iff.mp hnil
    refine iff_of_true (fun h => ?_) (.inr fun s _ => .inl rfl)
    cases h
  · refine (Store.existing_alike_iff Scope.SameGraph.refl).trans (or_congr_right ?_)
    exact forall₂_congr fun s hs => Scope.removeEdges_same_iff (hst.sound name s hs).inv edges

/-- A list whose first edge does not exist and whose second has no source. -/
def strayEdges : List Edge :=
  [{ fromID := "c", toID := "a" }, { fromID := "ghost", toID := "c" }]

theorem strayEdges_unchanged : ∃ st s, Reachable st ∧ st.scopes.lookup "jobs" = some s ∧
    s.knownPrefix strayEdges ≠ strayEdges ∧
    ((Op.removeEdges "jobs" strayEdges).exec st).All fun x =>
      x.1.err.isSome → st.Alike Scope.SameGraph x.2 := by
  obtain ⟨st, s, hst, hs, hp⟩ := Memory.exists_jobs Memory.chainCalls
    (p := fun s => s.knownPrefix strayEdges = [{ fromID := "c", toID := "a" }] ∧
      s.lookup "c" = some 2 ∧ s.lookup "a" = some 0 ∧ s.hasEdge 2 0 = false)
    (by decide +kernel)
  obtain ⟨hknown, hc, ha, hedge⟩ := of_decide_eq_true hp
  have hdrops : s.DropsNothing strayEdges := by
    right
    rw [hknown]
    intro e he u v hu hv
    obtain rfl := List.mem_singleton.mp he
    obtain rfl := Option.mem_unique hc hu
    obtain rfl := Option.mem_unique ha hv
    exact hedge
  refine ⟨st, s, hst, hs, ?_, (removeEdges_unchanged_iff hst "jobs" strayEdges {}).1.mpr ?_⟩
  · rw [hknown]
    decide
  right
  intro t ht
  obtain rfl := Option.mem_unique hs ht
  exact hdrops

/-- An edge, and one without a source. -/
def brokenEdgesCall : Memory.Call :=
  { input := .removeEdges "jobs" [{ fromID := "b", toID := "c" }, { fromID := "ghost", toID := "c" }] }

/-- The call fails, the edge is gone, and its target waits for nothing; so in the script. -/
theorem brokenEdges_dropped :
    (∃ st out st' s s', Reachable st ∧ Prog.Yields (brokenEdgesCall.input.exec st) (out, st') ∧
      out.err.isSome ∧ st.scopes.lookup "jobs" = some s ∧ st'.scopes.lookup "jobs" = some s' ∧
      s.hasEdge 1 2 = true ∧ s'.hasEdge 1 2 = false ∧ (s'.recs 2).phase = .blocked ∧
      (s'.recs 2).deps.ready (s'.recs 2).trigger = true) ∧
    ∃ e t, Prog.Yields (redisThree.removeEdges [("a", "b"), ("ghost", "b")]) (.error e, t) ∧
      redisThree.hasEdge "a" "b" = true ∧ t.hasEdge "a" "b" = false := by
  constructor
  · obtain ⟨st, out, st', hst, hyields, hp⟩ :=
      Memory.exists_call_of_execute Memory.chainCalls brokenEdgesCall
        (p := fun st out st' => out.err.isSome && (st.scopes.lookup "jobs").any fun s =>
          (st'.scopes.lookup "jobs").any fun s' => s.hasEdge 1 2 = true ∧ s'.hasEdge 1 2 = false ∧
            (s'.recs 2).phase = .blocked ∧ (s'.recs 2).deps.ready (s'.recs 2).trigger = true)
        (by decide +kernel)
    rw [Bool.and_eq_true, Option.any_eq_true] at hp
    obtain ⟨herr, s, hs, hp⟩ := hp
    obtain ⟨s', hs', hp⟩ := Option.any_eq_true _ _ |>.mp hp
    exact ⟨st, out, st', s, s', hst, hyields, herr, hs, hs', of_decide_eq_true hp⟩
  · have hrun : ((redisThree.removeEdges [("a", "b"), ("ghost", "b")]).run [0] []).any
        (fun x => x.1 = .error (.fromNotFound "ghost") ∧ x.2.hasEdge "a" "b" = false) = true := by
      decide +kernel
    obtain ⟨⟨reply, t⟩, hx, hp⟩ := Option.any_eq_true _ _ |>.mp hrun
    obtain ⟨rfl, hedge⟩ := of_decide_eq_true hp
    exact ⟨_, t, Prog.yields_of_run hx, by decide, hedge⟩

/-- A refused `Cancel` of the in-memory store leaves the nodes and the log as they were
exactly when all nodes before the first unknown one are done; the script always does. -/
theorem cancel_unchanged_iff {st : Store} (hst : Reachable st) (name : String)
    (ids : List NodeID) (r : Redis.State) :
    ((((Op.cancel name ids).exec st).All fun x =>
        x.1.err.isSome → st.Alike Scope.Untouched x.2) ↔
      st.closed = true ∨ ∀ s, st.scopes.lookup name = some s → s.CancelsNothing ids) ∧
    (r.cancelNodes ids).All fun x => ∀ e, x.1 = .error e → x.2 = r := by
  refine ⟨?_, r.cancelNodes_rejected ids⟩
  rw [Op.exec, Memory.all_outcome, Store.cancel]
  split
  · rename_i hnil
    obtain rfl := List.isEmpty_iff.mp hnil
    refine iff_of_true (fun h => ?_) (.inr fun s _ => .inl rfl)
    cases h
  · refine (Store.existing_alike_iff Scope.Untouched.refl).trans (or_congr_right ?_)
    exact forall₂_congr fun s hs => Scope.cancel_untouched_iff (hst.sound name s hs).inv ids

/-- A node that is done, and one that does not exist. -/
theorem doneAndGhost_unchanged : ∃ st s, Reachable st ∧ st.scopes.lookup "jobs" = some s ∧
    s.knownIDs ["a", "ghost"] = ["a"] ∧
    ((Op.cancel "jobs" ["a", "ghost"]).exec st).All fun x =>
      x.1.err.isSome → st.Alike Scope.Untouched x.2 := by
  obtain ⟨st, s, hst, hs, hp⟩ := Memory.exists_jobs Memory.chainCalls
    (p := fun s => s.knownIDs ["a", "ghost"] = ["a"] ∧ s.lookup "a" = some 0 ∧
      (s.recs 0).phase = .done)
    (by decide +kernel)
  obtain ⟨hknown, ha, hdone⟩ := of_decide_eq_true hp
  refine ⟨st, s, hst, hs, hknown, (cancel_unchanged_iff hst "jobs" ["a", "ghost"] {}).1.mpr ?_⟩
  right
  intro t ht
  obtain rfl := Option.mem_unique hs ht
  right
  rw [hknown]
  intro id hid h hl
  obtain rfl := List.mem_singleton.mp hid
  obtain rfl := Option.mem_unique ha hl
  exact hdone

/-- A node that is ready, and one that does not exist. -/
def readyAndGhostCall : Memory.Call :=
  { input := .cancel "jobs" ["b", "ghost"], clock := [40, 41, 42, 43, 44, 45] }

/-- The call fails, but the first node and its successor have been cancelled. -/
theorem readyAndGhost_cancelled : ∃ st out st' s s', Reachable st ∧
    Prog.Yields (readyAndGhostCall.input.exec st) (out, st') ∧
    out.err.map Err.sentinel = some .notFound ∧
    st.scopes.lookup "jobs" = some s ∧ st'.scopes.lookup "jobs" = some s' ∧
    ((s.recs 1).phase = .ready ∧ (s.recs 2).phase = .blocked) ∧
    ((s'.recs 1).phase = .done ∧ (s'.recs 1).reason = .cancelled ∧ (s'.recs 2).phase = .done) ∧
    s.cursor < s'.cursor := by
  obtain ⟨st, out, st', hst, hyields, hp⟩ :=
    Memory.exists_call_of_execute Memory.chainCalls readyAndGhostCall
      (p := fun st out st' => decide (out.err.map Err.sentinel = some .notFound) &&
        (st.scopes.lookup "jobs").any fun s => (st'.scopes.lookup "jobs").any fun s' =>
          ((s.recs 1).phase = .ready ∧ (s.recs 2).phase = .blocked) ∧
          ((s'.recs 1).phase = .done ∧ (s'.recs 1).reason = .cancelled ∧
            (s'.recs 2).phase = .done) ∧ s.cursor < s'.cursor)
      (by decide +kernel)
  rw [Bool.and_eq_true, decide_eq_true_eq, Option.any_eq_true] at hp
  obtain ⟨herr, s, hs, hp⟩ := hp
  obtain ⟨s', hs', hp⟩ := Option.any_eq_true _ _ |>.mp hp
  exact ⟨st, out, st', s, s', hst, hyields, herr, hs, hs', of_decide_eq_true hp⟩

end Backends
end DagWorker
