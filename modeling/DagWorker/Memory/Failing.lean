import DagWorker.Graph.Failure
import DagWorker.Memory.Confluence
import DagWorker.Memory.Representation

/-!
# Nodes terminated one after another

`RemoveNode` with `CascadeFail` terminates the successors of a node in turn, and
`CancelScope` all live nodes.  Each termination cascades, and a node that is reached so
ends as one whose upstream failed before its own turn comes.
-/

namespace DagWorker.Memory

open DagWorker.Graph (Net)

variable {h : ℕ} {ws : List ℕ}

namespace Scope

variable {s : Scope} {status : Status} {reason : Reason} {msg : String} {out : List Effect}

theorem Laid.live_iff (hl : s.Laid) (hh : s.Alive h) :
    s.net.Live (s.recs h).id ↔ (s.recs h).phase ≠ .done := by
  constructor
  · rintro ⟨c, hc, hlive⟩
    obtain rfl := Option.mem_unique (hl.cell hh) hc
    exact hlive
  · exact fun hlive => ⟨_, hl.cell hh, hlive⟩

theorem Laid.ended (hl : s.Laid) (hh : s.Alive h) {x : Graph.Verdict}
    (hend : s.net.Ended (s.recs h).id x) : (cellOf (s.recs h)).verdict = x := by
  obtain ⟨c, hc, -, rfl⟩ := hend
  rw [Option.mem_unique (hl.cell hh) hc]

/-- `terminateAll` topples the nodes of its list. -/
theorem terminateAll_net (hi : s.Inv) (hst : status.terminal = true) (hws : ∀ w ∈ ws, s.Alive w) :
    (terminateAll status reason msg ws s out).All fun r =>
      r.1.Laid ∧ Cascades s r.1 ∧ Net.Topples terminalMessage ⟨status, reason, msg⟩ s.net
        (ws.map fun w => (s.recs w).id) r.1.net := by
  induction ws generalizing s out with
  | nil => exact ⟨⟨hi.indexed, hi.mirrored⟩, .refl s, .nil⟩
  | cons w ws ih =>
    have hl : s.Laid := ⟨hi.indexed, hi.mirrored⟩
    have hw := hws w (List.mem_cons_self ..)
    rw [terminateAll, Prog.all_bind]
    refine ((terminate_drains hi hst).and (terminate_net hl hw)).mono ?_
    rintro r ⟨⟨es, -, hd, -⟩, hk, hnet⟩
    refine (ih (hi.path hd.path) fun w' hw' => ?_).mono ?_
    · rw [Alive, hd.cascades.alive]
      exact hws w' (List.mem_cons_of_mem w hw')
    rintro r' ⟨hl', hc, ht⟩
    simp only [hd.cascades.id] at ht
    exact ⟨hl', hd.cascades.trans hc,
      .cons (hl.net_tallied hi.tallied) (hl.cell hw) hnet ht⟩

/-- How a node of the list has ended: with the verdict of the list, or because a node before
it has taken it along. -/
def EndsAt (s : Scope) (reason : Reason) (msg : String) (pre : List ℕ) (w : ℕ)
    (r : NodeRec) : Prop :=
  (∀ u ∈ pre, ¬s.net.Reaches (s.recs u).id (s.recs w).id) ∧
      (cellOf r).verdict = ⟨.error, reason, msg⟩ ∨
    (∃ u ∈ pre, s.net.Reaches (s.recs u).id (s.recs w).id) ∧ r.reason = .upstreamFailed

theorem terminateAll_ends (hi : s.Inv) (hws : ∀ w ∈ ws, s.Alive w) (hnodup : ws.Nodup)
    (hreason : reason ≠ .skipped) :
    (terminateAll .error reason msg ws s out).All fun r =>
      Cascades s r.1 ∧
      (∀ h, s.Alive h → (s.recs h).phase = .done →
        (cellOf (r.1.recs h)).verdict = (cellOf (s.recs h)).verdict) ∧
      ∀ pre w post, ws = pre ++ w :: post → (s.recs w).phase ≠ .done →
        s.EndsAt reason msg pre w (r.1.recs w) := by
  have hl : s.Laid := ⟨hi.indexed, hi.mirrored⟩
  have hv : (⟨.error, reason, msg⟩ : Graph.Verdict).outcome = .failed := by
    simp [Graph.Verdict.outcome, DepCounts.Outcome.ofTerminal, hreason]
  refine (terminateAll_net hi rfl hws).mono ?_
  rintro r ⟨hl', hc, ht⟩
  have halive : ∀ {w}, s.Alive w → r.1.Alive w := fun hw => (hc.alive _).trans hw
  refine ⟨hc, fun h hh hdone => ?_, fun pre w post heq hlive => ?_⟩
  · have hend := ht.ended hv (w := (s.recs h).id) ⟨_, hl.cell hh, hdone, rfl⟩
    rw [← hc.id] at hend
    exact hl'.ended (halive hh) hend
  have hw : s.Alive w := hws w (by simp [heq])
  have hpre : (s.recs w).id ∉ pre.map fun u => (s.recs u).id := by
    rw [List.mem_map]
    rintro ⟨u, hu, hid⟩
    have hus : s.Alive u := hws u (by simp [heq, hu])
    rw [hi.indexed.id_inj hus hw hid] at hu
    rw [heq, List.nodup_append] at hnodup
    exact hnodup.2.2 w hu w (List.mem_cons_self ..) rfl
  rw [heq, List.map_append, List.map_cons] at ht
  rcases ht.ends hv ((hl.live_iff hw).mpr hlive) hpre with ⟨hnone, hend⟩ | ⟨hsome, hend⟩
  · rw [← hc.id] at hend
    exact .inl ⟨by simpa using hnone, hl'.ended (halive hw) hend⟩
  · rw [← hc.id] at hend
    exact .inr ⟨by simpa using hsome, congrArg Graph.Verdict.reason (hl'.ended (halive hw) hend)⟩

/-! ## Removing a node with its successors failed -/

theorem removeNode_fail_ends {id : NodeID} (hi : s.Inv) (hlook : s.lookup id = some h)
    (hfree : (s.recs h).phase ≠ .claimed) :
    (s.removeNode id .fail).All fun r => r.1.err = none ∧
      ∀ pre w post, s.succ h = pre ++ w :: post → (s.recs w).phase ≠ .done →
        s.EndsAt .removed (terminalMessage .removed) pre w (r.2.recs w) := by
  have hid := hi.indexed.id_of_lookup hlook
  have hdelete : ∀ (s₁ : Scope), (s₁.recs h).id = id → ∀ out,
      (s₁.detachAndDelete id h .fail out).All fun r => r.1.err = none ∧
        ∀ w, w ≠ h → ∃ d, r.2.recs w = { s₁.recs w with deps := d } := by
    rintro s₁ rfl out
    refine ⟨rfl, fun w hw => ?_⟩
    obtain ⟨d, hd⟩ := (isolated_edited s₁ h).deps w
    refine ⟨d, ?_⟩
    rw [← hd]
    exact congrFun removed_recs w |>.trans (Function.update_of_ne hw _ _)
  rw [removeNode, hlook]
  dsimp only
  rw [if_neg hfree]
  split
  · rename_i hnil
    refine (hdelete s hid []).mono fun r hr => ⟨hr.1, ?_⟩
    simp [hnil]
  rw [Prog.all_bind]
  refine (terminateAll_ends hi (fun w hw => hi.mirrored.alive_target hw)
    (hi.mirrored.succ_nodup h) (by simp)).mono ?_
  rintro r ⟨hc, -, hends⟩
  refine (hdelete r.1 ((hc.id h).trans hid) r.2).mono ?_
  rintro r' ⟨hok, hrecs⟩
  refine ⟨hok, fun pre w post heq hlive => ?_⟩
  obtain ⟨d, hd⟩ := hrecs w (ne_of_mem_succ hi (by simp [heq]))
  rw [hd]
  exact hends pre w post heq hlive

end Scope

/-- `CascadeFail` marks every live successor as removed exactly when the failure of none of
them gets to a later one of the list. -/
theorem removeNode_fail_marks_iff {st : Store} (hr : Reachable st) {name : String} {s : Scope}
    (hl : st.scopes.lookup name = some s) {id : NodeID} {h : ℕ} (hlook : s.lookup id = some h)
    (hfree : (s.recs h).phase ≠ .claimed) :
    ((s.removeNode id .fail).All fun r => r.1.err = none ∧
      ∀ w ∈ s.succ h, (s.recs w).phase ≠ .done →
        (r.2.recs w).status = .error ∧ (r.2.recs w).reason = .removed) ↔
    ∀ pre w post, s.succ h = pre ++ w :: post →
      ∀ u ∈ pre, ¬s.net.Reaches (s.recs u).id (s.recs w).id := by
  have hi := (hr.sound name s hl).inv
  have hall := Scope.removeNode_fail_ends hi hlook hfree
  constructor
  · intro hmarks pre w post heq u hu hreach
    have hw : w ∈ s.succ h := by simp [heq]
    have hlive : (s.recs w).phase ≠ .done :=
      (Scope.Laid.live_iff ⟨hi.indexed, hi.mirrored⟩ (hi.mirrored.alive_target hw)).mp
        hreach.live
    obtain ⟨r, hyields⟩ := Prog.exists_yields (s.removeNode id .fail)
    rcases (hall.of_yields hyields).2 pre w post heq hlive with ⟨hnone, -⟩ | ⟨-, hlost⟩
    · exact hnone u hu hreach
    · have hreason := ((hmarks.of_yields hyields).2 w hw hlive).2
      rw [hlost] at hreason
      cases hreason
  · intro hnone
    refine hall.mono fun r hends => ⟨hends.1, fun w hw hlive => ?_⟩
    obtain ⟨pre, post, heq⟩ := List.append_of_mem hw
    rcases hends.2 pre w post heq hlive with ⟨-, hverdict⟩ | ⟨⟨u, hu, hreach⟩, -⟩
    · exact ⟨congrArg Graph.Verdict.status hverdict, congrArg Graph.Verdict.reason hverdict⟩
    · exact absurd hreach (hnone pre w post heq u hu)

/-- Two successors of a removed node that do not depend on each other are both marked. -/
theorem fork_fail_marks : ∃ st s, Reachable st ∧ st.scopes.lookup "jobs" = some s ∧
    s.succ 0 = [1, 2] ∧ (s.recs 1).phase ≠ .done ∧ (s.recs 2).phase ≠ .done ∧
    (s.removeNode "a" .fail).All fun r => r.1.err = none ∧ ∀ w ∈ s.succ 0,
      (s.recs w).phase ≠ .done → (r.2.recs w).status = .error ∧ (r.2.recs w).reason = .removed := by
  obtain ⟨st, s, hr, hl, hp⟩ := exists_jobs
    [{ input := .addNodes "jobs" [{ id := "a" }, { id := "b", deps := ["a"] },
        { id := "c", deps := ["a"] }], clock := [10, 11, 12, 13, 14] }]
    (p := fun s => s.succ 0 = [1, 2] ∧ s.succ 1 = [] ∧ (s.recs 1).id ≠ (s.recs 2).id ∧
      (s.recs 1).phase ≠ .done ∧ (s.recs 2).phase ≠ .done ∧ s.lookup "a" = some 0 ∧
      (s.recs 0).phase ≠ .claimed) (by decide +kernel)
  obtain ⟨hsucc, hleaf, hne, hlive₁, hlive₂, hlook, hfree⟩ := of_decide_eq_true hp
  refine ⟨st, s, hr, hl, hsucc, hlive₁, hlive₂,
    (removeNode_fail_marks_iff hr hl hlook hfree).mpr fun pre w post heq u hu hreach => ?_⟩
  have hi := (hr.sound "jobs" s hl).inv
  obtain ⟨rfl, rfl⟩ : u = 1 ∧ w = 2 := by
    rw [hsucc] at heq
    rcases pre with _ | ⟨x, _ | ⟨y, pre⟩⟩
    · cases hu
    · simp_all
    · simp at heq
  -- the first one has no successors
  rcases hreach.2.cases_head with hsame | ⟨b, hpass, -⟩
  · exact hne hsame
  · have halive : s.Alive 1 := hi.mirrored.alive_target (by rw [hsucc]; exact .head _)
    obtain ⟨w, hw, -⟩ := Scope.Laid.mem_succ_of_edge ⟨hi.indexed, hi.mirrored⟩ halive hpass.1
    rw [hleaf] at hw
    cases hw

/-- A node `a` with two successors, the second of which depends on the first as well. -/
def triangleCalls : List Call :=
  [{ input := .addNodes "jobs" [{ id := "a" }, { id := "b", deps := ["a"] },
      { id := "c", deps := ["a", "b"] }], clock := [10, 11, 12, 13, 14] }]

/-- The failure of `b` takes `c` along before its turn. -/
theorem triangle_fail_unmarked : ∃ st s r, Reachable st ∧ st.scopes.lookup "jobs" = some s ∧
    Prog.Yields (s.removeNode "a" .fail) r ∧ s.lookup "a" = some 0 ∧ 2 ∈ s.succ 0 ∧
    (s.recs 2).phase = .blocked ∧ r.1.err = none ∧ (r.2.recs 2).reason = .upstreamFailed := by
  obtain ⟨st, s, hr, hl, hp⟩ := exists_jobs triangleCalls
    (p := fun s => ((s.removeNode "a" .fail).run [20, 21, 22, 23, 24, 25] []).any fun r =>
      s.lookup "a" = some 0 ∧ 2 ∈ s.succ 0 ∧ (s.recs 2).phase = .blocked ∧ r.1.err = none ∧
        (r.2.recs 2).reason = .upstreamFailed) (by decide +kernel)
  obtain ⟨r, hrun, hfacts⟩ := (Option.any_eq_true _ _).mp hp
  exact ⟨st, s, r, hr, hl, Prog.yields_of_run hrun, of_decide_eq_true hfacts⟩

namespace Scope

/-! ## Cancelling a scope -/

variable {s : Scope} {h : ℕ} {ids : List NodeID}

/-- The second loop of `CancelScope`, when the index is ranged over in a given order. -/
def cancelListed (s : Scope) (ids : List NodeID) : Prog (Scope × List Effect) :=
  terminateAll .error .cancelled (terminalMessage .cancelled) (s.liveHandles ids) s []

theorem cancelScope_all {P : EffectsResult × Scope → Prop} :
    s.cancelScope.All P ↔ ∀ ids, ids.Perm s.index.keys →
      (s.cancelListed ids).All fun r => P ({ effects := r.2 }, r.1.refreshComplete) := by
  simp only [cancelScope, cancelLive_eq, cancelListed, Prog.all_bind, Prog.all_getRange,
    Prog.pure_eq_ret, Prog.all_ret]

theorem mem_liveHandles : h ∈ s.liveHandles ids ↔
    (∃ id ∈ ids, s.lookup id = some h) ∧ (s.recs h).phase ≠ .done := by
  simp [liveHandles, List.mem_filterMap]

theorem mem_keys {id : NodeID} (hlook : s.lookup id = some h) : id ∈ s.index.keys :=
  AList.mem_keys.mp (AList.lookup_isSome.mp (by rw [← lookup, hlook]; rfl))

theorem Indexed.live_mem (hi : s.Indexed) (hh : s.Alive h) (hlive : (s.recs h).phase ≠ .done)
    (hids : ids.Perm s.index.keys) : h ∈ s.liveHandles ids := by
  have hlook := hi.lookup_id hh
  exact mem_liveHandles.mpr ⟨⟨_, hids.mem_iff.mpr (mem_keys hlook), hlook⟩, hlive⟩

theorem cancelListed_ends (hi : s.Inv) (hids : ids.Perm s.index.keys) :
    (s.cancelListed ids).All fun r =>
      (∀ h, s.Alive h → (s.recs h).phase = .done →
        (cellOf (r.1.recs h)).verdict = (cellOf (s.recs h)).verdict) ∧
      ∀ pre w post, s.liveHandles ids = pre ++ w :: post → w ∉ pre ∧
        s.EndsAt .cancelled (terminalMessage .cancelled) pre w (r.1.recs w) := by
  have hnodup : (s.liveHandles ids).Nodup := by
    refine ((hids.nodup_iff.mpr s.index.nodupKeys).filterMap fun a b k ha hb => ?_).filter _
    rw [← hi.indexed.id_of_lookup ha, ← hi.indexed.id_of_lookup hb]
  refine (terminateAll_ends hi (fun w hw => ?_) hnodup (by simp)).mono ?_
  · obtain ⟨⟨id, -, hlook⟩, -⟩ := mem_liveHandles.mp hw
    exact hi.indexed.alive_of_lookup hlook
  rintro r ⟨-, hdone, hends⟩
  refine ⟨hdone, fun pre w post heq => ⟨?_, hends pre w post heq ?_⟩⟩
  · rw [heq] at hnodup
    exact fun hw => List.disjoint_of_nodup_append hnodup hw (List.mem_cons_self ..)
  · exact (mem_liveHandles.mp (by rw [heq]; simp)).2

/-- A failure passes to a node exactly when it waits for another under a rule that a failure
breaks. -/
theorem Inv.passes_iff (hi : s.Inv) (hh : s.Alive h) :
    (∃ a, s.net.Passes a (s.recs h).id) ↔
      ((s.recs h).phase = .blocked ∨ (s.recs h).phase = .ready) ∧
        (s.recs h).trigger.strict = true ∧ (s.recs h).deps.unsatisfied ≠ 0 := by
  have hl : s.Laid := ⟨hi.indexed, hi.mirrored⟩
  have ht := hl.net_tallied hi.tallied
  have hcount : (s.recs h).deps.unsatisfied = _ := ht.unsatisfied_eq (hl.cell hh)
  constructor
  · rintro ⟨a, hedge, c, hc, hwaits, hstrict⟩
    obtain rfl := Option.mem_unique (hl.cell hh) hc
    refine ⟨hwaits, hstrict, ?_⟩
    rw [hcount]
    exact Set.ncard_ne_zero_of_mem hedge (ht.finite_open _)
  · rintro ⟨hwaits, hstrict, hne⟩
    rw [hcount] at hne
    obtain ⟨a, ha⟩ := Set.nonempty_of_ncard_ne_zero hne
    exact ⟨a, ha, _, hl.cell hh, hwaits, hstrict⟩

/-- No blocked or ready node whose rule a failure breaks waits for another. -/
def Unlinked (s : Scope) : Prop :=
  ∀ h, s.Alive h → (s.recs h).phase = .blocked ∨ (s.recs h).phase = .ready →
    (s.recs h).trigger.strict = true → (s.recs h).deps.unsatisfied = 0

/-- How a node ends that no other takes along. -/
def cancelledVerdict (r : NodeRec) : Graph.Verdict :=
  if r.phase = .done then (cellOf r).verdict
  else ⟨.error, .cancelled, terminalMessage .cancelled⟩

/-- No failure gets anywhere, so that the order does not matter. -/
theorem cancelListed_unlinked (hi : s.Inv) (hnone : s.Unlinked)
    (hids : ids.Perm s.index.keys) :
    (s.cancelListed ids).All fun r =>
      ∀ h, s.Alive h → (cellOf (r.1.recs h)).verdict = cancelledVerdict (s.recs h) := by
  refine (cancelListed_ends hi hids).mono fun r hr h hh => ?_
  rw [cancelledVerdict]
  split
  · exact hr.1 h hh ‹_›
  rename_i hlive
  obtain ⟨pre, post, heq⟩ := List.append_of_mem (hi.indexed.live_mem hh hlive hids)
  obtain ⟨hpre, ⟨-, hverdict⟩ | ⟨⟨u, hu, hreach⟩, -⟩⟩ := hr.2 pre h post heq
  · exact hverdict
  obtain ⟨⟨id, -, hlook⟩, -⟩ :=
    mem_liveHandles.mp (show u ∈ s.liveHandles ids by simp [heq, hu])
  obtain hid | ⟨b, -, hpass⟩ := hreach.2.cases_tail
  · have hua := hi.indexed.alive_of_lookup hlook
    exact absurd (hi.indexed.id_inj hua hh hid.symm ▸ hu) hpre
  · obtain ⟨hwaits, hstrict, hne⟩ := (hi.passes_iff hh).mp ⟨b, hpass⟩
    exact absurd (hnone h hh hwaits hstrict) hne

/-- A node that waits for another falls with it, if the other comes first. -/
theorem exists_upstreamFailed (hi : s.Inv) (hf : s.Flagged) (hnot : ¬s.Unlinked) :
    ∃ h ids, s.Alive h ∧ (s.recs h).phase ≠ .done ∧ ids.Perm s.index.keys ∧
      (s.cancelListed ids).All fun r => (r.1.recs h).reason = .upstreamFailed := by
  have hl : s.Laid := ⟨hi.indexed, hi.mirrored⟩
  simp only [Unlinked, not_forall] at hnot
  obtain ⟨h, hh, hwaits, hstrict, hne⟩ := hnot
  obtain ⟨a, hpass⟩ := (hi.passes_iff hh).mpr ⟨hwaits, hstrict, hne⟩
  obtain ⟨u, w, hu, hw, hmem⟩ := (hl.edge_iff _ _ _).mp hpass.1
  obtain rfl := Option.mem_unique hw (hi.indexed.lookup_id hh)
  have hulive : (s.recs u).phase ≠ .done := fun hdone => nomatch hf w _ hmem hdone
  have hlive : (s.recs w).phase ≠ .done := by rcases hwaits with h | h <;> simp [h]
  have hwu : w ≠ u :=
    ne_of_mem_succ hi ((hi.mirrored.mem_succ u w).mpr (List.mem_map.mpr ⟨_, hmem, rfl⟩))
  have hids := (List.perm_cons_erase (mem_keys hu)).symm
  have hlist : s.liveHandles (a :: s.index.keys.erase a) =
      u :: s.liveHandles (s.index.keys.erase a) := by
    simp [liveHandles, hu, hulive]
  have hin := hi.indexed.live_mem hh hlive hids
  rw [hlist, List.mem_cons] at hin
  obtain ⟨pre, post, heq⟩ := List.append_of_mem (hin.resolve_left hwu)
  refine ⟨w, _, hh, hlive, hids, (cancelListed_ends hi hids).mono fun r hr => ?_⟩
  have hreach : s.net.Reaches (s.recs u).id (s.recs w).id := by
    refine ⟨(hl.live_iff (hi.indexed.alive_of_lookup hu)).mpr hulive, .single ?_⟩
    rwa [hi.indexed.id_of_lookup hu]
  rcases (hr.2 (u :: pre) w post (by rw [hlist, heq]; rfl)).2 with ⟨hnone, -⟩ | ⟨-, hlost⟩
  · exact absurd hreach (hnone u (List.mem_cons_self ..))
  · exact hlost

end Scope

/-- `CancelScope` has one result, with every live node cancelled, exactly when no node waits
for another under a rule that a failure breaks. -/
theorem cancelScope_determined_iff {st : Store} (hr : Reachable st) {name : String} {s : Scope}
    (hl : st.scopes.lookup name = some s) :
    (s.cancelScope.All fun r =>
      (s.cancelScope.All fun r' => ∀ h, s.Alive h →
        (r'.2.recs h).status = (r.2.recs h).status ∧
        (r'.2.recs h).reason = (r.2.recs h).reason ∧
        (r'.2.recs h).message = (r.2.recs h).message) ∧
      ∀ h, s.Alive h → (s.recs h).phase ≠ .done →
        (r.2.recs h).status = .error ∧ (r.2.recs h).reason = .cancelled) ↔ s.Unlinked := by
  have hs := hr.sound name s hl
  constructor
  · intro hall
    by_contra hnot
    obtain ⟨h, ids, hh, hlive, hids, hlost⟩ := Scope.exists_upstreamFailed hs.inv hs.flagged hnot
    obtain ⟨r, hyields⟩ := Prog.exists_yields (s.cancelListed ids)
    have hreason := (((Scope.cancelScope_all.mp hall ids hids).of_yields hyields).2 h hh hlive).2
    rw [Scope.refreshComplete_recs, hlost.of_yields hyields] at hreason
    cases hreason
  · intro hnone
    rw [Scope.cancelScope_all]
    intro ids hids
    refine (Scope.cancelListed_unlinked hs.inv hnone hids).mono fun r hr => ⟨?_, ?_⟩
    · rw [Scope.cancelScope_all]
      intro ids' hids'
      refine (Scope.cancelListed_unlinked hs.inv hnone hids').mono fun r' hr' h hh => ?_
      have heq := (hr' h hh).trans (hr h hh).symm
      exact ⟨congrArg Graph.Verdict.status heq, congrArg Graph.Verdict.reason heq,
        congrArg Graph.Verdict.message heq⟩
    · intro h hh hlive
      have heq := hr h hh
      rw [Scope.cancelledVerdict, if_neg hlive] at heq
      exact ⟨congrArg Graph.Verdict.status heq, congrArg Graph.Verdict.reason heq⟩

/-- Two nodes that do not depend on each other. -/
def pairCalls : List Call :=
  [{ input := .addNodes "jobs" [{ id := "a" }, { id := "b" }], clock := [10, 11, 12, 13, 14] }]

/-- They are cancelled in either order. -/
theorem pair_cancelled : ∃ st s, Reachable st ∧ st.scopes.lookup "jobs" = some s ∧
    (s.recs 0).phase = .ready ∧ (s.recs 1).phase = .ready ∧
    s.cancelScope.All fun r => ∀ h, s.Alive h → (s.recs h).phase ≠ .done →
      (r.2.recs h).status = .error ∧ (r.2.recs h).reason = .cancelled := by
  obtain ⟨st, s, hr, hl, hp⟩ := exists_jobs pairCalls
    (p := fun s => (s.recs 0).phase = .ready ∧ (s.recs 1).phase = .ready ∧
      (List.range s.size).all fun h => (s.recs h).deps.unsatisfied = 0) (by decide +kernel)
  obtain ⟨ha, hb, hnone⟩ := of_decide_eq_true hp
  refine ⟨st, s, hr, hl, ha, hb, ((cancelScope_determined_iff hr hl).mpr ?_).mono fun r h => h.2⟩
  intro h hh _ _
  have hlt := (hr.sound "jobs" s hl).inv.indexed.lt_size h hh
  exact of_decide_eq_true (List.all_eq_true.mp hnone h (List.mem_range.mpr hlt))

/-- A node `b` that waits for `a`. -/
def linkCalls : List Call :=
  [{ input := .addNodes "jobs" [{ id := "b", deps := ["a"] }, { id := "a" }],
     clock := [10, 11, 12, 13] }]

/-- When `a` is cancelled first, `b` falls with it. -/
theorem link_upstreamFailed : ∃ st s r, Reachable st ∧ st.scopes.lookup "jobs" = some s ∧
    Prog.Yields s.cancelScope r ∧ s.Alive 0 ∧ (s.recs 0).phase = .blocked ∧
    (r.2.recs 0).reason = .upstreamFailed := by
  obtain ⟨st, s, hr, hl, hp⟩ := exists_jobs linkCalls
    (p := fun s => (s.cancelScope.run [20, 21, 22, 23] []).any fun r =>
      (s.recs 0).alive = true ∧ (s.recs 0).phase = .blocked ∧
        (r.2.recs 0).reason = .upstreamFailed) (by decide +kernel)
  obtain ⟨r, hrun, hfacts⟩ := (Option.any_eq_true _ _).mp hp
  exact ⟨st, s, r, hr, hl, Prog.yields_of_run hrun, of_decide_eq_true hfacts⟩

end DagWorker.Memory
