import DagWorker.Postgres.Touched

/-!
# `settleTouched` against fresh reads

The loop of `settleTouched` is compared with the loop that reads every row
immediately before it settles it.  They agree as long as no snapshot is out of date
before some settle has reached another node, and only then.
-/

namespace DagWorker.Postgres.Engine

variable {v : ℕ} {r₀ : NodeRow}

/-! ## The loops -/

section Loops

variable {srv : Server} {e e₀ : Engine} {snapshots : GoMap ℕ NodeRow} {ids : List ℕ}

/-- Once rows are read again, the loop is the one with fresh reads. -/
theorem settleLoop_stale
    (hsnap : ∀ id ∈ ids, (snapshots.lookup id).isSome = (e.rows.lookup id).isSome) :
    settleLoop srv snapshots ids true e = settleFresh srv ids e := by
  induction ids generalizing e with
  | nil => rfl
  | cons id ids ih =>
    have hid := hsnap id (by simp)
    rw [settleLoop, settleFresh, loadForUpdate]
    cases hr : e.rows.lookup id with
    | none =>
      rw [hr, Option.isSome_none, Option.isSome_eq_false_iff, Option.isNone_iff_eq_none] at hid
      rw [hid]
      exact ih fun i hi => hsnap i (by simp [hi])
    | some n =>
      rw [hr, Option.isSome_some, Option.isSome_iff_exists] at hid
      obtain ⟨s, hs⟩ := hid
      have hrest := @ih (e.settle srv id n).1 fun i hi => by
        rw [settle_isSome]
        exact hsnap i (by simp [hi])
      simp only [hs, settleOne, if_true, loadForUpdate, hr, Bool.true_or, hrest]

/-- A node out of reach keeps its row through the rest of the loop. -/
theorem settleLoop_spares {stale : Bool} (hc : e.Closed v) (hv : v ∉ ids) :
    (settleLoop srv snapshots ids stale e).1.rows.lookup v = e.rows.lookup v := by
  induction ids generalizing e stale with
  | nil => rfl
  | cons id ids ih =>
    rw [List.mem_cons, not_or] at hv
    obtain ⟨hne, hv⟩ := hv
    rw [settleLoop]
    split
    · exact ih hc hv
    rename_i n _
    have hone : (e.settleOne srv id n stale).1.rows.lookup v = e.rows.lookup v ∧
        (e.settleOne srv id n stale).1.Closed v := by
      rw [settleOne]
      split
      · exact ⟨rfl, hc⟩
      · next m _ =>
          have htouches : Touches (· ≠ v) e [] (e.settle srv id m).1 _ :=
            settle_touches hc.absorbs (Ne.symm hne) m
          exact ⟨htouches.row v (not_not.mpr rfl), htouches.closed hc⟩
    exact (ih hone.2 hv).trans hone.1

theorem settleFresh_spares (hc : e.Closed v) (hv : v ∉ ids) :
    (settleFresh srv ids e).1.rows.lookup v = e.rows.lookup v := by
  have hloop : settleLoop srv e.rows ids true e = settleFresh srv ids e :=
    settleLoop_stale fun _ _ => rfl
  rw [← hloop]
  exact settleLoop_spares hc hv

end Loops

/-! ## Faithfulness along the list -/

/-- `Faithful` for the rest `ids` of the list, when `pre` has been settled without
reaching another node. -/
def FaithfulFrom (e : Engine) (pre ids : List ℕ) : Prop :=
  ∀ mid v post, ids = mid ++ v :: post → e.Misled (pre ++ mid) v →
    ∃ a u b, mid = a ++ u :: b ∧ e.Reaches (pre ++ a) u

theorem faithfulFrom_cons {e : Engine} {pre ids : List ℕ} :
    e.FaithfulFrom pre (v :: ids) ↔
      ¬ e.Misled pre v ∧ (e.Reaches pre v ∨ e.FaithfulFrom (pre ++ [v]) ids) := by
  constructor
  · intro h
    refine ⟨fun hmis => ?_, or_iff_not_imp_left.mpr fun hreach mid w post hids hmis => ?_⟩
    · obtain ⟨a, u, b, hnil, -⟩ := h [] v ids rfl (by simpa using hmis)
      simp at hnil
    obtain ⟨a, u, b, hmid, hu⟩ := h (v :: mid) w post (by simp [hids]) (by simpa using hmis)
    cases a with
    | nil =>
      obtain ⟨rfl, -⟩ := List.cons.inj hmid
      exact absurd (by simpa using hu) hreach
    | cons x a =>
      obtain ⟨rfl, rfl⟩ := List.cons.inj hmid
      exact ⟨a, u, b, rfl, by simpa using hu⟩
  · rintro ⟨hmis, hrest⟩ mid w post hids hw
    cases mid with
    | nil =>
      obtain ⟨rfl, -⟩ := List.cons.inj hids
      exact absurd (by simpa using hw) hmis
    | cons x mid =>
      obtain ⟨rfl, rfl⟩ := List.cons.inj hids
      rcases hrest with hreach | hrest
      · exact ⟨[], v, mid, rfl, by simpa using hreach⟩
      · obtain ⟨a, u, b, rfl, hu⟩ := hrest mid w post rfl (by simpa using hw)
        exact ⟨v :: a, u, b, rfl, by simpa using hu⟩

/-! ## Agreement and divergence -/

section Compare

variable {srv : Server} {e e₀ : Engine} {snapshots : GoMap ℕ NodeRow} {pre ids : List ℕ}

theorem Tracks.isSome (ht : Tracks e₀ pre e) (id : ℕ) :
    (e.rows.lookup id).isSome = (e₀.rows.lookup id).isSome := by
  cases hr : e₀.rows.lookup id with
  | none => rw [ht.absent id hr]
  | some r₀ =>
    obtain ⟨r, hr', -⟩ := ht.row id r₀ hr
    rw [hr']
    rfl

theorem not_reaches_of_none (hr : e.rows.lookup v = none) : ¬ e.Reaches pre v := by
  rintro ⟨r, hr', -⟩
  rw [hr] at hr'
  cases hr'

/-- One round of the loop on a row of the snapshot that is up to date. -/
theorem settleLoop_cons (hs : snapshots.lookup v = some r₀) :
    settleLoop srv snapshots (v :: ids) false e =
      ((settleLoop srv snapshots ids
          ((e.settle srv v r₀).2.any fun ef => ef.nodeID ≠ r₀.nodeID) (e.settle srv v r₀).1).1,
        (e.settle srv v r₀).2 ++ (settleLoop srv snapshots ids
          ((e.settle srv v r₀).2.any fun ef => ef.nodeID ≠ r₀.nodeID)
          (e.settle srv v r₀).1).2) := by
  simp only [settleLoop, hs, settleOne, Bool.false_or]
  rfl

theorem settleFresh_cons {r : NodeRow} (hr : e.rows.lookup v = some r) :
    settleFresh srv (v :: ids) e =
      ((settleFresh srv ids (e.settle srv v r).1).1,
        (e.settle srv v r).2 ++ (settleFresh srv ids (e.settle srv v r).1).2) := by
  simp only [settleFresh, loadForUpdate, hr]

/-- The outdated snapshot of a claimable node whose rule failures have satisfied:
the loop blocks it, a fresh read leaves it alone. -/
theorem Tracks.settle_misled (ht : Tracks e₀ pre e) (hv : v ∉ pre)
    (hr₀ : e₀.rows.lookup v = some r₀) (hmis : e₀.Misled pre v) :
    r₀.phase = .ready ∧ e.settle srv v r₀ = (e.makeBlocked v r₀, []) ∧
      e.settle srv v { r₀ with deps := e₀.tallyAfter pre v r₀.deps } = (e, []) := by
  obtain ⟨r, hr, hp, hunsat, hnot, hready⟩ := hmis
  obtain rfl := Option.mem_unique hr₀ hr
  have hne : e₀.tallyAfter pre v r₀.deps ≠ r₀.deps := fun h => by
    rw [h, hnot] at hready
    cases hready
  obtain ⟨-, hunsat', -⟩ := (ht.calm v r₀ hv hr₀ (.inr hp)).resolve_left hne
  refine ⟨hp, ?_, ?_⟩
  · simp [settle, hp, hunsat, hnot]
  · simp [settle, hp, hunsat', hready]

/-- Without an outdated snapshot the loop is the one with fresh reads.  After one, a node is
blocked by the loop and left claimable by fresh reads. -/
theorem settleLoop_cases (hw : e₀.WellFormed) (ht : Tracks e₀ pre e) (hnd : (pre ++ ids).Nodup)
    (hsnap : ∀ id ∈ ids, snapshots.lookup id = e₀.rows.lookup id) :
    (e₀.FaithfulFrom pre ids ∧
        settleLoop srv snapshots ids false e = settleFresh srv ids e) ∨
      (¬ e₀.FaithfulFrom pre ids ∧ ∃ v,
        ((settleLoop srv snapshots ids false e).1.rows.lookup v).map NodeRow.phase =
            some .blocked ∧
          ((settleFresh srv ids e).1.rows.lookup v).map NodeRow.phase = some .ready) := by
  induction ids generalizing pre e with
  | nil => exact .inl ⟨fun mid v post h => by simp at h, rfl⟩
  | cons v ids ih =>
    have hv : v ∉ pre := fun h => List.disjoint_of_nodup_append hnd h (by simp)
    have hnd' : (pre ++ [v] ++ ids).Nodup := by simpa using hnd
    have hsnap' : ∀ id ∈ ids, snapshots.lookup id = e₀.rows.lookup id :=
      fun id hid => hsnap id (.tail _ hid)
    have hs := hsnap v (by simp)
    rw [faithfulFrom_cons]
    by_cases hmis : e₀.Misled pre v
    · obtain ⟨r₀, hr₀, -⟩ := id hmis
      rw [hr₀] at hs
      have hrow := ht.row_eq hv hr₀
      have hclosed := ht.closed_of_misled hw (List.Nodup.of_append_left hnd) hmis
      have hlast : v ∉ ids := (List.nodup_cons.mp (List.Nodup.of_append_right hnd)).1
      obtain ⟨hp, hstale, hfresh⟩ : r₀.phase = .ready ∧
          e.settle srv v r₀ = (e.makeBlocked v r₀, []) ∧
          e.settle srv v { r₀ with deps := e₀.tallyAfter pre v r₀.deps } = (e, []) :=
        ht.settle_misled hv hr₀ hmis
      refine .inr ⟨fun h => h.1 hmis, v, ?_, ?_⟩
      · have hclosed' : (e.makeBlocked v r₀).Closed v := by
          rw [Closed, makeBlocked_edges]
          exact hclosed
        rw [settleLoop_cons hs, hstale]
        rw [settleLoop_spares hclosed' hlast, makeBlocked_lookup, if_pos rfl, hrow]
        rfl
      · rw [settleFresh_cons hrow, hfresh]
        rw [settleFresh_spares hclosed hlast, hrow]
        exact congrArg some hp
    · cases hr₀ : e₀.rows.lookup v with
      | none =>
        rw [hr₀] at hs
        rw [settleLoop, hs, settleFresh, loadForUpdate, ht.absent v hr₀]
        simpa [hmis, not_reaches_of_none hr₀] using ih (ht.pass hr₀) hnd' hsnap'
      | some r₀ =>
        rw [hr₀] at hs
        rw [settleLoop_cons hs, settleFresh_cons (ht.row_eq hv hr₀),
          ht.settle_snapshot hv hr₀ hmis]
        rcases ht.settle_cases hw hv hr₀ with ⟨hreach, hown, ht'⟩ | ⟨hreach, ef, hef, hne⟩
        · have hcas : ((e.settle srv v r₀).2.any fun ef => ef.nodeID ≠ r₀.nodeID) = false := by
            rw [List.any_eq_false]
            intro ef hef
            simp [hown ef hef]
          rw [hcas]
          rcases ih ht' hnd' hsnap' with ⟨hf, heq⟩ | ⟨hf, hdiff⟩
          · exact .inl ⟨⟨hmis, .inr hf⟩, by rw [heq]⟩
          · exact .inr ⟨fun h => hf (h.2.resolve_left hreach), hdiff⟩
        · -- the effects name another node, and from here on rows are read again
          have hcas : ((e.settle srv v r₀).2.any fun ef => ef.nodeID ≠ r₀.nodeID) = true :=
            List.any_eq_true.mpr ⟨ef, hef, by simpa using hne⟩
          rw [hcas, settleLoop_stale fun id hid => ?_]
          · exact .inl ⟨⟨hmis, .inl hreach⟩, rfl⟩
          · rw [hsnap' id hid, settle_isSome, ht.isSome]

end Compare

/-! ## The comparison -/

/-- What settling decides of a node: phase, status, reason and tally. -/
def observed (e : Engine) (id : ℕ) : Option (Phase × Status × Reason × DepCounts) :=
  (e.rows.lookup id).map fun r => (r.phase, r.status, r.reason, r.deps)

/-- Two ways of settling leave every node alike and emit the same effects. -/
def SameOutcome (x y : Engine × List Effect) : Prop :=
  x.2 = y.2 ∧ ∀ id, x.1.observed id = y.1.observed id

/-- `settleTouched` settles like fresh reads exactly if no snapshot is out of date
before some settle has reached another node. -/
theorem settleTouched_sameOutcome_iff (srv : Server) (e : Engine) (ids : List ℕ)
    (hw : e.WellFormed) (hnd : ids.Nodup) :
    SameOutcome (e.settleTouched srv ids) (settleFresh srv ids e) ↔ e.Faithful ids := by
  have hstart : e.Faithful ids ↔ e.FaithfulFrom [] ids := by simp [Faithful, FaithfulFrom]
  have hloop : e.settleTouched srv ids =
      settleLoop srv (snapshotsOf (e.loadManyForUpdate ids)) ids false e := by
    rw [settleTouched]
    split
    · rename_i h
      rw [h]
      rfl
    · rfl
  have hsnap : ∀ id ∈ ids, (snapshotsOf (e.loadManyForUpdate ids)).lookup id = e.rows.lookup id :=
    fun id hid => snapshotsOf_loadMany hnd hid
  rw [hloop, hstart]
  rcases settleLoop_cases hw (Tracks.refl e) hnd hsnap with
    ⟨hf, heq⟩ | ⟨hf, v, hblocked, hready⟩
  · refine iff_of_true ?_ hf
    rw [heq]
    exact ⟨rfl, fun _ => rfl⟩
  refine iff_of_false (fun hsame => ?_) hf
  have hphase := congrArg (Option.map Prod.fst) (hsame.2 v)
  rw [observed, observed, Option.map_map, Option.map_map] at hphase
  have : some Phase.blocked = some Phase.ready := hblocked.symm.trans (hphase.trans hready)
  cases this

theorem WellFormed.of_entries {e : Engine}
    (hid : ∀ x ∈ e.rows.entries, ∀ y ∈ e.rows.entries, x.2.nodeID = y.2.nodeID → x.1 = y.1)
    (htarget : ∀ x ∈ e.edges.entries, (e.rows.lookup x.1.2).isSome = true)
    (hcount : ∀ x ∈ e.rows.entries, x.2.deps.unsatisfied =
      (e.edges.keys.filter fun k => k.2 = x.1 ∧ e.edges.lookup k = some false).length) :
    e.WellFormed where
  nodeID_inj := fun _ _ _ _ hr hs h =>
    hid _ (AList.mem_lookup_iff.mp hr) _ (AList.mem_lookup_iff.mp hs) h
  targeted := fun _ _ _ h => htarget _ (AList.mem_lookup_iff.mp h)
  unsatisfied_eq := fun _ _ hr => hcount _ (AList.mem_lookup_iff.mp hr)

instance (e : Engine) (pre : List ℕ) (v : ℕ) : Decidable (e.Misled pre v) :=
  match h : e.rows.lookup v with
  | none => isFalse fun ⟨r, hr, _⟩ => by rw [h] at hr; cases hr
  | some r => decidable_of_iff
      (r.phase = .ready ∧ r.deps.unsatisfiable r.trigger = false ∧
        r.deps.ready r.trigger = false ∧ (e.tallyAfter pre v r.deps).ready r.trigger = true)
      ⟨fun hr => ⟨r, h, hr⟩, fun ⟨r', hr', hp⟩ => by
        rw [h, Option.some.injEq] at hr'
        rwa [hr']⟩

/-- A failed node, a claimable node just linked to it, and a claimable node that
accepts failures just linked to that one. -/
def chainEngine : Engine where
  rows := ([⟨1, { nodeID := "f", phase := .done, status := .error, reason := .workerError }⟩,
    ⟨2, { nodeID := "a", phase := .ready, deps := { failed := 1 } }⟩,
    ⟨3, { nodeID := "b", phase := .ready, trigger := .allDone, deps := { unsatisfied := 1 } }⟩] :
      List (Sigma fun _ : ℕ => NodeRow)).toAList
  edges := ([⟨(1, 2), true⟩, ⟨(2, 3), false⟩] : List (Sigma fun _ : ℕ × ℕ => Bool)).toAList

def chainServer : Server where
  event := fun n => (n + 1, n)
  fifo := fun n => n + 1

theorem chainEngine_wellFormed : chainEngine.WellFormed :=
  WellFormed.of_entries (by decide) (by decide) (by decide)

theorem chainEngine_faithful : chainEngine.Faithful [3, 2] := by
  have h : chainEngine.FaithfulFrom [] [3, 2] :=
    faithfulFrom_cons.mpr ⟨by decide, .inr (faithfulFrom_cons.mpr ⟨by decide,
      .inr fun mid v post hnil => by simp at hnil⟩)⟩
  simpa [Faithful, FaithfulFrom] using h

/-- Settled from the last node to the first, the chain comes out alike. -/
theorem chain_sameOutcome :
    SameOutcome (chainEngine.settleTouched chainServer [3, 2])
      (settleFresh chainServer [3, 2] chainEngine) :=
  (settleTouched_sameOutcome_iff chainServer chainEngine [3, 2] chainEngine_wellFormed
    (by decide)).mpr chainEngine_faithful

/-- Settled from the first node to the last, the last node is left blocked with a
tally that satisfies its rule, where a fresh read would leave it claimable. -/
theorem chain_left_blocked :
    chainEngine.WellFormed ∧ [2, 3].Nodup ∧
      ((chainEngine.settleTouched chainServer [2, 3]).1.rows.lookup 3).map
        (fun r => (r.phase, r.deps.ready r.trigger)) = some (.blocked, true) ∧
      ((settleFresh chainServer [2, 3] chainEngine).1.rows.lookup 3).map
        (fun r => (r.phase, r.deps.ready r.trigger)) = some (.ready, true) := by
  refine ⟨chainEngine_wellFormed, ?_, ?_, ?_⟩ <;> decide +kernel

end DagWorker.Postgres.Engine
