import DagWorker.Redis.Quiet

/-!
# Edits of the graph

Linking and unlinking, creating and deleting.  Two things are kept, each by every script on
its own terms: the two halves of an edge stay in step (`Wired`), and the level of an
identifier, its epoch or the floor it would start from, does not fall (`Aged`).
-/

namespace DagWorker.Redis

open Function

variable {s t s₀ : State} {u a b v id : NodeID} {β : Type} {j : Journal}
variable (f : β → NodeID) (edges : List (NodeID × NodeID)) (g : β → NodeID) (touched : List NodeID)
  (l : List β)

namespace State

/-! ## Levels -/

/-- The epoch of a node, or the floor a new one would start from. -/
def level (s : State) (id : NodeID) : ℕ := (s.epochOf id).getD s.stats.epochFloor

/-- No epoch is above `k`. -/
def Below (s : State) (k : ℕ) : Prop := s.stats.epochFloor ≤ k ∧ ∀ id, s.level id ≤ k

/-- No level has fallen, the highest has not risen, and no lease is new. -/
structure Aged (s t : State) : Prop where
  level : ∀ id, s.level id ≤ t.level id
  below : ∀ k, s.Below k → t.Below k
  calm : ∀ id e, t.ClaimedAt id e → s.ClaimedAt id e

theorem Aged.trans {u : State} (h : Aged s t) (h' : Aged t u) : Aged s u :=
  ⟨fun id => (h.level id).trans (h'.level id), fun k hk => h'.below k (h.below k hk),
    fun id e hu => h.calm id e (h'.calm id e hu)⟩

theorem Still.level (h : Still s t) (id : NodeID) : t.level id = s.level id := by
  rw [State.level, State.level, h.epoch, h.floor]

theorem Still.aged (h : Still s t) : Aged s t where
  level id := (h.level id).ge
  below _ hk := ⟨h.floor.le.trans hk.1, fun id => (h.level id).le.trans (hk.2 id)⟩
  calm := h.calm

/-! ## Graphs -/

/-- The edges name existing nodes and are stored on both sides. -/
structure Wired (s : State) : Prop where
  mirrored : ∀ u v, v ∈ s.succ u ↔ s.hasEdge u v = true
  exist : ∀ u v, s.hasEdge u v = true → s.has u = true ∧ s.has v = true

theorem hasEdge_iff (s : State) (u v : NodeID) : s.hasEdge u v = true ↔ u ∈ (s.pred v).keys := by
  rw [hasEdge, AList.lookup_isSome, AList.mem_keys]

/-- The same nodes and the same edges. -/
structure SameGraph (s t : State) : Prop where
  has : ∀ id, t.has id = s.has id
  succ : t.succ = s.succ
  edge : ∀ u v, t.hasEdge u v = s.hasEdge u v

theorem SameGraph.refl (s : State) : SameGraph s s := ⟨fun _ => rfl, rfl, fun _ _ => rfl⟩

theorem SameGraph.trans {u : State} (h : SameGraph s t) (h' : SameGraph t u) :
    SameGraph s u :=
  ⟨fun id => (h'.has id).trans (h.has id), h'.succ.trans h.succ,
    fun a b => (h'.edge a b).trans (h.edge a b)⟩

theorem Quiet.sameGraph (h : Quiet s t) : SameGraph s t :=
  ⟨h.toStill.has, h.succ, h.edge⟩

theorem SameGraph.wired (h : SameGraph s t) (hs : s.Wired) : t.Wired := by
  refine ⟨fun u v => ?_, fun u v huv => ?_⟩
  · rw [h.succ, h.edge]
    exact hs.mirrored u v
  · rw [h.edge] at huv
    rw [h.has, h.has]
    exact hs.exist u v huv

/-! ## Linking and unlinking -/

theorem mem_addSucc (s : State) (id w u v : NodeID) :
    v ∈ (s.addSucc id w).succ u ↔ v ∈ s.succ u ∨ u = id ∧ v = w := by
  by_cases hu : u = id
  · subst hu
    simp only [addSucc, update_self, true_and]
    split
    · next hw =>
        constructor
        · exact .inl
        · rintro (h | rfl)
          · exact h
          · exact hw
    · simp
  · simp [addSucc, hu]

theorem mem_remSucc (s : State) (id w u v : NodeID) :
    v ∈ (s.remSucc id w).succ u ↔ v ∈ s.succ u ∧ ¬(u = id ∧ v = w) := by
  by_cases hu : u = id
  · subst hu
    simp [remSucc]
  · simp [remSucc, hu]

theorem hasEdge_delPred (s : State) (id source u v : NodeID) :
    (s.delPred id source).hasEdge u v = (s.hasEdge u v && !decide (u = source ∧ v = id)) := by
  by_cases hv : v = id
  · subst hv
    by_cases hu : u = source
    · subst hu
      simp [hasEdge, delPred]
    · simp [hasEdge, delPred, hu, AList.lookup_erase_ne]
  · simp [hasEdge, delPred, hv]

theorem still_setPred_addSucc (s : State) (u v : NodeID) (b : Bool) :
    Still s ((s.setPred v u b).addSucc u v) :=
  Still.of_nodes rfl rfl

/-- `linkEdge` up to the tally of the target. -/
theorem quiet_linkEdge (s : State) (u v : NodeID) :
    ∃ b, Quiet ((s.setPred v u b).addSucc u v) (s.linkEdge u v) := by
  refine ⟨(s.node u).any fun n => n.phase = .done, ?_⟩
  unfold linkEdge
  cases s.node u with
  | none => exact quiet_countDep
  | some n => exact quiet_countDep

theorem still_linkEdge (s : State) (u v : NodeID) : Still s (s.linkEdge u v) := by
  obtain ⟨b, hb⟩ := s.quiet_linkEdge u v
  exact (s.still_setPred_addSucc u v b).trans hb.toStill

theorem hasEdge_linkEdge (s : State) (a b u v : NodeID) :
    (s.linkEdge a b).hasEdge u v = (s.hasEdge u v || decide (u = a ∧ v = b)) := by
  obtain ⟨x, hx⟩ := s.quiet_linkEdge a b
  rw [hx.edge]
  exact s.hasEdge_setPred b a x u v

theorem Wired.linkEdge (h : s.Wired) (ha : s.has a = true)
    (hb : s.has b = true) : (s.linkEdge a b).Wired := by
  obtain ⟨x, hx⟩ := s.quiet_linkEdge a b
  refine ⟨fun u v => ?_, fun u v huv => ?_⟩
  · rw [hx.succ, mem_addSucc, hasEdge_linkEdge, Bool.or_eq_true, decide_eq_true_eq]
    exact or_congr_left (h.mirrored u v)
  rw [(s.still_linkEdge a b).has, (s.still_linkEdge a b).has]
  rw [hasEdge_linkEdge, Bool.or_eq_true, decide_eq_true_eq] at huv
  rcases huv with huv | ⟨rfl, rfl⟩
  · exact h.exist u v huv
  · exact ⟨ha, hb⟩

/-- `unlinkEdge` of an edge that exists, up to the tally of the target. -/
theorem quiet_unlinkEdge (h : s.unlinkEdge u v = some t) :
    ∃ mid, Quiet (s.delPred v u) mid ∧ t = mid.remSucc u v := by
  unfold unlinkEdge at h
  cases hl : (s.pred v).lookup u with
  | none => simp [hl] at h
  | some b =>
    simp only [hl, Option.some.injEq] at h
    exact ⟨_, quiet_uncountDep, h.symm⟩

theorem still_unlinkEdge (h : s.unlinkEdge u v = some t) :
    Still s t := by
  obtain ⟨mid, hmid, rfl⟩ := quiet_unlinkEdge h
  have hdel : Still s (s.delPred v u) := Still.of_nodes rfl rfl
  exact (hdel.trans hmid.toStill).trans (Still.of_nodes rfl rfl)

theorem hasEdge_of_unlinkEdge (h : s.unlinkEdge a b = some t)
    (u v : NodeID) : t.hasEdge u v = (s.hasEdge u v && !decide (u = a ∧ v = b)) := by
  obtain ⟨mid, hmid, rfl⟩ := quiet_unlinkEdge h
  exact (hmid.edge u v).trans (s.hasEdge_delPred b a u v)

theorem unlinkEdge_eq_none :
    s.unlinkEdge u v = none ↔ s.hasEdge u v = false := by
  unfold unlinkEdge hasEdge
  cases (s.pred v).lookup u <;> simp

theorem Wired.of_unlinkEdge (hs : s.Wired)
    (h : s.unlinkEdge a b = some t) : t.Wired := by
  refine ⟨fun u v => ?_, fun u v huv => ?_⟩
  · rw [hasEdge_of_unlinkEdge h, Bool.and_eq_true, Bool.not_eq_true', decide_eq_false_iff_not,
      ← hs.mirrored]
    obtain ⟨mid, hmid, rfl⟩ := quiet_unlinkEdge h
    rw [mem_remSucc, hmid.succ]
    rfl
  · rw [hasEdge_of_unlinkEdge h, Bool.and_eq_true] at huv
    rw [(still_unlinkEdge h).has, (still_unlinkEdge h).has]
    exact hs.exist u v huv.1

theorem unlink_eq_or (s : State) (u v : NodeID) :
    s.unlinkEdge u v = some (s.unlink u v) ∨ s.hasEdge u v = false ∧ s.unlink u v = s := by
  cases h : s.unlinkEdge u v with
  | none => exact .inr ⟨unlinkEdge_eq_none.mp h, by simp [unlink, h]⟩
  | some t => exact .inl (by simp [unlink, h])

theorem hasEdge_unlink (s : State) (a b u v : NodeID) :
    (s.unlink a b).hasEdge u v = (s.hasEdge u v && !decide (u = a ∧ v = b)) := by
  rcases s.unlink_eq_or a b with h | ⟨hne, h⟩
  · exact hasEdge_of_unlinkEdge h u v
  rw [h]
  by_cases huv : u = a ∧ v = b
  · obtain ⟨rfl, rfl⟩ := huv
    simp [hne]
  · simp [huv]

/-- A loop of `unlinkEdge` removes the listed edges and no other. -/
theorem hasEdge_unlink_foldl (s : State) (u v : NodeID) :
    (l.foldl (fun s b => s.unlink (f b) (g b)) s).hasEdge u v = true ↔
      s.hasEdge u v = true ∧ ∀ b ∈ l, ¬(u = f b ∧ v = g b) := by
  induction l generalizing s with
  | nil => simp
  | cons b l ih =>
    rw [List.foldl_cons, ih, hasEdge_unlink, List.forall_mem_cons, Bool.and_eq_true,
      Bool.not_eq_true', decide_eq_false_iff_not, and_assoc]

/-! ## Creating and deleting -/

theorem createNode_has (s : State) (spec : SpecArgs) (nowMs : Int) (x : NodeID) :
    (s.createNode spec nowMs).has x = (s.has x || decide (x = spec.id)) := by
  by_cases hx : x = spec.id
  · subst hx
    simp [createNode, has, node, adjustBucket, adjustTotal]
  · simp [createNode, has, node, adjustBucket, adjustTotal, hx, AList.lookup_insert_ne]

theorem Wired.createNode (h : s.Wired) (spec : SpecArgs) (nowMs : Int) :
    (s.createNode spec nowMs).Wired := by
  refine ⟨h.mirrored, fun u v huv => ?_⟩
  obtain ⟨hu, hv⟩ := h.exist u v huv
  simp [createNode_has, hu, hv]

theorem delKeys_has (s : State) (id x : NodeID) :
    (s.delKeys id).has x = (s.has x && !decide (x = id)) := by
  by_cases hx : x = id
  · subst hx
    simp [delKeys, has, node]
  · simp [delKeys, has, node, hx, AList.lookup_erase_ne]

theorem hasEdge_delKeys (s : State) (id u v : NodeID) :
    (s.delKeys id).hasEdge u v = (s.hasEdge u v && !decide (v = id)) := by
  by_cases hv : v = id
  · subst hv
    simp [delKeys, hasEdge]
  · simp [delKeys, hasEdge, hv]

/-- Deleting the keys of a node keeps the graph intact when the node has no edges. -/
theorem Wired.delKeys (h : s.Wired)
    (hin : ∀ u, s.hasEdge u id = false) (hout : ∀ v, s.hasEdge id v = false) :
    (s.delKeys id).Wired := by
  have hsucc : ∀ u v, v ∈ (s.delKeys id).succ u ↔ v ∈ s.succ u := by
    intro u v
    by_cases hu : u = id
    · subst hu
      simp [State.delKeys, h.mirrored, hout]
    · simp [State.delKeys, hu]
  have hedge : ∀ u v, (s.delKeys id).hasEdge u v = s.hasEdge u v := by
    intro u v
    rw [hasEdge_delKeys]
    by_cases hv : v = id
    · simp [hv, hin]
    · simp [hv]
  refine ⟨fun u v => by rw [hsucc, hedge, h.mirrored], fun u v huv => ?_⟩
  rw [hedge] at huv
  obtain ⟨hu, hv⟩ := h.exist u v huv
  have hune : u ≠ id := by rintro rfl; simp [hout] at huv
  have hvne : v ≠ id := by rintro rfl; simp [hin] at huv
  simp [delKeys_has, hu, hv, hune, hvne]

theorem sameGraph_retireEpoch (s : State) (id : NodeID) : SameGraph s (s.retireEpoch id) := by
  unfold retireEpoch
  simp only
  split <;> exact ⟨fun _ => rfl, rfl, fun _ _ => rfl⟩

theorem hasEdge_deleteNodeKeys (s : State) (id u v : NodeID) :
    (s.deleteNodeKeys id).hasEdge u v = (s.hasEdge u v && !decide (v = id)) := by
  rw [deleteNodeKeys, hasEdge_delKeys, (s.sameGraph_retireEpoch id).edge]

theorem Wired.deleteNodeKeys (h : s.Wired)
    (hin : ∀ u, s.hasEdge u id = false) (hout : ∀ v, s.hasEdge id v = false) :
    (s.deleteNodeKeys id).Wired := by
  have hg := s.sameGraph_retireEpoch id
  refine (hg.wired h).delKeys (fun u => ?_) fun v => ?_
  · rw [hg.edge, hin]
  · rw [hg.edge, hout]

theorem epochOf_createNode (s : State) (spec : SpecArgs) (nowMs : Int) (x : NodeID) :
    (s.createNode spec nowMs).epochOf x =
      if x = spec.id then some s.stats.epochFloor else s.epochOf x := by
  by_cases hx : x = spec.id
  · subst hx
    simp [createNode, epochOf, node, adjustBucket, adjustTotal]
  · simp [createNode, epochOf, node, adjustBucket, adjustTotal, hx, AList.lookup_insert_ne]

/-- A new node starts from the floor. -/
theorem aged_createNode {spec : SpecArgs} (hfresh : s.has spec.id = false)
    (nowMs : Int) : Aged s (s.createNode spec nowMs) := by
  have hnone : s.epochOf spec.id = none := by simpa [has_eq_isSome_epochOf] using hfresh
  have hfloor : (s.createNode spec nowMs).stats.epochFloor = s.stats.epochFloor :=
    epochFloor_adjust _ .blocked .new 1
  have hlevel : ∀ x, (s.createNode spec nowMs).level x = s.level x := by
    intro x
    rw [level, level, epochOf_createNode, hfloor]
    split
    · next hx => simp [hx, hnone]
    · rfl
  refine ⟨fun x => (hlevel x).ge,
    fun k hk => ⟨hfloor.le.trans hk.1, fun x => (hlevel x).le.trans (hk.2 x)⟩, ?_⟩
  rintro x e ⟨n, hn, hclaimed, he⟩
  by_cases hx : x = spec.id
  · subst hx
    simp only [createNode, node, adjustBucket, adjustTotal, AList.lookup_insert,
      Option.some.injEq] at hn
    subst hn
    cases hclaimed
  · simp only [createNode, node, adjustBucket, adjustTotal, AList.lookup_insert_ne hx] at hn
    exact ⟨n, hn, hclaimed, he⟩

theorem epochOf_delKeys (s : State) (id x : NodeID) :
    (s.delKeys id).epochOf x = if x = id then none else s.epochOf x := by
  by_cases hx : x = id
  · subst hx
    simp [delKeys, epochOf, node]
  · simp [delKeys, epochOf, node, hx, AList.lookup_erase_ne]

/-- Deleting a node whose epoch the floor has reached. -/
theorem aged_delKeys
    (hretired : ∀ e, s.epochOf id = some e → e ≤ s.stats.epochFloor) :
    Aged s (s.delKeys id) := by
  have hlevel : ∀ x, (s.delKeys id).level x =
      if x = id then s.stats.epochFloor else s.level x := by
    intro x
    rw [level, epochOf_delKeys]
    split <;> rfl
  refine ⟨fun x => ?_, fun k hk => ⟨hk.1, fun x => ?_⟩, ?_⟩
  · rw [hlevel]
    split
    · next hx =>
        subst hx
        cases he : s.epochOf x with
        | none => simp [level, he]
        | some e => simpa [level, he] using hretired e he
    · exact le_rfl
  · rw [hlevel]
    split
    · exact hk.1
    · exact hk.2 x
  · rintro x e ⟨n, hn, h⟩
    by_cases hx : x = id
    · subst hx
      simp [delKeys, node] at hn
    · simp only [delKeys, node, AList.lookup_erase_ne hx] at hn
      exact ⟨n, hn, h⟩

theorem node_retireEpoch (s : State) (id x : NodeID) :
    (s.retireEpoch id).node x = s.node x := by
  unfold retireEpoch
  simp only
  split <;> rfl

theorem epochFloor_retireEpoch (s : State) (id : NodeID) :
    (s.retireEpoch id).stats.epochFloor = max s.stats.epochFloor ((s.epochOf id).getD 0) := by
  unfold retireEpoch
  simp only
  split
  · next hlt => exact (max_eq_right hlt.le).symm
  · next hle => exact (max_eq_left (not_lt.mp hle)).symm

theorem aged_retireEpoch (s : State) (id : NodeID) : Aged s (s.retireEpoch id) := by
  have hepoch : ∀ x, (s.retireEpoch id).epochOf x = s.epochOf x := fun x => by
    rw [epochOf, node_retireEpoch, epochOf]
  refine ⟨fun x => ?_, fun k hk => ?_, ?_⟩
  · rw [level, level, hepoch, epochFloor_retireEpoch]
    cases s.epochOf x with
    | none => exact le_max_left _ _
    | some e => exact le_rfl
  · have hid : (s.epochOf id).getD 0 ≤ k := by
      have hlevel := hk.2 id
      unfold level at hlevel
      cases he : s.epochOf id with
      | none => exact Nat.zero_le k
      | some e => simpa [he] using hlevel
    have hfloor : (s.retireEpoch id).stats.epochFloor ≤ k := by
      rw [epochFloor_retireEpoch]
      exact max_le hk.1 hid
    refine ⟨hfloor, fun x => ?_⟩
    have hlevel := hk.2 x
    unfold level at hlevel ⊢
    rw [hepoch]
    cases he : s.epochOf x with
    | none => exact hfloor
    | some e => simpa [he] using hlevel
  · rintro x e ⟨n, hn, h⟩
    exact ⟨n, (s.node_retireEpoch id x).symm.trans hn, h⟩

/-- `deleteNodeKeys` raises the floor to the epoch of the node first. -/
theorem aged_deleteNodeKeys (s : State) (id : NodeID) : Aged s (s.deleteNodeKeys id) := by
  refine (s.aged_retireEpoch id).trans (aged_delKeys fun e he => ?_)
  rw [epochOf, node_retireEpoch] at he
  rw [epochFloor_retireEpoch, epochOf, he]
  exact le_max_right _ _

/-! ## Changes -/

/-- What every script but a collection and a claim does to levels and edges. -/
structure Change (s t : State) : Prop where
  aged : Aged s t
  wired : s.Wired → t.Wired

theorem Change.trans {u : State} (h : Change s t) (h' : Change t u) : Change s u :=
  ⟨h.aged.trans h'.aged, fun hs => h'.wired (h.wired hs)⟩

theorem Quiet.change (h : Quiet s t) : Change s t :=
  ⟨h.toStill.aged, h.sameGraph.wired⟩

theorem Change.refl (s : State) : Change s s := (Quiet.refl s).change

theorem Change.of_unlinkEdge (h : s.unlinkEdge u v = some t) : Change s t :=
  ⟨(still_unlinkEdge h).aged, fun hs => hs.of_unlinkEdge h⟩

theorem change_unlink (s : State) (u v : NodeID) : Change s (s.unlink u v) := by
  rcases s.unlink_eq_or u v with h | ⟨-, h⟩
  · exact .of_unlinkEdge h
  · rw [h]
    exact .refl s

theorem change_unlink_foldl (s : State) :
    Change s (l.foldl (fun s b => s.unlink (f b) (g b)) s) := by
  induction l generalizing s with
  | nil => exact .refl s
  | cons b l ih => exact (s.change_unlink (f b) (g b)).trans (ih _)

/-! ## Batches -/

/-- Every edge of a node the batch created is in its journal. -/
def Tracked (j : Journal) (s : State) : Prop :=
  ∀ u v, s.hasEdge u v = true → u ∈ j.created ∨ v ∈ j.created → (u, v) ∈ j.linked

theorem Wired.uncreate (hs : s.Wired) {created : List NodeID}
    (hbare : ∀ u v, s.hasEdge u v = true → u ∉ created ∧ v ∉ created) :
    (created.foldl (fun s id =>
      ((s.adjustBucket .blocked .new (-1)).adjustTotal (-1)).deleteNodeKeys id) s).Wired := by
  induction created generalizing s with
  | nil => exact hs
  | cons id created ih =>
    have hq : Quiet s ((s.adjustBucket .blocked .new (-1)).adjustTotal (-1)) :=
      quiet_adjustBucket.trans quiet_adjustTotal
    have hin : ∀ u, s.hasEdge u id = false := by
      intro u
      by_contra hne
      exact (hbare u id (by simpa using hne)).2 (by simp)
    have hout : ∀ v, s.hasEdge id v = false := by
      intro v
      by_contra hne
      exact (hbare id v (by simpa using hne)).1 (by simp)
    refine ih ((hq.sameGraph.wired hs).deleteNodeKeys (fun u => by rw [hq.edge, hin])
      fun v => by rw [hq.edge, hout]) fun u v huv => ?_
    have huv : s.hasEdge u v = true := by
      have hleft := (hasEdge_deleteNodeKeys _ id u v).symm.trans huv
      rw [hq.edge, Bool.and_eq_true] at hleft
      exact hleft.1
    obtain ⟨hu, hv⟩ := hbare u v huv
    exact ⟨fun h => hu (.tail _ h), fun h => hv (.tail _ h)⟩

theorem Wired.rollbackBatch (hs : s.Wired) (hj : Tracked j s) :
    (s.rollbackBatch j.created j.linked).Wired := by
  refine ((change_unlink_foldl Prod.fst Prod.snd j.linked s).wired hs).uncreate fun u v huv => ?_
  obtain ⟨huv, hfresh⟩ := (hasEdge_unlink_foldl Prod.fst Prod.snd j.linked s u v).mp huv
  refine ⟨fun hu => ?_, fun hv => ?_⟩
  · exact hfresh (u, v) (hj u v huv (.inl hu)) ⟨rfl, rfl⟩
  · exact hfresh (u, v) (hj u v huv (.inr hv)) ⟨rfl, rfl⟩

theorem aged_rollbackBatch (s : State) (created : List NodeID)
    (linked : List (NodeID × NodeID)) : Aged s (s.rollbackBatch created linked) := by
  unfold rollbackBatch
  refine (change_unlink_foldl Prod.fst Prod.snd linked s).aged.trans ?_
  generalize linked.foldl (fun s e => s.unlink e.1 e.2) s = t
  induction created generalizing t with
  | nil => exact (Still.refl t).aged
  | cons id created ih =>
    have hq : Quiet t ((t.adjustBucket .blocked .new (-1)).adjustTotal (-1)) :=
      quiet_adjustBucket.trans quiet_adjustTotal
    exact (hq.toStill.aged.trans (aged_deleteNodeKeys _ id)).trans (ih _)

/-- The state a batch has reached: what it did, and that its journal is complete. -/
structure Batch (s₀ : State) (j : Journal) (s : State) : Prop where
  change : Change s₀ s
  tracked : s₀.Wired → Tracked j s

theorem Batch.start (s : State) : Batch s {} s :=
  ⟨Change.refl s, fun _ _ _ _ hmem => by simp at hmem⟩

theorem Batch.rollback (h : Batch s₀ j s) :
    Change s₀ (s.rollbackBatch j.created j.linked) :=
  ⟨h.change.aged.trans (s.aged_rollbackBatch j.created j.linked),
    fun hs => (h.change.wired hs).rollbackBatch (h.tracked hs)⟩

theorem Batch.quiet (h : Batch s₀ j s) (hq : Quiet s t) :
    Batch s₀ j t :=
  ⟨h.change.trans hq.change, fun hs u v huv => h.tracked hs u v (by rwa [← hq.edge])⟩

/-- An identifier without a node has no edges. -/
theorem Batch.create (h : Batch s₀ j s) {spec : SpecArgs}
    (hfresh : s.has spec.id = false) (nowMs : Int) :
    Batch s₀ { j with created := spec.id :: j.created } (s.createNode spec nowMs) := by
  refine ⟨h.change.trans ⟨aged_createNode hfresh nowMs, fun hs => hs.createNode spec nowMs⟩,
    fun hs u v huv hmem => ?_⟩
  obtain ⟨hu, hv⟩ := (h.change.wired hs).exist u v huv
  have hune : u ≠ spec.id := by rintro rfl; simp [hfresh] at hu
  have hvne : v ≠ spec.id := by rintro rfl; simp [hfresh] at hv
  refine h.tracked hs u v huv ?_
  simpa [hune, hvne] using hmem

theorem Batch.link (h : Batch s₀ j s)
    (hu : s.has u = true) (hv : s.has v = true) :
    Batch s₀ { j with linked := (u, v) :: j.linked } (s.linkEdge u v) := by
  refine ⟨h.change.trans ⟨(s.still_linkEdge u v).aged, fun hs => hs.linkEdge hu hv⟩,
    fun hs a b hab hmem => ?_⟩
  rw [hasEdge_linkEdge, Bool.or_eq_true, decide_eq_true_eq] at hab
  rcases hab with hab | ⟨rfl, rfl⟩
  · exact .tail _ (h.tracked hs a b hab hmem)
  · simp

theorem createAll_batch (nowMs : Int) (specs : List SpecArgs)
    (h : Batch s₀ j s) :
    Change s₀ (createAll nowMs specs j s).2 ∧
      ∀ j', (createAll nowMs specs j s).1 = .ok j' →
        Batch s₀ j' (createAll nowMs specs j s).2 := by
  induction specs generalizing j s with
  | nil =>
    refine ⟨h.change, fun j' hj => ?_⟩
    obtain rfl := Except.ok.inj hj
    exact h
  | cons spec specs ih =>
    simp only [createAll]
    split
    · split
      · exact ih h
      · exact ⟨h.rollback, fun j' hj => by cases hj⟩
    · next hfresh => exact ih (h.create (by simpa using hfresh) nowMs)

/-- What a loop of links has reached, or the state it answers with. -/
def Tidy (s₀ : State) : Except (Reply × State) (Journal × State) → Prop
  | .error r => Change s₀ r.2
  | .ok (j, s) => Batch s₀ j s

theorem addEdge_tidy (h : Batch s₀ j s)
    (hu : s.has u = true) : (s.addEdge u v j).All (Tidy s₀) := by
  unfold addEdge
  split
  · next n hn =>
      have hv : s.has v = true := by simp [has, hn]
      split
      · exact h.rollback
      refine quiet_addEdgeOrder.bind ?_
      rintro ⟨result, t⟩ hq
      have ht : Batch s₀ j t := h.quiet hq
      have hlinked : Batch s₀ { j with linked := (u, v) :: j.linked } (t.linkEdge u v) :=
        ht.link (by rw [hq.has, hu]) (by rw [hq.has, hv])
      cases result with
      | cycle => exact ht.rollback
      | crash => exact ht.change
      | fast => exact hlinked
      | reordered => exact hlinked
  · exact h

theorem linkDeps_tidy (id : NodeID) (deps : List NodeID)
    (h : Batch s₀ j s) : (linkDeps id deps j s).All (Tidy s₀) := by
  induction deps generalizing j s with
  | nil => exact h
  | cons dep deps ih =>
    simp only [linkDeps]
    split
    · exact h.rollback
    next hdep =>
      split
      · exact ih h
      refine (addEdge_tidy h (by simpa using hdep)).bind ?_
      rintro (r | ⟨j', t⟩) ht
      · exact ht
      · exact ih ht

theorem linkAll_tidy (specs : List SpecArgs) (h : Batch s₀ j s) :
    (linkAll specs j s).All (Tidy s₀) := by
  induction specs generalizing j s with
  | nil => exact h
  | cons spec specs ih =>
    refine (linkDeps_tidy spec.id spec.deps h).bind ?_
    rintro (r | ⟨j', t⟩) ht
    · exact ht
    · exact ih ht

theorem addNodes_change (s : State) (maxBatch : Int) (specs : List SpecArgs) :
    (s.addNodes maxBatch specs).All fun r => Change s r.2 := by
  unfold addNodes
  split
  · exact Change.refl s
  split
  · exact Change.refl s
  rw [Prog.all_bind, Prog.all_getNow]
  intro nowMs
  obtain ⟨herr, hok⟩ := createAll_batch nowMs specs (Batch.start s)
  rcases hc : createAll nowMs specs {} s with ⟨_ | j, t⟩
  · rw [hc] at herr
    exact herr
  rw [hc] at hok
  refine (linkAll_tidy specs (hok j rfl)).bind ?_
  rintro (r | ⟨j', t'⟩) h
  · exact h
  · refine quiet_settleAll.bind fun u hu => ?_
    exact h.change.trans (quiet_recordCreated.trans hu).change

theorem linkEdges_change (h : Batch s₀ j s) :
    (linkEdges edges j touched s).All fun r =>
      match r with
      | .error r => Change s₀ r.2
      | .ok (_, s) => Change s₀ s := by
  induction edges generalizing j touched s with
  | nil => exact h.change
  | cons e edges ih =>
    simp only [linkEdges]
    split
    · exact h.rollback
    next hu =>
      split
      · exact h.rollback
      split
      · exact h.rollback
      split
      · exact ih _ h
      refine (addEdge_tidy h (by simpa using hu)).bind ?_
      rintro (r | ⟨j', t⟩) ht
      · exact ht
      · exact ih _ ht

theorem addEdges_change (s : State) (edges : List (NodeID × NodeID)) :
    (s.addEdges edges).All fun r => Change s r.2 := by
  unfold addEdges
  rw [Prog.all_bind, Prog.all_getNow]
  intro nowMs
  refine Prog.All.bind (linkEdges_change edges [] (Batch.start s)) ?_
  rintro (r | ⟨touched, t⟩) h
  · exact h
  · exact quiet_settleAll.bind fun u hu => h.trans hu.change

/-! ## Removing -/

theorem unlinkEdges_change (s : State) : Change s (unlinkEdges edges touched s).2 := by
  induction edges generalizing touched s with
  | nil => exact Change.refl s
  | cons e edges ih =>
    obtain ⟨u, v⟩ := e
    simp only [unlinkEdges]
    split
    · exact Change.refl s
    split
    · exact Change.refl s
    cases h : s.unlinkEdge u v with
    | none => exact ih _ s
    | some t => exact (Change.of_unlinkEdge h).trans (ih _ t)

theorem removeEdges_change (s : State) (edges : List (NodeID × NodeID)) :
    (s.removeEdges edges).All fun r => Change s r.2 := by
  intro nowMs
  have hu := unlinkEdges_change edges [] s
  generalize unlinkEdges edges [] s = r at hu
  rcases r with ⟨_ | touched, t⟩
  · exact hu
  · exact quiet_settleAll.bind fun u ht => hu.trans ht.change

/-- The two loops of `scriptRemoveNode` leave the node without edges. -/
theorem bare_of_unlinked (hs : s.Wired) {succs preds : List NodeID}
    (hsuccs : succs.Perm (s.succ id))
    (hpreds : preds.Perm ((succs.foldl (fun s w => s.unlink id w) s).pred id).keys)
    (ht : t = preds.foldl (fun s u => s.unlink u id)
      (succs.foldl (fun s w => s.unlink id w) s)) :
    (∀ u, t.hasEdge u id = false) ∧ ∀ v, t.hasEdge id v = false := by
  have hout := hasEdge_unlink_foldl (fun _ : NodeID => id) (fun w => w) succs s
  have hin := hasEdge_unlink_foldl (fun u : NodeID => u) (fun _ => id) preds
    (succs.foldl (fun s w => s.unlink id w) s)
  refine ⟨fun u => ?_, fun v => ?_⟩
  · by_contra hne
    rw [Bool.not_eq_false, ht] at hne
    obtain ⟨hleft, hgone⟩ := (hin u id).mp hne
    exact hgone u (hpreds.mem_iff.mpr ((hasEdge_iff _ u id).mp hleft)) ⟨rfl, rfl⟩
  · by_contra hne
    rw [Bool.not_eq_false, ht] at hne
    obtain ⟨hedge, hgone⟩ := (hout id v).mp ((hin id v).mp hne).1
    exact hgone v (hsuccs.mem_iff.mpr ((hs.mirrored id v).mpr hedge)) ⟨rfl, rfl⟩

theorem dropNode_change (s : State) (id : NodeID) (n : NodeHash) {succs : List NodeID}
    (hsuccs : succs.Perm (s.succ id)) (policy : CascadePolicy) (nowMs : Int) :
    (s.dropNode id n succs policy nowMs).All fun r => Change s r.2 := by
  unfold dropNode
  simp only
  rw [Prog.all_bind, Prog.all_getRange]
  intro preds hpreds
  obtain ⟨t, ht⟩ : ∃ t, t = preds.foldl (fun s u => s.unlink u id)
    (succs.foldl (fun s w => s.unlink id w) s) := ⟨_, rfl⟩
  have hunlink : Change s t := by
    rw [ht]
    exact (change_unlink_foldl (fun _ : NodeID => id) (fun w => w) succs s).trans
      (change_unlink_foldl (fun u : NodeID => u) (fun _ => id) preds _)
  rw [← ht]
  generalize ((t.node id).map NodeHash.status).getD .new = status
  have hq : Quiet t (((((t.zremReady n.kind id).zremSched id).zremLeases id).adjustBucket n.phase
      status (-1)).adjustTotal (-1)) :=
    ((quiet_zremReady.trans quiet_zremSched).trans quiet_zremLeases).trans
      (quiet_adjustBucket.trans quiet_adjustTotal)
  generalize State.adjustTotal _ (-1) = u at hq
  have hdel : Change s (u.deleteNodeKeys id) := by
    refine ⟨(hunlink.trans hq.change).aged.trans (u.aged_deleteNodeKeys id), fun hs => ?_⟩
    obtain ⟨hin, hout⟩ := bare_of_unlinked hs hsuccs hpreds ht
    exact ((hunlink.trans hq.change).wired hs).deleteNodeKeys (fun a => by rw [hq.edge, hin])
      fun b => by rw [hq.edge, hout]
  split
  · refine Prog.All.bind quiet_settleAll fun w hw => ?_
    exact hdel.trans hw.change
  · exact hdel

theorem removeNode_change (s : State) (id : NodeID) (policy : CascadePolicy) :
    (s.removeNode id policy).All fun r => Change s r.2 := by
  unfold removeNode
  rw [Prog.all_bind, Prog.all_getNow]
  intro nowMs
  split
  · exact Change.refl s
  next n hn =>
    split
    · exact Change.refl s
    rw [Prog.all_bind, Prog.all_getRange]
    intro succs hsuccs
    split
    · exact Change.refl s
    split
    · refine quiet_terminateAll.bind fun t ht => ?_
      refine (dropNode_change t id n (by rwa [ht.succ]) policy nowMs).mono fun r hr => ?_
      exact ht.change.trans hr
    · exact dropNode_change s id n hsuccs policy nowMs

/-! ## Collecting -/

/-- The node `scriptCollectIfEligible` deletes. -/
def Eligible (s : State) (id : NodeID) (cutoffMs : Int) : Prop :=
  ∃ n, s.node id = some n ∧ n.phase = .done ∧ n.updatedAt ≤ cutoffMs ∧ s.succ id = []

/-- The script deletes an eligible node and does nothing otherwise. -/
theorem collectIfEligible_cases (s : State) (id : NodeID) (cutoffMs : Int) :
    (∃ n, s.node id = some n ∧ s.Eligible id cutoffMs ∧ s.collectIfEligible id cutoffMs =
      (.collected 1, ((s.adjustBucket .done n.status (-1)).adjustTotal (-1)).delKeys id)) ∨
    ¬s.Eligible id cutoffMs ∧ s.collectIfEligible id cutoffMs = (.collected 0, s) := by
  unfold collectIfEligible Eligible
  cases hn : s.node id with
  | none => simp
  | some n =>
    by_cases hphase : n.phase = .done
    · by_cases hold : n.updatedAt ≤ cutoffMs
      · by_cases hsucc : s.succ id = []
        · simp [hphase, hold, hsucc, not_lt.mpr hold]
        · simp [hphase, hsucc, not_lt.mpr hold]
      · simp [hphase, hold, not_le.mp hold]
    · simp [hphase]

end State

/-- Every script but a collection and a claim. -/
theorem exec_change (s : State) (c : Script) (hcollect : ∀ id cutoffMs,
    c ≠ .collectIfEligible id cutoffMs) (hclaim : ∀ args, c ≠ .claim args) :
    (c.exec s).All fun r => State.Change s r.2 := by
  have hquiet : ∀ {p : Prog (Reply × State)}, (p.All fun r => State.Quiet s r.2) →
      p.All fun r => State.Change s r.2 := fun h => h.mono fun r hr => hr.change
  cases c with
  | addNodes maxBatch specs => exact s.addNodes_change maxBatch specs
  | addEdges edges => exact s.addEdges_change edges
  | removeEdges edges => exact s.removeEdges_change edges
  | removeNode id policy => exact s.removeNode_change id policy
  | cancelNodes ids => exact hquiet State.quiet_cancelNodes
  | cancelScope => exact hquiet State.quiet_cancelScope
  | claim args => exact absurd rfl (hclaim args)
  | complete args => exact hquiet State.quiet_complete
  | extend id presentedEpoch leaseMs => exact hquiet State.quiet_extend
  | sweep limit => exact hquiet State.quiet_sweep
  | collectIfEligible id cutoffMs => exact absurd rfl (hcollect id cutoffMs)
  | configure cfg =>
    have hq : State.Quiet s { s with cfg := cfg } := State.Quiet.of_frame rfl rfl rfl rfl
    exact hq.change

end DagWorker.Redis
