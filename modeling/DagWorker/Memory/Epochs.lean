import DagWorker.Memory.Runs

/-!
# Epochs

The epoch of a node lives in a slot that is recycled, so what never decreases is
the epoch of an identifier: that of its node, or the floor of the scope while it
has none.  A grant is the only transition that claims a node, and it takes the
next epoch.
-/

namespace DagWorker.Memory

open Function

variable {es : List Effect}

/-! ## Epochs of identifiers -/

namespace Scope

/-- The last epoch that may have been granted for an identifier. -/
def epochOf (s : Scope) (id : NodeID) : ℕ :=
  match s.lookup id with
  | some h => (s.recs h).epoch
  | none => s.epochFloor

/-- No epoch of the scope exceeds `n`. -/
def EpochsLe (n : ℕ) (s : Scope) : Prop :=
  s.epochFloor ≤ n ∧ ∀ h, (s.recs h).epoch ≤ n

/-- The epoch `e` of an identifier is over: no node holds it. -/
def Spent (s : Scope) (id : NodeID) (e : ℕ) : Prop :=
  e ≤ s.epochOf id ∧
    ∀ h, s.lookup id = some h → (s.recs h).phase = .claimed → e < (s.recs h).epoch

/-- A change that takes back no epoch and claims no node. -/
structure Fenced (s s' : Scope) : Prop where
  epochOf_le : ∀ id, s.epochOf id ≤ s'.epochOf id
  claimed : ∀ id h', s'.lookup id = some h' → (s'.recs h').phase = .claimed →
    ∃ h, s.lookup id = some h ∧ (s.recs h).phase = .claimed ∧
      (s'.recs h').epoch = (s.recs h).epoch
  bounded : ∀ n, s.EpochsLe n → s'.EpochsLe n

variable {s s' s'' : Scope} {h : ℕ} {id : NodeID} {n : ℕ}

theorem epochOf_of_some (hl : s.lookup id = some h) : s.epochOf id = (s.recs h).epoch := by
  simp [epochOf, hl]

theorem epochOf_of_none (hl : s.lookup id = none) : s.epochOf id = s.epochFloor := by
  simp [epochOf, hl]

namespace Fenced

theorem refl (s : Scope) : Fenced s s :=
  ⟨fun _ => le_rfl, fun _ h hl hp => ⟨h, hl, hp, rfl⟩, fun _ h => h⟩

theorem trans (h₁ : Fenced s s') (h₂ : Fenced s' s'') : Fenced s s'' := by
  refine ⟨fun id => (h₁.epochOf_le id).trans (h₂.epochOf_le id), fun id k hl hp => ?_,
    fun n hn => h₂.bounded n (h₁.bounded n hn)⟩
  obtain ⟨k', hl', hp', he'⟩ := h₂.claimed id k hl hp
  obtain ⟨k'', hl'', hp'', he''⟩ := h₁.claimed id k' hl' hp'
  exact ⟨k'', hl'', hp'', he'.trans he''⟩

theorem spent (hf : Fenced s s') {e : ℕ} (hs : s.Spent id e) : s'.Spent id e := by
  refine ⟨hs.1.trans (hf.epochOf_le id), fun h hl hp => ?_⟩
  obtain ⟨k, hl', hp', he⟩ := hf.claimed id h hl hp
  rw [he]
  exact hs.2 k hl' hp'

theorem of_recs (hindex : s'.index = s.index) (hfloor : s'.epochFloor = s.epochFloor)
    (hepoch : ∀ k, (s'.recs k).epoch = (s.recs k).epoch)
    (hphase : ∀ k, (s'.recs k).phase = .claimed → (s.recs k).phase = .claimed) :
    Fenced s s' := by
  have hlookup : ∀ id, s'.lookup id = s.lookup id := fun id => by rw [lookup, hindex, lookup]
  refine ⟨fun id => le_of_eq ?_, fun id k hl hp => ?_, fun n hn => ⟨hfloor ▸ hn.1, fun k => ?_⟩⟩
  · unfold epochOf
    rw [hlookup, hfloor]
    cases s.lookup id with
    | none => rfl
    | some k => exact (hepoch k).symm
  · exact ⟨k, by rw [← hlookup, hl], hphase k hp, hepoch k⟩
  · rw [hepoch]
    exact hn.2 k

theorem of_update {r : NodeRec} (hindex : s'.index = s.index)
    (hfloor : s'.epochFloor = s.epochFloor) (hrecs : s'.recs = update s.recs h r)
    (hepoch : r.epoch = (s.recs h).epoch)
    (hphase : r.phase = .claimed → (s.recs h).phase = .claimed) : Fenced s s' := by
  refine of_recs hindex hfloor (fun k => ?_) fun k hk => ?_
  · rw [hrecs]
    by_cases hkh : k = h
    · rw [hkh, update_self, hepoch]
    · rw [update_of_ne hkh]
  · rw [hrecs] at hk
    by_cases hkh : k = h
    · rw [hkh] at hk ⊢
      exact hphase (by simpa using hk)
    · rwa [update_of_ne hkh] at hk

theorem of_graph {r : NodeRec} (hgraph : s'.graph = s.graph)
    (hrecs : s'.recs = update s.recs h r) (hepoch : r.epoch = (s.recs h).epoch)
    (hphase : r.phase = .claimed → (s.recs h).phase = .claimed) : Fenced s s' :=
  of_update (congrArg Graph.index hgraph) (congrArg Graph.epochFloor hgraph) hrecs hepoch hphase

theorem create (hs : s.Indexed) {spec : NodeSpec} {now : Int}
    (hnew : s.lookup spec.id = none) : Fenced s (s.created spec now) := by
  have hself : (s.created spec now).lookup spec.id = some s.slot := by
    rw [lookup, created_index, AList.lookup_insert]
  have hother : ∀ id, id ≠ spec.id → (s.created spec now).lookup id = s.lookup id := by
    intro id hid
    rw [lookup, created_index, AList.lookup_insert_ne hid, lookup]
  have hrec : ∀ {id k}, s.lookup id = some k → (s.created spec now).recs k = s.recs k := by
    intro id k hl
    have hne : k ≠ s.slot := fun h => hs.not_alive_slot (h ▸ hs.alive_of_lookup hl)
    rw [created_recs, update_of_ne hne]
  refine ⟨fun id => le_of_eq ?_, fun id k hl hp => ?_, fun n hn => ⟨hn.1, fun k => ?_⟩⟩
  · by_cases hid : id = spec.id
    · subst hid
      rw [epochOf_of_none hnew, epochOf_of_some hself, created_recs, update_self, newRec]
    cases hl : s.lookup id with
    | none => rw [epochOf_of_none hl, epochOf_of_none ((hother id hid).trans hl),
        created_epochFloor]
    | some k => rw [epochOf_of_some hl, epochOf_of_some ((hother id hid).trans hl), hrec hl]
  · by_cases hid : id = spec.id
    · subst hid
      obtain rfl := Option.mem_unique hself hl
      simp [newRec] at hp
    · rw [hother id hid] at hl
      rw [hrec hl] at hp ⊢
      exact ⟨k, hl, hp, rfl⟩
  · by_cases hk : k = s.slot
    · rw [hk, created_recs, update_self, newRec]
      exact hn.1
    · rw [created_recs, update_of_ne hk]
      exact hn.2 k

theorem delete (hs : s.Indexed) (hh : s.Alive h) : Fenced s (s.deleted h (s.recs h).id) := by
  have hself : (s.deleted h (s.recs h).id).lookup (s.recs h).id = none := by
    rw [lookup, deleted_index, AList.lookup_erase]
  have hother : ∀ id, id ≠ (s.recs h).id →
      (s.deleted h (s.recs h).id).lookup id = s.lookup id := by
    intro id hid
    rw [lookup, deleted_index, AList.lookup_erase_ne hid, lookup]
  have hrec : ∀ {id k}, id ≠ (s.recs h).id → s.lookup id = some k →
      (s.deleted h (s.recs h).id).recs k = s.recs k := by
    intro id k hid hl
    have hne : k ≠ h := fun hk => hid ((hs.id_of_lookup hl).symm.trans (by rw [hk]))
    rw [deleted_recs, update_of_ne hne]
  have hfloor : s.epochFloor ≤ (s.deleted h (s.recs h).id).epochFloor ∧
      (s.recs h).epoch ≤ (s.deleted h (s.recs h).id).epochFloor := by
    rw [deleted_epochFloor]
    split <;> omega
  refine ⟨fun id => ?_, fun id k hl hp => ?_, fun n hn => ⟨?_, fun k => ?_⟩⟩
  · by_cases hid : id = (s.recs h).id
    · rw [hid, epochOf_of_some (hs.lookup_id hh), epochOf_of_none hself]
      exact hfloor.2
    cases hl : s.lookup id with
    | none =>
      rw [epochOf_of_none hl, epochOf_of_none ((hother id hid).trans hl)]
      exact hfloor.1
    | some k =>
      rw [epochOf_of_some hl, epochOf_of_some ((hother id hid).trans hl), hrec hid hl]
  · have hid : id ≠ (s.recs h).id := fun hid => by simp [hid, hself] at hl
    rw [hother id hid] at hl
    rw [hrec hid hl] at hp ⊢
    exact ⟨k, hl, hp, rfl⟩
  · rw [deleted_epochFloor]
    split
    · exact hn.2 h
    · exact hn.1
  · by_cases hk : k = h
    · simp [hk]
    · rw [deleted_recs, update_of_ne hk]
      exact hn.2 k

theorem copies {hs : List ℕ} (hi : s.Inv) (hc : Copies hs s s') : Fenced s s' := by
  refine ⟨fun id => le_of_eq ?_, fun id k hl hp => ?_, fun n hn => ⟨?_, fun k => ?_⟩⟩
  · cases hl' : s'.lookup id with
    | some i =>
      obtain ⟨hlt, hl⟩ := (hc.lookup id i).mp hl'
      rw [epochOf_of_some hl, epochOf_of_some hl', hc.recs i hlt]
    | none =>
      have hl : s.lookup id = none := by
        rw [Option.eq_none_iff_forall_ne_some]
        intro h hl
        obtain ⟨i, hlt, rfl⟩ := exists_old ((hc.mem h).mpr (hi.indexed.alive_of_lookup hl))
        rw [(hc.lookup id i).mpr ⟨hlt, hl⟩] at hl'
        cases hl'
      rw [epochOf_of_none hl, epochOf_of_none hl', hc.epochFloor]
  · obtain ⟨hlt, hl'⟩ := (hc.lookup id k).mp hl
    rw [hc.recs k hlt] at hp ⊢
    exact ⟨old hs k, hl', hp, rfl⟩
  · rw [hc.epochFloor]
    exact hn.1
  · rcases lt_or_ge k hs.length with hk | hk
    · rw [hc.recs k hk]
      exact hn.2 _
    · rw [(hc.dead k hk).1]
      exact Nat.zero_le n

end Fenced

/-- No elementary transition but a grant claims a node. -/
theorem Step.fenced (hstep : Step s s') (hi : s.Inv) : Fenced s s' := by
  cases hstep with
  | refresh | configure | sealing | rerank | renew =>
    exact Fenced.of_recs rfl rfl (fun _ => rfl) fun _ h => h
  | create spec now hnew _ =>
    rw [create_eq]
    exact Fenced.create hi.indexed hnew
  | link u v _ _ _ _ _ =>
    exact Fenced.of_update rfl rfl (linked_recs s u v) rfl fun h => h
  | unlink u v =>
    exact unlinkEdge_cases s (Fenced.refl s) fun e _ =>
      Fenced.of_update rfl rfl (unlinked_recs s u v e) rfl fun h => h
  | delete h hh _ _ _ =>
    rw [deleteNode_eq]
    exact Fenced.delete hi.indexed hh
  | discard h hh _ _ =>
    rw [deleteNode_eq]
    have hsame : Fenced s (s.unqueue h) := Fenced.of_recs rfl rfl (fun _ => rfl) fun _ h => h
    exact hsame.trans (Fenced.delete (s := s.unqueue h) (hi.indexed.congr rfl rfl rfl rfl) hh)
  | collect h hh _ _ =>
    rw [hi.mirrored.detachPreds_eq_severed, deleteNode_eq]
    have hsame : Fenced s (s.severed h) := Fenced.of_recs rfl rfl (fun _ => rfl) fun _ h => h
    exact hsame.trans (Fenced.delete (s := s.severed h) (hi.indexed.congr rfl rfl rfl rfl) hh)
  | finish it now _ _ _ =>
    exact Fenced.of_graph (finish_graph s it now) (finish_recs s it now) rfl
      (by simp [finishedRec])
  | mark w u _ =>
    exact markSatisfied_cases s _ _ (Fenced.refl s) fun es _ =>
      Fenced.of_update rfl rfl (marked_recs s w es _) rfl fun h => h
  | makeReady h _ _ _ =>
    exact Fenced.of_graph (makeReady_graph s h) (makeReady_recs s h) rfl (by simp)
  | promote h _ => exact Fenced.of_graph (promote_graph s h) (promote_recs s h) rfl (by simp)
  | makeBlocked h _ _ _ =>
    exact Fenced.of_graph (makeBlocked_graph s h) (makeBlocked_recs s h) rfl (by simp)
  | retry h reason msg now delay _ _ =>
    exact Fenced.of_graph (retry_graph s h reason msg now delay)
      (retry_recs s h reason msg now delay) rfl (by simp [retriedRec])
  | annotate h result worker _ => exact Fenced.of_update rfl rfl rfl rfl fun h => h

theorem Path.fenced (hpath : Path s es s') (hi : s.Inv) : Fenced s s' := by
  refine (hpath.preserves (P := fun t => t.Inv ∧ Fenced s t) ?_ ?_ ⟨hi, Fenced.refl s⟩).2
  · rintro a b ⟨ha, hf⟩ hstep
    exact ⟨ha.step hstep, hf.trans (hstep.fenced ha)⟩
  rintro a h kind fromStatus t ⟨ha, hf⟩ hh
  exact ⟨ha.record kind fromStatus t hh,
    hf.trans (Fenced.of_graph (recordAt_graph a h kind fromStatus t)
      (recordAt_recs a h kind fromStatus t) rfl fun h => h)⟩

/-! ## Grants -/

/-- What the grants of one `Claim` do: each takes a node that was claimable and
its next epoch, and no node is granted twice. -/
structure GrantsOnce (s : Scope) (ls : List Lease) (s' : Scope) : Prop where
  index : s'.index = s.index
  floor : s'.epochFloor = s.epochFloor
  granted : ∀ l ∈ ls, ∃ h, s.lookup l.nodeID = some h ∧ (s.recs h).phase = .ready ∧
    l.scope = s.name ∧ l.epoch = (s.recs h).epoch + 1 ∧
      (s'.recs h).phase = .claimed ∧ (s'.recs h).epoch = l.epoch
  rest : ∀ h, (∀ l ∈ ls, s.lookup l.nodeID ≠ some h) →
    (s'.recs h).phase = (s.recs h).phase ∧ (s'.recs h).epoch = (s.recs h).epoch
  nodup : (ls.map Lease.nodeID).Nodup

theorem Grants.once {ls : List Lease} (hg : Grants s ls es s') (hi : s.Inv) (hn : s.EpochsLe n)
    (hlt : n + 1 < 2 ^ 64) : GrantsOnce s ls s' := by
  induction hg with
  | nil => exact ⟨rfl, rfl, by simp, fun _ _ => ⟨rfl, rfl⟩, List.nodup_nil⟩
  | @snoc ls es s₁ h kind worker now leaseFor t hg hp ih =>
    have hi₁ := (hg.inv hi).1
    obtain ⟨hh, hready, -⟩ := hi₁.queued.phase_of_peek hp
    have hgraph := granted_graph s₁ h kind worker now leaseFor t
    have hrecs := granted_recs s₁ h kind worker now leaseFor t
    generalize s₁.granted h kind worker now leaseFor t = g at hgraph hrecs
    have hlook : s.lookup (s₁.recs h).id = some h := by
      rw [lookup, ← ih.index]
      exact hi₁.indexed.lookup_id hh
    -- a node granted before is claimed, so this one was not
    have hfresh : ∀ l ∈ ls, s.lookup l.nodeID ≠ some h := by
      intro l hl hlh
      obtain ⟨k, hk, -, -, -, hclaimed, -⟩ := ih.granted l hl
      rw [hlh, Option.some.injEq] at hk
      rw [hk, hclaimed] at hready
      cases hready
    obtain ⟨hphase, hepoch⟩ := ih.rest h hfresh
    have hself : g.2.recs h = { grantedRec (s₁.recs h) worker now with
        seq := (s₁.recs h).seq + 1 } := by rw [hrecs, update_self]
    have hother : ∀ k, k ≠ h → g.2.recs k = s₁.recs k := fun k hk => by
      rw [hrecs, update_of_ne hk]
    have hnext : (g.2.recs h).epoch = (s.recs h).epoch + 1 := by
      have := hn.2 h
      rw [hself]
      simp only [grantedRec, uint64, hepoch]
      exact Nat.mod_eq_of_lt (by omega)
    have hid : (g.2.recs h).id = (s₁.recs h).id := by rw [hself]; rfl
    refine ⟨(congrArg Graph.index hgraph).trans ih.index,
      (congrArg Graph.epochFloor hgraph).trans ih.floor, ?_, ?_, ?_⟩
    · intro l hl
      rcases List.mem_append.mp hl with hl | hl
      · obtain ⟨k, hk, hrest⟩ := ih.granted l hl
        have hne : k ≠ h := fun heq => hfresh l hl (heq ▸ hk)
        refine ⟨k, hk, ?_⟩
        rwa [hother k hne]
      · rw [List.mem_singleton.mp hl]
        refine ⟨h, ?_, hphase ▸ hready, ?_, hnext, ?_, rfl⟩
        · rw [leaseOf, hid]
          exact hlook
        · exact (congrArg Graph.name hgraph).trans (congrArg Graph.name hg.graph)
        · rw [hself]
          rfl
    · intro k hk
      have hne : k ≠ h := by
        rintro rfl
        refine hk _ (List.mem_append_right _ (List.mem_singleton.mpr rfl)) ?_
        rw [leaseOf, hid]
        exact hlook
      rw [hother k hne]
      exact ih.rest k fun l hl => hk l (List.mem_append_left _ hl)
    · rw [List.map_append, List.map_singleton, List.nodup_append]
      refine ⟨ih.nodup, List.nodup_singleton _, ?_⟩
      rintro a ha b hb rfl
      obtain ⟨l, hl, rfl⟩ := List.mem_map.mp ha
      rw [List.mem_singleton] at hb
      refine hfresh l hl ?_
      rw [hb, leaseOf, hid]
      exact hlook

namespace GrantsOnce

variable {ls : List Lease}

section

variable (hg : GrantsOnce s ls s')
include hg

theorem lookup_eq (id : NodeID) : s'.lookup id = s.lookup id := by
  rw [lookup, hg.index, lookup]

theorem epochOf_lease {l : Lease} (hl : l ∈ ls) :
    s.epochOf l.nodeID < l.epoch ∧ s'.epochOf l.nodeID = l.epoch := by
  obtain ⟨h, hlook, -, -, hepoch, -, hepoch'⟩ := hg.granted l hl
  rw [epochOf_of_some hlook, epochOf_of_some ((hg.lookup_eq _).trans hlook)]
  exact ⟨by omega, hepoch'⟩

/-- A node is granted its next epoch or left alone. -/
theorem epoch_cases (h : ℕ) :
    (s'.recs h).epoch = (s.recs h).epoch + 1 ∨
      (s'.recs h).phase = (s.recs h).phase ∧ (s'.recs h).epoch = (s.recs h).epoch := by
  by_cases hex : ∃ l ∈ ls, s.lookup l.nodeID = some h
  · obtain ⟨l, hmem, hlh⟩ := hex
    obtain ⟨k, hk, -, -, hepoch, -, hepoch'⟩ := hg.granted l hmem
    obtain rfl := Option.mem_unique hlh hk
    exact .inl (hepoch'.trans hepoch)
  · push Not at hex
    exact .inr (hg.rest h hex)

theorem epochOf_le (id : NodeID) : s.epochOf id ≤ s'.epochOf id := by
  cases hl : s.lookup id with
  | none => rw [epochOf_of_none hl, epochOf_of_none ((hg.lookup_eq id).trans hl), hg.floor]
  | some h =>
    rw [epochOf_of_some hl, epochOf_of_some ((hg.lookup_eq id).trans hl)]
    rcases hg.epoch_cases h with hepoch | ⟨-, hepoch⟩ <;> omega

theorem bounded (hn : s.EpochsLe n) : s'.EpochsLe (n + 1) := by
  refine ⟨hg.floor ▸ hn.1.trans (Nat.le_succ n), fun h => ?_⟩
  have hle := hn.2 h
  rcases hg.epoch_cases h with hepoch | ⟨-, hepoch⟩ <;> omega

theorem spent {e : ℕ} (hs : s.Spent id e) : s'.Spent id e := by
  refine ⟨hs.1.trans (hg.epochOf_le id), fun h hl hp => ?_⟩
  rw [hg.lookup_eq] at hl
  have hle : e ≤ (s.recs h).epoch := epochOf_of_some hl ▸ hs.1
  rcases hg.epoch_cases h with hepoch | ⟨hphase, hepoch⟩
  · omega
  · rw [hepoch]
    exact hs.2 h hl (hphase ▸ hp)

end

end GrantsOnce

end Scope

end DagWorker.Memory
