import DagWorker.Memory.Batches

/-!
# Removal and cancellation, step by step

`RemoveEdges` keeps no journal: when it fails on an unknown identifier, the edges before it
stay dropped and their targets are not settled.  The same happens to the successors in a
`RemoveNode` with a policy outside the three defined ones.
-/

namespace DagWorker.Memory.Scope

open Function

variable {s : Scope} {r : EffectsResult × Scope}

/-! ## Dropping edges -/

/-- The edges `RemoveEdges` gets to: those before the first unknown end. -/
def knownPrefix (s : Scope) (es : List Edge) : List Edge :=
  es.takeWhile fun e => (s.lookup e.fromID).isSome && (s.lookup e.toID).isSome

theorem Edited.knownPrefix {s' : Scope} {T : Set ℕ} (he : Edited s T s') (es : List Edge) :
    s'.knownPrefix es = s.knownPrefix es := by
  simp only [Scope.knownPrefix, he.lookup]

theorem unlinkEdgeList_edited (es : List Edge) (touched : List ℕ) (hi : s.Inv) :
    ∃ err s' t, unlinkEdgeList es s touched = (err, s', t) ∧ Edited s { k | k ∈ t } s' ∧
      (∀ k ∈ touched, k ∈ t) ∧ (∀ k ∈ t, k ∈ touched ∨ s.Alive k) ∧
      (∀ k, s'.preds k = s.preds k \ s.incoming (s.knownPrefix es) k) ∧
      (err = none ↔ s.knownPrefix es = es) := by
  induction es generalizing s touched with
  | nil =>
    refine ⟨none, s, touched, rfl, (Edited.refl s).mono (Set.empty_subset _), fun _ h => h,
      fun _ h => .inl h, fun k => ?_, by simp [knownPrefix]⟩
    rw [knownPrefix, List.takeWhile_nil, incoming_nil, Finset.sdiff_empty]
  | cons e es ih =>
    -- the loop stops at an unknown end
    have hstop : ∀ err : Err, s.knownPrefix (e :: es) = [] →
        ∃ err' s' t, (some err, s, touched) = (err', s', t) ∧ Edited s { k | k ∈ t } s' ∧
          (∀ k ∈ touched, k ∈ t) ∧ (∀ k ∈ t, k ∈ touched ∨ s.Alive k) ∧
          (∀ k, s'.preds k = s.preds k \ s.incoming (s.knownPrefix (e :: es)) k) ∧
          (err' = none ↔ s.knownPrefix (e :: es) = e :: es) := by
      intro err hnil
      refine ⟨some err, s, touched, rfl, (Edited.refl s).mono (Set.empty_subset _),
        fun _ h => h, fun _ h => .inl h, fun k => ?_, by simp [hnil]⟩
      rw [hnil, incoming_nil, Finset.sdiff_empty]
    rw [unlinkEdgeList]
    split
    · rename_i hu
      exact hstop _ (by simp [knownPrefix, hu])
    rename_i u hu
    split
    · rename_i hv
      exact hstop _ (by simp [knownPrefix, hu, hv])
    rename_i v hv
    have hknown : s.knownPrefix (e :: es) = e :: s.knownPrefix es := by
      simp [knownPrefix, hu, hv]
    have he := Edited.unlink s u v
    have hi₁ := hi.path he.path
    have hau := hi.indexed.alive_of_lookup hu
    have hida := hi.indexed.id_of_lookup hu
    obtain ⟨err, s', t, heq, he', hsub, hmem, hpreds, herr⟩ :=
      ih (s := (s.unlinkEdge u v).1)
        (if (s.unlinkEdge u v).2 then addOnce touched v else touched) hi₁
    refine ⟨err, s', t, heq, ?_, fun k hk => ?_, fun k hk => ?_, fun k => ?_, ?_⟩
    · by_cases hch : (s.unlinkEdge u v).2 = true
      · rw [if_pos hch] at hsub
        exact (he.mono (by simpa using hsub v (mem_addOnce.mpr (.inl rfl)))).trans he'
      · rwa [unlinkEdge_of_not_changed (by simpa using hch)] at he'
    · refine hsub k ?_
      split
      · exact mem_addOnce.mpr (.inr hk)
      · exact hk
    · rcases hmem k hk with hk | hk
      · split at hk
        · rcases mem_addOnce.mp hk with rfl | hk
          · exact .inr (hi.indexed.alive_of_lookup hv)
          · exact .inl hk
        · exact .inl hk
      · exact .inr ((he.alive k).mp hk)
    · rw [hpreds, he.knownPrefix, he.incoming, hknown, preds_unlinkEdge hi hau,
        ← List.singleton_append, incoming_append, ← Finset.sup_eq_union,
        ← sdiff_sdiff_left,
        show e = ⟨e.fromID, e.toID⟩ from rfl, incoming_singleton, hv, hida]
      congr 1
      by_cases hk : k = v
      · rw [if_pos hk, if_pos (by rw [hk]), hk, Finset.sdiff_singleton_eq_erase]
      · rw [if_neg hk, if_neg fun h => hk (Option.some.inj h).symm, Finset.sdiff_empty]
    · rw [herr, he.knownPrefix, hknown]
      simp

/-- A node that loses one of the listed edges and is not settled afterwards keeps a
satisfied rule. -/
def KeepsHeldWithout (s : Scope) (es : List Edge) : Prop :=
  ∀ v, s.Alive v → ¬ Disjoint (s.preds v) (s.incoming (s.knownPrefix es) v) →
    (s.recs v).phase = .scheduled ∨ (s.recs v).phase = .claimed ∨
      ((s.recs v).phase = .ready ∧ s.knownPrefix es ≠ es) →
    (s.countsOf (s.preds v \ s.incoming (s.knownPrefix es) v)).ready (s.recs v).trigger = true

/-- `RemoveEdges` settles what it touched unless it fails. -/
theorem removeEdges_spec (hi : s.Inv) (es : List Edge) :
    (s.removeEdges es).All fun r => Path s r.1.effects r.2 ∧ (s.Flagged → r.2.Flagged) ∧
      (r.1.err = none → Revises s r.1.effects r.2) ∧
      (s.Flagged → s.KeepsHeldWithout es → ∀ v, RuleMet (s.recs v) → RuleMet (r.2.recs v)) ∧
      Annals s r.1.effects r.2 := by
  obtain ⟨err, s', t, heq, he, -, ht, hpreds, herr⟩ :=
    unlinkEdgeList_edited es [] hi
  have hdeps : s.Flagged → ∀ v, (s'.recs v).deps =
      s.countsOf (s.preds v \ s.incoming (s.knownPrefix es) v) := by
    intro hf v
    rw [deps_eq_countsOf (hi.path he.path) (he.flagged hf), hpreds, he.countsOf]
  -- a node that loses no edge keeps its tally
  have hkeeps : s.Flagged → s.KeepsHeldWithout es → ∀ v, RuleMet (s.recs v) →
      ((s.recs v).phase = .ready → s.knownPrefix es ≠ es) → RuleMet (s'.recs v) := by
    intro hf hkeep v hs hfail
    refine he.heldOK hs fun hv hheld _ => ?_
    rw [hdeps hf]
    by_cases hdis : Disjoint (s.preds v) (s.incoming (s.knownPrefix es) v)
    · rw [Finset.sdiff_eq_self_of_disjoint hdis, ← deps_eq_countsOf hi hf]
      exact hs hv hheld
    refine hkeep v hv hdis ?_
    rcases held_cases hheld with hp | hp | hp
    · exact .inr (.inr ⟨hp, hfail hp⟩)
    · exact .inl hp
    · exact .inr (.inl hp)
  unfold removeEdges
  rw [heq]
  cases err with
  | some e =>
    have hfail : s.knownPrefix es ≠ es := fun h => by simpa using herr.mpr h
    exact ⟨he.path, he.flagged, by simp, fun hf hkeep v hs => hkeeps hf hkeep v hs fun _ => hfail,
      .of_silent he.silent⟩
  | none =>
    rw [Prog.all_bind]
    refine (settleAll_settles (hi.path he.path) fun k hk => ?_).mono ?_
    · exact (he.alive k).mpr ((ht k hk).resolve_left (by simp))
    rintro r ⟨es', hout, hs, ha⟩
    have hrev := he.settleAll hs
    rw [List.nil_append] at hout
    rw [← hout] at hrev ha
    refine ⟨hrev.path, hrev.flagged, fun _ => hrev, fun hf hkeep v hv => hs.heldOK v ?_,
      (Annals.of_silent he.silent).trans ha⟩
    rw [he.phase]
    by_cases hp : v ∈ t ∧ (s.recs v).phase = .ready
    · exact .inr hp
    by_cases hmem : v ∈ t
    · exact .inl (hkeeps hf hkeep v hv fun hready => absurd ⟨hmem, hready⟩ hp)
    · rw [he.same v hmem]
      exact .inl hv

/-! ## Detaching a node -/

theorem mem_sources_unlinkEdges {es : List (ℕ × ℕ)} (hi : s.Inv) (a k : ℕ) :
    a ∈ (unlinkEdges es s).sources k ↔ a ∈ s.sources k ∧ (a, k) ∉ es := by
  induction es generalizing s with
  | nil => simp [unlinkEdges]
  | cons e es ih =>
    obtain ⟨u, v⟩ := e
    rw [unlinkEdges, ih (hi.path (Edited.unlink s u v).path), mem_sources_unlinkEdge hi,
      List.mem_cons, Prod.mk.injEq]
    tauto

/-- `RemoveNode` up to the deletion: every incident edge dropped. -/
def isolated (s : Scope) (h : ℕ) : Scope :=
  let s₁ := unlinkEdges ((s.succ h).map fun w => (h, w)) s
  unlinkEdges ((s₁.pred h).map fun e => (e.source, h)) s₁

section Isolated

variable {s : Scope} {h : ℕ}

theorem mem_sources_isolated (hi : s.Inv) (a k : ℕ) :
    a ∈ (s.isolated h).sources k ↔ a ∈ s.sources k ∧ a ≠ h ∧ k ≠ h := by
  have he := unlinkEdges_edited ((s.succ h).map fun w => (h, w)) s
  have hfirst : ∀ b c, b ∈ (unlinkEdges ((s.succ h).map fun w => (h, w)) s).sources c ↔
      b ∈ s.sources c ∧ b ≠ h := by
    intro b c
    rw [mem_sources_unlinkEdges hi]
    refine and_congr_right fun hb => not_congr ?_
    simp only [List.mem_map, Prod.mk.injEq]
    constructor
    · rintro ⟨w, -, rfl, -⟩
      rfl
    · rintro rfl
      exact ⟨c, (hi.mirrored.mem_succ _ _).mpr hb, rfl, rfl⟩
  rw [isolated, mem_sources_unlinkEdges (hi.path he.path), hfirst, and_assoc]
  refine and_congr_right fun ha => and_congr_right fun hne => not_congr ?_
  simp only [List.mem_map, Prod.mk.injEq]
  constructor
  · rintro ⟨e, -, -, rfl⟩
    rfl
  · rintro rfl
    obtain ⟨e, hmem, hsrc⟩ := List.mem_map.mp ((hfirst a k).mpr ⟨ha, hne⟩)
    exact ⟨e, hmem, hsrc, rfl⟩

theorem isolated_edited (s : Scope) (h : ℕ) :
    Edited s ({ w | w ∈ s.succ h } ∪ {h}) (s.isolated h) := by
  refine ((unlinkEdges_edited _ s).mono ?_).trans ((unlinkEdges_edited _ _).mono ?_)
  · rintro w ⟨u, hu⟩
    obtain ⟨w', hw', heq⟩ := List.mem_map.mp hu
    cases heq
    exact .inl hw'
  · rintro w ⟨u, hu⟩
    obtain ⟨e, -, heq⟩ := List.mem_map.mp hu
    cases heq
    exact .inr rfl

theorem isolated_succ (hi : s.Inv) : (s.isolated h).succ h = [] := by
  have hi' := hi.path (isolated_edited s h).path
  refine List.eq_nil_iff_forall_not_mem.mpr fun w hw => ?_
  rw [hi'.mirrored.mem_succ, mem_sources_isolated hi] at hw
  exact hw.2.1 rfl

theorem isolated_pred (hi : s.Inv) : (s.isolated h).pred h = [] := by
  have hnil : (s.isolated h).sources h = [] := by
    refine List.eq_nil_iff_forall_not_mem.mpr fun w hw => ?_
    rw [mem_sources_isolated hi] at hw
    exact hw.2.2 rfl
  simpa [sources] using hnil

theorem preds_isolated (hi : s.Inv) (hh : s.Alive h) {v : ℕ} (hv : v ≠ h) :
    (s.isolated h).preds v = s.preds v \ {(s.recs h).id} := by
  ext id
  simp only [preds, (isolated_edited s h).id, List.mem_toFinset, List.mem_map,
    mem_sources_isolated hi, Finset.mem_sdiff, Finset.mem_singleton]
  constructor
  · rintro ⟨a, ⟨ha, hne, -⟩, rfl⟩
    exact ⟨⟨a, ha, rfl⟩, fun heq =>
      hne (hi.indexed.id_inj (hi.mirrored.alive_source ha) hh heq)⟩
  · rintro ⟨⟨a, ha, rfl⟩, hne⟩
    exact ⟨a, ⟨ha, fun heq => hne (by rw [heq]), hv⟩, rfl⟩

theorem ne_of_mem_succ (hi : s.Inv) {w : ℕ} (hw : w ∈ s.succ h) : w ≠ h := by
  rintro rfl
  exact absurd (hi.ranked.edge w w hw) (lt_irrefl _)

/-- The scope once the node and its edges are gone. -/
def removed (s : Scope) (h : ℕ) : Scope :=
  ((s.isolated h).unqueue h).deleteNode (s.recs h).id h

theorem removed_recs : (s.removed h).recs = update (s.isolated h).recs h {} := by
  rw [removed, deleteNode_eq]
  rfl

theorem removed_annals (s : Scope) (h : ℕ) : Annals s [] (s.removed h) :=
  (Annals.of_silent (isolated_edited s h).silent).quiet (.of_delete removed_recs)

theorem removed_path (hi : s.Inv) (hh : s.Alive h) : Path s [] (s.removed h) := by
  have he := isolated_edited s h
  have hstep := Step.discard h ((he.alive h).mpr hh) (isolated_succ hi) (isolated_pred hi)
  rw [he.id] at hstep
  exact he.path.step hstep

theorem removed_alive {w : ℕ} (hw : w ≠ h) : (s.removed h).Alive w ↔ s.Alive w := by
  rw [Alive, removed_recs, update_of_ne hw]
  exact (isolated_edited s h).alive w

theorem removed_respects (hi : s.Inv) : Respects (s.isolated h) (s.removed h) := by
  refine Respects.delete removed_recs ?_
    (not_mem_sources_of_succ_nil (hi.path (isolated_edited s h).path) (isolated_succ hi))
  rw [removed, deleteNode_eq]
  rfl

theorem removed_settled (hi : s.Inv) (v : ℕ) (hv : RuleOpen (s.recs v)) :
    RuleOpen ((s.removed h).recs v) ∨ v ∈ s.succ h := by
  rcases (isolated_edited s h).settled v hv with hv | hmem | rfl
  · exact .inl ((removed_respects hi).settled v hv)
  · exact .inr hmem
  · simp [RuleOpen, removed_recs]

theorem removed_heldOK (hi : s.Inv) (hh : s.Alive h) (hf : s.Flagged) {v : ℕ}
    (hs : RuleMet (s.recs v)) (hkeep : v ∈ s.succ h → held (s.recs v).phase = true →
      (s.countsOf (s.preds v \ {(s.recs h).id})).ready (s.recs v).trigger = true) :
    RuleMet ((s.removed h).recs v) := by
  have he := isolated_edited s h
  by_cases hvh : v = h
  · simp [RuleMet, removed_recs, hvh]
  refine (removed_respects hi).heldOK v (he.heldOK hs fun hv hheld hmem => ?_)
  rw [deps_eq_countsOf (hi.path he.path) (he.flagged hf), preds_isolated hi hh hvh,
    he.countsOf]
  exact hkeep (hmem.resolve_right hvh) hheld

end Isolated

/-! ## Removing a node -/

/-- The three defined policies. -/
def Defined (policy : CascadePolicy) : Prop := ∀ n, policy ≠ .unknown n

/-- A successor that is not settled afterwards keeps a satisfied rule when the
node is removed. -/
def KeepsHeldRemoved (s : Scope) (id : NodeID) (policy : CascadePolicy) : Prop :=
  policy ≠ .fail → ∀ h, s.lookup id = some h → ∀ v ∈ s.succ h,
    (s.recs v).phase = .scheduled ∨ (s.recs v).phase = .claimed ∨
      ((s.recs v).phase = .ready ∧ ¬ Defined policy) →
    (s.countsOf (s.preds v \ {id})).ready (s.recs v).trigger = true

theorem detachAndDelete_eq (s : Scope) (h : ℕ) (policy : CascadePolicy) (out : List Effect) :
    s.detachAndDelete (s.recs h).id h policy out =
      if policy = .detach then do
        let (s', out) ← settleAll (s.succ h) (s.removed h) out
        pure ({ effects := out }, s'.refreshComplete)
      else pure ({ effects := out }, (s.removed h).refreshComplete) := rfl

section Remove

variable {s : Scope} {h : ℕ} {id : NodeID} {policy : CascadePolicy}

/-- What `RemoveNode` guarantees. -/
structure Removes (s : Scope) (id : NodeID) (policy : CascadePolicy)
    (r : EffectsResult × Scope) : Prop where
  path : Path s r.1.effects r.2
  flagged : s.Flagged → r.2.Flagged
  settled : Defined policy → ∀ v, RuleOpen (s.recs v) → RuleOpen (r.2.recs v)
  heldOK : s.Flagged → s.KeepsHeldRemoved id policy →
    ∀ v, RuleMet (s.recs v) → RuleMet (r.2.recs v)

theorem Removes.of_evolves (hev : Evolves s r.1.effects r.2) : Removes s id policy r :=
  ⟨hev.path, hev.flagged, fun _ => hev.settled, fun _ _ => hev.heldOK⟩

variable (hi : s.Inv) (hh : s.Alive h)
include hi hh

/-- Under `detach` the former successors are settled. -/
theorem detach_removes (hid : (s.recs h).id = id) :
    (s.detachAndDelete id h .detach []).All fun r =>
      Removes s id .detach r ∧ Annals s r.1.effects r.2 := by
  subst hid
  have hlook := hi.indexed.lookup_id hh
  have hpath := removed_path hi hh
  rw [detachAndDelete_eq, if_pos rfl, Prog.all_bind]
  refine (settleAll_settles (hi.path hpath) fun w hw => ?_).mono ?_
  · exact (removed_alive (ne_of_mem_succ hi hw)).mpr (hi.mirrored.alive_target hw)
  rintro r ⟨es, hout, hs, ha⟩
  rw [List.nil_append] at hout
  have hre := Evolves.refresh r.1
  refine ⟨⟨?_, fun hf => ?_, fun _ v hv => ?_, fun hf hkeep v hv => ?_⟩,
    ((removed_annals s h).trans (by rwa [← hout] at ha)).quiet (silent_refresh r.1)⟩
  · dsimp only
    rw [hout]
    simpa using (hpath.trans hs.path).trans hre.path
  · exact hre.flagged (hs.flagged ((removed_respects hi).flagged
      ((isolated_edited s h).flagged hf)))
  · exact hre.settled v (hs.settled v (removed_settled hi v hv))
  refine hre.heldOK v (hs.heldOK v ?_)
  by_cases hready : v ∈ s.succ h ∧ (s.recs v).phase = .ready
  · refine .inr ⟨hready.1, ?_⟩
    rw [removed_recs, update_of_ne (ne_of_mem_succ hi hready.1), (isolated_edited s h).phase]
    exact hready.2
  refine .inl (removed_heldOK hi hh hf hv fun hmem hheld => ?_)
  refine hkeep (by simp) h hlook v hmem ?_
  rcases held_cases hheld with hp | hp | hp
  · exact absurd ⟨hmem, hp⟩ hready
  · exact .inl hp
  · exact .inr (.inl hp)

theorem delete_removes (hid : (s.recs h).id = id) (hne : policy ≠ .detach)
    (out : List Effect) :
    (s.detachAndDelete id h policy out).All fun r => r.1.effects = out ∧
      Path s [] r.2 ∧ Annals s [] r.2 ∧ (s.Flagged → r.2.Flagged) ∧
      ((∀ w ∈ s.succ h, (s.recs w).phase ≠ .blocked) →
        ∀ v, RuleOpen (s.recs v) → RuleOpen (r.2.recs v)) ∧
      (s.Flagged → (∀ v ∈ s.succ h, held (s.recs v).phase = true →
        (s.countsOf (s.preds v \ {id})).ready (s.recs v).trigger = true) →
          ∀ v, RuleMet (s.recs v) → RuleMet (r.2.recs v)) := by
  subst hid
  have hre := Evolves.refresh (s.removed h)
  rw [detachAndDelete_eq, if_neg hne]
  refine ⟨rfl, by simpa using (removed_path hi hh).trans hre.path,
    (removed_annals s h).quiet (silent_refresh _), fun hf => ?_,
    fun hblocked v hv => hre.settled v ?_, fun hf hkeep v hv => hre.heldOK v ?_⟩
  · exact hre.flagged ((removed_respects hi).flagged ((isolated_edited s h).flagged hf))
  · refine (removed_settled hi v hv).elim (fun h => h) fun hmem _ hb => ?_
    rw [removed_recs, update_of_ne (ne_of_mem_succ hi hmem), (isolated_edited s h).phase] at hb
    exact absurd hb (hblocked v hmem)
  · exact removed_heldOK hi hh hf hv fun hmem hheld => hkeep v hmem hheld

/-- Nothing is left to settle when there are no successors. -/
theorem leaf_removes (hid : (s.recs h).id = id) (hsucc : s.succ h = []) :
    (s.detachAndDelete id h policy []).All fun r =>
      Removes s id policy r ∧ Annals s r.1.effects r.2 := by
  by_cases hpol : policy = .detach
  · subst hpol
    exact detach_removes hi hh hid
  refine (delete_removes hi hh hid hpol []).mono ?_
  rintro r ⟨hout, hpath, ha, hflag, hset, hheld⟩
  refine ⟨⟨by rwa [hout], hflag, fun _ => hset (by simp [hsucc]),
    fun hf _ => hheld hf (by simp [hsucc])⟩, by rwa [hout]⟩

end Remove

/-- `RemoveNode` leaves nothing unsettled under a defined policy. -/
theorem removeNode_removes (hi : s.Inv) (id : NodeID) (policy : CascadePolicy) :
    (s.removeNode id policy).All fun r => Removes s id policy r ∧ Annals s r.1.effects r.2 := by
  have hnoop : ∀ e, Removes s id policy (({ err := some e } : EffectsResult), s) ∧
      Annals s [] s :=
    fun e => ⟨Removes.of_evolves (Evolves.refl s), .nil⟩
  unfold removeNode
  split
  · exact hnoop _
  rename_i h hlook
  have hh := hi.indexed.alive_of_lookup hlook
  have hid := hi.indexed.id_of_lookup hlook
  split
  · exact hnoop _
  split
  · rename_i hsucc
    exact leaf_removes hi hh hid hsucc
  cases policy with
  | reject => exact hnoop _
  | detach => exact detach_removes hi hh hid
  | fail =>
    rw [Prog.all_bind]
    refine (terminateAll_spec hi rfl).mono ?_
    rintro r ⟨es, hout, hev, hcasc, hdone⟩
    rw [List.nil_append] at hout
    have hh₁ : r.1.Alive h := by
      rw [Alive, hcasc.alive]
      exact hh
    -- the successors have all terminated
    have hdone₁ : ∀ w ∈ r.1.succ h, (r.1.recs w).phase = .done := by
      intro w hw
      rw [hcasc.succ] at hw
      exact hdone w hw (hi.mirrored.alive_target hw)
    refine (delete_removes (hi.path hev.path) hh₁ ((hcasc.id h).trans hid) (by simp)
      r.2).mono ?_
    rintro r' ⟨hout', hpath, ha, hflag, hset, hheld⟩
    have hall := hev.path.trans hpath
    have hannals := hev.annals.trans ha
    rw [List.append_nil, ← hout, ← hout'] at hall hannals
    refine ⟨⟨hall, fun hf => hflag (hev.flagged hf), fun _ v hv => ?_, fun hf _ v hv => ?_⟩,
      hannals⟩
    · exact hset (fun w hw => by simp [hdone₁ w hw]) v (hev.settled v hv)
    · refine hheld (hev.flagged hf) (fun w hw hheld => ?_) v (hev.heldOK v hv)
      simp [hdone₁ w hw, held] at hheld
  | unknown n =>
    have hundef : ¬ Defined (.unknown n) := fun h => h n rfl
    refine (delete_removes hi hh hid (by simp) []).mono ?_
    rintro r ⟨hout, hpath, ha, hflag, -, hheld⟩
    refine ⟨⟨by rwa [hout], hflag, fun hdef => absurd hdef hundef,
      fun hf hkeep => hheld hf fun v hv hp => ?_⟩, by rwa [hout]⟩
    refine hkeep (by simp) h hlook v hv ?_
    rcases held_cases hp with hp | hp | hp
    · exact .inr (.inr ⟨hp, hundef⟩)
    · exact .inl hp
    · exact .inr (.inl hp)

/-! ## Cancellation -/

/-- The identifiers `Cancel` gets to: those before the first unknown one. -/
def knownIDs (s : Scope) (ids : List NodeID) : List NodeID :=
  ids.takeWhile fun id => (s.lookup id).isSome

/-- A node that is cancelled before an error stays cancelled. -/
structure Cancels (s : Scope) (ids : List NodeID) (r : EffectsResult × Scope) : Prop where
  err : r.1.err = none ↔ s.knownIDs ids = ids
  kept : ∀ h, (s.recs h).phase = .done → (r.2.recs h).phase = .done
  done : ∀ id ∈ s.knownIDs ids, ∀ h, s.lookup id = some h → (r.2.recs h).phase = .done

theorem Cancels.cons {s₁ : Scope} {id : NodeID} {ids : List NodeID} {h : ℕ} (hc : Cancels s₁ ids r)
    (hl : s.lookup id = some h) (hindex : s₁.index = s.index) (hdone : (s₁.recs h).phase = .done)
    (hkept : ∀ k, (s.recs k).phase = .done → (s₁.recs k).phase = .done) :
    Cancels s (id :: ids) r := by
  have hlookup : s₁.lookup = s.lookup := by
    funext k
    rw [lookup, hindex, lookup]
  have hknown : s.knownIDs (id :: ids) = id :: s₁.knownIDs ids := by
    simp [knownIDs, hlookup, hl]
  refine ⟨?_, fun k hk => hc.kept k (hkept k hk), fun k hk g hg => ?_⟩
  · rw [hc.err, hknown]
    simp
  rw [hknown] at hk
  rcases List.mem_cons.mp hk with rfl | hk
  · obtain rfl := Option.mem_unique hl hg
    exact hc.kept h hdone
  · exact hc.done k hk g (by rwa [hlookup])

theorem cancelLoop_cancels (ids : List NodeID) {out : List Effect} (hi : s.Inv) :
    (cancelLoop ids s out).All fun r =>
      ∃ es, r.1.effects = out ++ es ∧ Tale s es r.2 ∧ Cancels s ids r := by
  induction ids generalizing s out with
  | nil =>
    exact ⟨[], by simp, (Tale.refl s).refresh, iff_of_true rfl rfl, fun _ h => h,
      by simp [knownIDs]⟩
  | cons id ids ih =>
    rw [cancelLoop]
    split
    · rename_i hnone
      exact ⟨[], by simp, .refl s, iff_of_false (by simp) (by simp [knownIDs, hnone]),
        fun _ h => h, by simp [knownIDs, hnone]⟩
    rename_i h hl
    split
    · rename_i hdone
      refine (ih hi).mono ?_
      rintro r ⟨es, hout, hev, hc⟩
      exact ⟨es, hout, hev, hc.cons hl rfl hdone fun _ h => h⟩
    · rw [Prog.all_bind]
      refine (terminate_drains hi rfl).mono ?_
      rintro r ⟨es, hout, hd, ha⟩
      refine (ih (hi.path hd.path)).mono ?_
      rintro r' ⟨es', hout', hev, hc⟩
      exact ⟨es ++ es', by rw [hout', hout, List.append_assoc], (hd.tale ha).trans hev,
        hc.cons hl hd.cascades.index
          (hd.finished _ (.head _) (hi.indexed.alive_of_lookup hl))
          fun k hk => (hd.cascades.done k hk).1⟩

theorem cancel_tale (hi : s.Inv) (ids : List NodeID) :
    (s.cancel ids).All fun r => Tale s r.1.effects r.2 := by
  refine (cancelLoop_cancels ids hi).mono ?_
  rintro r ⟨es, hout, hev, -⟩
  rw [hout]
  exact hev

theorem terminate_of_done {h : ℕ} (hdone : (s.recs h).phase = .done) (status : Status)
    (reason : Reason) (msg : String) (out : List Effect) :
    s.terminate h status reason msg out = pure (s, out) := by
  rw [terminate, terminateLoop]
  rw [if_pos (.inr hdone)]
  cases s.openEdges <;> rfl

/-- A node that has terminated is passed over either way. -/
theorem cancelLive_eq (hs : List ℕ) (s : Scope) (out : List Effect) :
    cancelLive hs s out =
      terminateAll .error .cancelled (terminalMessage .cancelled) hs s out := by
  induction hs generalizing s out with
  | nil => rfl
  | cons h hs ih =>
    rw [cancelLive, terminateAll]
    split
    · rename_i hdone
      rw [terminate_of_done hdone]
      exact ih s out
    · congr
      funext r
      exact ih r.1 r.2

theorem cancelScope_tale (hi : s.Inv) : s.cancelScope.All fun r => Tale s r.1.effects r.2 := by
  simp only [cancelScope, Prog.all_bind, Prog.all_getRange, Prog.pure_eq_ret, Prog.all_ret]
  intro ids _
  rw [cancelLive_eq]
  refine (terminateAll_spec hi rfl).mono ?_
  rintro r ⟨es, hout, hev, -⟩
  rw [hout]
  exact hev.refresh

end DagWorker.Memory.Scope
