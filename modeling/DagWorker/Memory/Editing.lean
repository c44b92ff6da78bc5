import DagWorker.Memory.Leasing

/-!
# Edits of the graph

The loops of `AddNodes`, `AddEdges`, `RemoveEdges` and `RemoveNode`.  Until the touched
nodes are settled, only tallies have changed: `Edited` says so, and names the nodes still
to be looked at.  A batch that fails is undone from its journal; `core` is what the undoing
restores, which is everything but ranks and the bookkeeping of slots.
-/

namespace DagWorker.Memory.Scope

open Function

variable {s : Scope} {v k : ℕ}

/-! ## Predecessors by identifier -/

/-- How a node with this record counts in the tallies of its successors. -/
def outcomeOf (r : NodeRec) : DepCounts.Outcome :=
  edgeOutcome (decide (r.phase = .done)) r

/-- How the node with this identifier counts, one still to be created included. -/
def idOutcome (s : Scope) (id : NodeID) : DepCounts.Outcome :=
  match s.lookup id with
  | some u => outcomeOf (s.recs u)
  | none => .unsatisfied

/-- The identifiers of the predecessors of a node. -/
def preds (s : Scope) (v : ℕ) : Finset NodeID :=
  ((s.sources v).map fun u => (s.recs u).id).toFinset

/-- The number of identifiers in `P` that count as `o`. -/
def countOf (s : Scope) (P : Finset NodeID) (o : DepCounts.Outcome) : ℕ :=
  (P.filter fun id => s.idOutcome id = o).card

/-- The tally of a node whose predecessors are those in `P`. -/
def countsOf (s : Scope) (P : Finset NodeID) : DepCounts :=
  { unsatisfied := s.countOf P .unsatisfied
    succeeded := s.countOf P .succeeded
    skipped := s.countOf P .skipped
    failed := s.countOf P .failed }

theorem count_countsOf (s : Scope) (P : Finset NodeID) (o : DepCounts.Outcome) :
    (s.countsOf P).count o = s.countOf P o := by
  cases o <;> rfl

/-- In a flagged scope an edge counts as its source does. -/
theorem edgeOutcome_eq (hi : s.Inv) (hf : s.Flagged) {e : PredEdge}
    (he : e ∈ s.pred v) :
    edgeOutcome e.satisfied (s.recs e.source) = outcomeOf (s.recs e.source) := by
  have hiff : e.satisfied = decide ((s.recs e.source).phase = .done) := by
    by_cases hd : (s.recs e.source).phase = .done
    · simp [hd, hf v e he hd]
    · have : e.satisfied ≠ true := fun hsat => hd (hi.tallied.satisfied_done v e he hsat)
      simp [hd, this]
  rw [outcomeOf, hiff]

/-- A node's tally is determined by the identifiers of its predecessors. -/
theorem deps_eq_countsOf (hi : s.Inv) (hf : s.Flagged) (v : ℕ) :
    (s.recs v).deps = s.countsOf (s.preds v) := by
  refine DepCounts.ext_count fun o => ?_
  have halive : ∀ u ∈ s.sources v, s.Alive u := fun u hu => hi.mirrored.alive_source hu
  have hinj : ∀ u ∈ s.sources v, ∀ w ∈ s.sources v,
      (s.recs u).id = (s.recs w).id → u = w := fun u hu w hw heq =>
    hi.indexed.id_inj (halive u hu) (halive w hw) heq
  have hnd : ((s.sources v).map fun u => (s.recs u).id).Nodup :=
    List.Nodup.map_on hinj (hi.mirrored.sources_nodup v)
  rw [count_countsOf, hi.tallied.count_eq, tally, countOf, preds, ← Count.countP_of_nodup hnd,
    List.countP_map, sources, List.countP_map]
  refine List.countP_congr fun e he => ?_
  have hsrc : e.source ∈ s.sources v := List.mem_map_of_mem he
  simp only [Function.comp, idOutcome, hi.indexed.lookup_id (halive _ hsrc),
    edgeOutcome_eq hi hf he]

/-! ## Tallies in flux -/

/-- What a scope keeps about a node outside its record, its rank apart. -/
def stamp (s : Scope) (h : ℕ) : Int × Int × ℕ := (s.deadline h, s.readyAt h, s.fifo h)

/-- What no batch of edges touches. -/
def aside (s : Scope) : ScopeConfig × Bool × (ℕ → Int × Int × ℕ) := (s.cfg, s.isSealed, s.stamp)

/-- Only tallies have changed, and only those of the nodes in `T`. -/
structure Edited (s : Scope) (T : Set ℕ) (s' : Scope) : Prop where
  path : Path s [] s'
  index : s'.index = s.index
  aside : s'.aside = s.aside
  deps : ∀ k, ∃ d, s'.recs k = { s.recs k with deps := d }
  same : ∀ k, k ∉ T → s'.recs k = s.recs k
  flagged : s.Flagged → s'.Flagged

namespace Edited

variable {s s₁ s₂ : Scope} {T T₁ T₂ U : Set ℕ}

theorem refl (s : Scope) : Edited s ∅ s :=
  ⟨Path.nil, rfl, rfl, fun k => ⟨(s.recs k).deps, rfl⟩, fun _ _ => rfl, fun hf => hf⟩

theorem mono (he : Edited s T₁ s₁) (hT : T₁ ⊆ T₂) : Edited s T₂ s₁ :=
  { he with same := fun k hk => he.same k fun hmem => hk (hT hmem) }

theorem trans (h₁ : Edited s T s₁) (h₂ : Edited s₁ T s₂) : Edited s T s₂ := by
  refine ⟨h₁.path.trans h₂.path, h₂.index.trans h₁.index, h₂.aside.trans h₁.aside, fun k => ?_,
    fun k hk => (h₂.same k hk).trans (h₁.same k hk), fun hf => h₂.flagged (h₁.flagged hf)⟩
  obtain ⟨d, hd⟩ := h₁.deps k
  obtain ⟨d', hd'⟩ := h₂.deps k
  exact ⟨d', by rw [hd', hd]⟩

section

variable (he : Edited s T s₁)
include he

theorem alive (k : ℕ) : s₁.Alive k ↔ s.Alive k := by
  obtain ⟨d, hd⟩ := he.deps k
  rw [Alive, hd]

theorem silent : Silent s s₁ := by
  intro k hk
  obtain ⟨d, hd⟩ := he.deps k
  rw [hd]
  exact ⟨(he.alive k).mp hk, Silent.keeps_deps _ d⟩

theorem phase (k : ℕ) : (s₁.recs k).phase = (s.recs k).phase := by
  obtain ⟨d, hd⟩ := he.deps k
  rw [hd]

theorem trigger (k : ℕ) : (s₁.recs k).trigger = (s.recs k).trigger := by
  obtain ⟨d, hd⟩ := he.deps k
  rw [hd]

theorem id (k : ℕ) : (s₁.recs k).id = (s.recs k).id := by
  obtain ⟨d, hd⟩ := he.deps k
  rw [hd]

theorem outcome (k : ℕ) : outcomeOf (s₁.recs k) = outcomeOf (s.recs k) := by
  obtain ⟨d, hd⟩ := he.deps k
  rw [hd]
  rfl

theorem lookup (id : NodeID) : s₁.lookup id = s.lookup id := by
  rw [Scope.lookup, Scope.lookup, he.index]

theorem idOutcome (id : NodeID) : s₁.idOutcome id = s.idOutcome id := by
  rw [Scope.idOutcome, Scope.idOutcome, he.lookup]
  cases s.lookup id with
  | none => rfl
  | some u => exact he.outcome u

theorem countsOf (P : Finset NodeID) : s₁.countsOf P = s.countsOf P := by
  simp only [Scope.countsOf, Scope.countOf, he.idOutcome]

theorem preds_of_sources (hsrc : s₁.sources k = s.sources k) : s₁.preds k = s.preds k := by
  simp only [Scope.preds, hsrc, he.id]

/-- The nodes whose tallies changed are still to be settled. -/
theorem settled (v : ℕ) (hv : RuleOpen (s.recs v)) : RuleOpen (s₁.recs v) ∨ v ∈ T := by
  by_cases hmem : v ∈ T
  · exact .inr hmem
  · rw [he.same v hmem]
    exact .inl hv

/-- A node keeps its hold if its new tally still satisfies its rule. -/
theorem heldOK {v : ℕ} (hs : RuleMet (s.recs v))
    (hT : s.Alive v → held (s.recs v).phase = true → v ∈ T →
      (s₁.recs v).deps.ready (s.recs v).trigger = true) : RuleMet (s₁.recs v) := by
  by_cases hmem : v ∈ T
  · intro hv hheld
    rw [he.phase] at hheld
    rw [he.trigger]
    exact hT ((he.alive v).mp hv) hheld hmem
  · rwa [he.same v hmem]

end

end Edited

/-- The new ranks leave everything else alone. -/
theorem Edited.rerank {ord : ℕ → ℕ} (hord : s.Reranks ord) :
    Edited s ∅ { s with ord := ord } :=
  ⟨Path.single (Step.rerank ord hord), rfl, rfl, fun k => ⟨(s.recs k).deps, rfl⟩, fun _ _ => rfl,
    fun hf => hf⟩

theorem deps_of_update {s' : Scope} {d : DepCounts}
    (hrecs : s'.recs = update s.recs v { s.recs v with deps := d }) :
    (∀ k, ∃ d, s'.recs k = { s.recs k with deps := d }) ∧
      ∀ k, k ∉ ({v} : Set ℕ) → s'.recs k = s.recs k := by
  refine ⟨fun k => ?_, fun k hk => by rw [hrecs, update_of_ne hk]⟩
  by_cases hk : k = v
  · subst hk
    exact ⟨d, by rw [hrecs, update_self]⟩
  · exact ⟨(s.recs k).deps, by rw [hrecs, update_of_ne hk]⟩

section Link

variable {s : Scope} {u v : ℕ}

theorem Edited.link (hu : s.Alive u) (hv : s.Alive v) (hopen : (s.recs v).phase ≠ .done)
    (hnew : s.hasEdge u v = false) (hlt : s.ord u < s.ord v) :
    Edited s {v} (s.linkEdge u v) := by
  have hpath := Path.single (Step.link u v hu hv hopen hnew hlt)
  rw [linkEdge_eq] at hpath ⊢
  obtain ⟨hdeps, hsame⟩ := deps_of_update (linked_recs s u v)
  refine ⟨hpath, rfl, rfl, hdeps, hsame, fun hf k e he hdone => ?_⟩
  rw [Tallied.phase_deps (linked_recs s u v)] at hdone
  by_cases hk : k = v
  · subst hk
    simp only [linked_pred, update_self, List.mem_append, List.mem_singleton] at he
    rcases he with he | rfl
    · exact hf k e he hdone
    · simpa using hdone
  · rw [linked_pred, update_of_ne hk] at he
    exact hf k e he hdone

theorem preds_linkEdge (s : Scope) (u v k : ℕ) :
    (s.linkEdge u v).preds k =
      if k = v then insert (s.recs u).id (s.preds v) else s.preds k := by
  have hid : ∀ w, ((s.linked u v).recs w).id = (s.recs w).id := by
    intro w
    by_cases hw : w = v <;> simp [hw]
  rw [linkEdge_eq, preds, Mirrored.sources_linked]
  simp only [hid]
  split
  · ext id
    simp [preds, eq_comm]
  · rfl

theorem Edited.unlink (s : Scope) (u v : ℕ) : Edited s {v} (s.unlinkEdge u v).1 := by
  have hpath := Path.single (Step.unlink (s := s) u v)
  revert hpath
  apply unlinkEdge_cases (C := fun t => Path s [] t → Edited s {v} t)
  · exact fun _ => (Edited.refl s).mono (Set.empty_subset _)
  intro e _ hpath
  obtain ⟨hdeps, hsame⟩ := deps_of_update (unlinked_recs s u v e)
  refine ⟨hpath, rfl, rfl, hdeps, hsame, fun hf k e' he hdone => ?_⟩
  rw [Tallied.phase_deps (unlinked_recs s u v e)] at hdone
  by_cases hk : k = v
  · subst hk
    rw [unlinked_pred, update_self] at he
    exact hf k e' (List.mem_of_mem_eraseP he) hdone
  · rw [unlinked_pred, update_of_ne hk] at he
    exact hf k e' he hdone

theorem unlinkEdge_of_not_changed (h : (s.unlinkEdge u v).2 = false) :
    (s.unlinkEdge u v).1 = s := by
  cases hfind : (s.pred v).find? fun e => e.source = u with
  | none => rw [unlinkEdge_of_none s hfind]
  | some e =>
    rw [unlinkEdge_of_some s hfind] at h
    cases h

theorem mem_sources_unlinkEdge (hi : s.Inv) (u v a k : ℕ) :
    a ∈ (s.unlinkEdge u v).1.sources k ↔ a ∈ s.sources k ∧ ¬ (a = u ∧ k = v) := by
  cases hfind : (s.pred v).find? fun e => e.source = u with
  | none =>
    rw [unlinkEdge_of_none s hfind]
    refine ⟨fun ha => ⟨ha, ?_⟩, And.left⟩
    rintro ⟨rfl, rfl⟩
    obtain ⟨e, he, hsrc⟩ := List.mem_map.mp ha
    simpa [hsrc] using List.find?_eq_none.mp hfind e he
  | some e =>
    rw [unlinkEdge_of_some s hfind, Mirrored.sources_unlinked]
    by_cases hk : k = v
    · rw [if_pos hk, (hi.mirrored.sources_nodup v).mem_erase_iff, hk]
      tauto
    · rw [if_neg hk]
      tauto

theorem preds_unlinkEdge (hi : s.Inv) (hu : s.Alive u) (k : ℕ) :
    (s.unlinkEdge u v).1.preds k =
      if k = v then (s.preds v).erase (s.recs u).id else s.preds k := by
  have hid : ∀ w, ((s.unlinkEdge u v).1.recs w).id = (s.recs w).id := by
    intro w
    apply unlinkEdge_cases (C := fun t => (t.recs w).id = (s.recs w).id) s rfl
    intro e _
    by_cases hw : w = v <;> simp [hw]
  ext id
  simp only [preds, List.mem_toFinset, List.mem_map, hid, mem_sources_unlinkEdge hi]
  split
  · rename_i hk
    simp only [Finset.mem_erase, List.mem_toFinset, List.mem_map, ← hk]
    constructor
    · rintro ⟨w, ⟨hw, hne⟩, rfl⟩
      exact ⟨fun heq => hne ⟨hi.indexed.id_inj (hi.mirrored.alive_source hw) hu heq, trivial⟩,
        w, hw, rfl⟩
    · rintro ⟨hne, w, hw, rfl⟩
      exact ⟨w, ⟨hw, fun h => hne (by rw [h.1])⟩, rfl⟩
  · rename_i hk
    simp [hk]

end Link

/-! ## What undoing restores -/

/-- A scope without its ranks and the bookkeeping of its slots. -/
@[simps -fullyApplied]
def core (s : Scope) : Scope :=
  { s with
    index := ∅
    size := 0
    free := []
    ord := fun _ => 0
    nextOrd := 0
    deadline := fun _ => 0
    readyAt := fun _ => 0
    fifo := fun _ => 0 }

theorem core_unlinkEdge (s : Scope) (u v : ℕ) :
    core (s.unlinkEdge u v).1 = (s.core.unlinkEdge u v).1 := by
  cases hfind : (s.pred v).find? fun e => e.source = u with
  | none =>
    rw [unlinkEdge_of_none s hfind, unlinkEdge_of_none s.core (by simpa using hfind)]
  | some e =>
    rw [unlinkEdge_of_some s hfind, unlinkEdge_of_some s.core (by simpa using hfind)]
    rfl

theorem core_unlinkEdges (es : List (ℕ × ℕ)) (s : Scope) :
    core (unlinkEdges es s) = unlinkEdges es s.core := by
  induction es generalizing s with
  | nil => rfl
  | cons e es ih => rw [unlinkEdges, unlinkEdges, ih, core_unlinkEdge]

theorem core_deleteNode (s : Scope) (id : NodeID) (h : ℕ) :
    core (s.deleteNode id h) = core (s.core.deleteNode id h) := by
  rfl

theorem core_unlink_link (hi : s.Inv) {u : ℕ} (hnew : s.hasEdge u v = false) :
    core ((s.linkEdge u v).unlinkEdge u v).1 = s.core := by
  have hnone : ∀ e ∈ s.pred v, ¬ (e.source = u) := by
    simpa [hasEdge, List.any_eq_false] using hnew
  have hsucc : v ∉ s.succ u := by
    rw [hi.mirrored.mem_succ, sources, List.mem_map]
    rintro ⟨e, he, hsrc⟩
    exact hnone e he hsrc
  have hfind : ((s.linked u v).pred v).find? (fun e => e.source = u) =
      some { source := u, satisfied := decide ((s.recs u).phase = .done) } := by
    have : (s.pred v).find? (fun e => e.source = u) = none :=
      List.find?_eq_none.mpr (by simpa using hnone)
    simp [List.find?_append, this]
  have hout := Tallied.outcome_deps (linked_recs s u v)
  have herase : ∀ b, (s.pred v ++ [PredEdge.mk u b]).eraseP (fun e => e.source = u) =
      s.pred v := by
    intro b
    rw [List.eraseP_append_right _ (by simpa using hnone)]
    simp
  rw [linkEdge_eq, unlinkEdge_of_some _ hfind, unlinked]
  simp only [hout]
  simp [core, linked, herase, List.erase_append_right _ hsucc, DepCounts.decr_incr]

theorem core_delete_create (hi : s.Inv) (spec : NodeSpec) (now : Int) (id : NodeID) :
    core ((s.created spec now).deleteNode id s.slot) = s.core := by
  have hslot := hi.indexed.not_alive_slot
  have hrecs : update s.recs s.slot {} = s.recs := by
    rw [← hi.indexed.dead _ hslot, update_eq_self]
  have hsucc : update s.succ s.slot [] = s.succ := by
    rw [← hi.mirrored.dead_succ _ hslot, update_eq_self]
  have hpred : update s.pred s.slot [] = s.pred := by
    rw [← hi.mirrored.dead_pred _ hslot, update_eq_self]
  rw [deleteNode_eq]
  simp [core, deleted, created, hrecs, hsucc, hpred, newRec, bucket, addCounter]

/-! ## Adding edges -/

/-- The sources of the listed edges into the node `k`. -/
def incoming (s : Scope) (es : List Edge) (k : ℕ) : Finset NodeID :=
  ((es.filter fun e => s.lookup e.toID = some k).map Edge.fromID).toFinset

theorem mem_incoming {es : List Edge} {id : NodeID} :
    id ∈ s.incoming es k ↔ ∃ e ∈ es, s.lookup e.toID = some k ∧ e.fromID = id := by
  simp [incoming, and_assoc]

theorem incoming_nil (s : Scope) (k : ℕ) : s.incoming [] k = ∅ := rfl

theorem incoming_append (s : Scope) (es es' : List Edge) (k : ℕ) :
    s.incoming (es ++ es') k = s.incoming es k ∪ s.incoming es' k := by
  ext id
  simp only [mem_incoming, Finset.mem_union, List.mem_append]
  constructor
  · rintro ⟨e, he | he, hk⟩
    · exact .inl ⟨e, he, hk⟩
    · exact .inr ⟨e, he, hk⟩
  · rintro (⟨e, he, hk⟩ | ⟨e, he, hk⟩)
    · exact ⟨e, .inl he, hk⟩
    · exact ⟨e, .inr he, hk⟩

theorem incoming_singleton (s : Scope) (a b : NodeID) (k : ℕ) :
    s.incoming [⟨a, b⟩] k = if s.lookup b = some k then {a} else ∅ := by
  by_cases hk : s.lookup b = some k <;> simp [incoming, hk]

theorem Edited.incoming {s' : Scope} {T : Set ℕ} (he : Edited s T s') (es : List Edge)
    (k : ℕ) : s'.incoming es k = s.incoming es k := by
  simp only [Scope.incoming, he.lookup]

/-- The edges `es` have been added and entered into the journal, where they were
new; the nodes in `T` are to be settled. -/
structure Links (s : Scope) (j : Journal) (T : Set ℕ) (es : List Edge) (s' : Scope)
    (j' : Journal) : Prop where
  edited : Edited s T s'
  preds : ∀ k, s'.preds k = s.preds k ∪ s.incoming es k
  created : j'.created = j.created
  undo : core (unlinkEdges j'.edges.reverse s') = core (unlinkEdges j.edges.reverse s)

namespace Links

variable {s s₁ s₂ : Scope} {j j₁ j₂ : Journal} {T T' : Set ℕ} {es es' : List Edge}

theorem refl (s : Scope) (j : Journal) : Links s j ∅ [] s j :=
  ⟨Edited.refl s, fun k => by rw [incoming_nil, Finset.union_empty], rfl, rfl⟩

theorem mono (hl : Links s j T es s₁ j₁) (hT : T ⊆ T') : Links s j T' es s₁ j₁ :=
  { hl with edited := hl.edited.mono hT }

theorem trans (h₁ : Links s j T es s₁ j₁) (h₂ : Links s₁ j₁ T es' s₂ j₂) :
    Links s j T (es ++ es') s₂ j₂ := by
  refine ⟨h₁.edited.trans h₂.edited, fun k => ?_, h₂.created.trans h₁.created,
    h₂.undo.trans h₁.undo⟩
  rw [h₂.preds, h₁.preds, h₁.edited.incoming, incoming_append, Finset.union_assoc]

end Links

/-- One edge: it is there already, it is added, or nothing has changed. -/
theorem tryLink_links (hi : s.Inv) {a b : NodeID} (id : NodeID) {u : ℕ}
    (j : Journal)
    (hu : s.lookup a = some u) (hv : s.lookup b = some v) (hne : u ≠ v) :
    (∃ e, s.tryLink u v id j = (.error e, s, j)) ∨
      ∃ new s' j', s.tryLink u v id j = (.ok new, s', j') ∧
        Links s j (if new then {v} else ∅) [⟨a, b⟩] s' j' := by
  have hau := hi.indexed.alive_of_lookup hu
  have hav := hi.indexed.alive_of_lookup hv
  have hida := hi.indexed.id_of_lookup hu
  unfold tryLink
  split
  · rename_i hedge
    refine .inr ⟨false, s, j, rfl, Edited.refl s, fun k => ?_, rfl, rfl⟩
    rw [incoming_singleton, hv]
    split
    · rename_i hk
      obtain rfl := Option.some.inj hk
      refine (Finset.union_eq_left.mpr (Finset.singleton_subset_iff.mpr ?_)).symm
      simp only [hasEdge, List.any_eq_true, decide_eq_true_eq] at hedge
      obtain ⟨e, he, hsrc⟩ := hedge
      rw [preds, List.mem_toFinset, ← hida, ← hsrc]
      exact List.mem_map_of_mem (List.mem_map_of_mem he)
    · rw [Finset.union_empty]
  · rename_i hedge
    have hnew : s.hasEdge u v = false := by simpa using hedge
    split
    · exact .inl ⟨_, rfl⟩
    rename_i hopen
    rcases addEdgeOrder_cases hi.ranked hi.mirrored hau hav hne with
      ⟨res, path, heq, hcycle⟩ | ⟨res, ord, heq, hcycle, hord, hlt⟩
    · left
      rw [heq]
      obtain ⟨fast, visited, cyc⟩ := res
      subst hcycle
      exact ⟨_, rfl⟩
    · right
      rw [heq]
      obtain ⟨fast, visited, cyc⟩ := res
      subst hcycle
      have hrank := Edited.rerank hord
      have hi₁ : Scope.Inv { s with ord := ord } := hi.rerank hord
      refine ⟨true, _, _, rfl, (hrank.mono (Set.empty_subset _)).trans
        (Edited.link hau hav hopen hnew hlt), fun k => ?_, rfl, ?_⟩
      · rw [preds_linkEdge, incoming_singleton, hv]
        split
        · rename_i hk
          subst hk
          rw [if_pos rfl, Finset.union_comm, ← Finset.insert_eq, hrank.preds_of_sources rfl]
          rw [show Scope.recs { s with ord := ord } u = s.recs u from rfl, hida]
        · rename_i hk
          rw [if_neg fun h => hk (Option.some.inj h).symm, Finset.union_empty,
            hrank.preds_of_sources rfl]
      · rw [List.reverse_append, List.reverse_singleton, List.singleton_append, unlinkEdges,
          core_unlinkEdges, core_unlink_link hi₁ hnew, core_unlinkEdges]
        rfl

/-- The edges a spec declares. -/
def specEdges (spec : NodeSpec) : List Edge :=
  spec.deps.map fun dep => { fromID := dep, toID := spec.id }

/-- The dependencies of one spec: all are added, or an error is returned with a
journal that undoes what was. -/
theorem linkDeps_links {id : NodeID} {deps : List NodeID} (j : Journal)
    (hi : s.Inv) (hv : s.lookup id = some v) (hself : id ∉ deps) :
    (∃ e es s' j', linkDeps id v deps s j = (some e, s', j') ∧ Links s j {v} es s' j') ∨
      ∃ s' j', linkDeps id v deps s j = (none, s', j') ∧
        Links s j {v} (deps.map fun dep => ⟨dep, id⟩) s' j' := by
  induction deps generalizing s j with
  | nil => exact .inr ⟨s, j, rfl, (Links.refl s j).mono (Set.empty_subset _)⟩
  | cons dep deps ih =>
    have hnil : Links s j {v} [] s j := (Links.refl s j).mono (Set.empty_subset _)
    rw [List.mem_cons, not_or] at hself
    rw [linkDeps]
    split
    · exact .inl ⟨_, [], s, j, rfl, hnil⟩
    rename_i u hu
    have hne : u ≠ v := by
      rintro rfl
      exact hself.1 ((hi.indexed.id_of_lookup hv).symm.trans (hi.indexed.id_of_lookup hu))
    rcases tryLink_links hi id j hu hv hne with ⟨e, heq⟩ | ⟨new, s₁, j₁, heq, hl⟩
    · rw [heq]
      exact .inl ⟨e, [], s, j, rfl, hnil⟩
    rw [heq]
    have hl : Links s j {v} [⟨dep, id⟩] s₁ j₁ := hl.mono (by split <;> simp)
    have hv₁ : s₁.lookup id = some v := (hl.edited.lookup id).trans hv
    rcases ih j₁ (hi.path hl.edited.path) hv₁ hself.2 with
      ⟨e, es, s', j', heq', hl'⟩ | ⟨s', j', heq', hl'⟩
    · exact .inl ⟨e, _, s', j', heq', hl.trans hl'⟩
    · exact .inr ⟨s', j', heq', hl.trans hl'⟩

theorem mem_addOnce {items : List ℕ} {h : ℕ} : k ∈ addOnce items h ↔ k = h ∨ k ∈ items := by
  unfold addOnce
  split
  · rename_i hmem
    constructor
    · exact .inr
    · rintro (rfl | hk)
      · exact hmem
      · exact hk
  · simp [or_comm]

theorem linkBatch_links {specs : List NodeSpec} (j : Journal) (touched : List ℕ)
    (hi : s.Inv) (hfound : ∀ spec ∈ specs, ∃ h, s.lookup spec.id = some h)
    (hself : ∀ spec ∈ specs, spec.id ∉ spec.deps) :
    (∃ e T es s' j' t, linkBatch specs s j touched = (some e, s', j', t) ∧
        Links s j T es s' j') ∨
      ∃ s' j' t, linkBatch specs s j touched = (none, s', j', t) ∧
        Links s j { k | k ∈ t } (specs.flatMap specEdges) s' j' ∧
        ∀ k, k ∈ t ↔ k ∈ touched ∨ ∃ spec ∈ specs, s.lookup spec.id = some k := by
  induction specs generalizing s j touched with
  | nil =>
    exact .inr ⟨s, j, touched, rfl, (Links.refl s j).mono (Set.empty_subset _), by simp⟩
  | cons spec specs ih =>
    obtain ⟨v, hv⟩ := hfound spec (.head _)
    rw [linkBatch, hv]
    dsimp only [Option.getD_some]
    rcases linkDeps_links j hi hv (hself spec (.head _)) with
      ⟨e, es, s₁, j₁, heq, hl⟩ | ⟨s₁, j₁, heq, hl⟩
    · rw [heq]
      exact .inl ⟨e, _, es, s₁, j₁, touched, rfl, hl⟩
    rw [heq]
    have hlook := hl.edited.lookup
    rcases ih j₁ (addOnce touched v) (hi.path hl.edited.path)
        (fun sp hsp => by
          rw [hlook]
          exact hfound sp (.tail _ hsp))
        (fun sp hsp => hself sp (.tail _ hsp)) with
      ⟨e, T, es, s', j', t, heq', hl'⟩ | ⟨s', j', t, heq', hl', ht⟩
    · exact .inl ⟨e, T ∪ {v}, _, s', j', t, heq',
        (hl.mono Set.subset_union_right).trans (hl'.mono Set.subset_union_left)⟩
    have hvt : v ∈ t := (ht v).mpr (.inl (mem_addOnce.mpr (.inl rfl)))
    refine .inr ⟨s', j', t, heq', (hl.mono (by simpa using hvt)).trans hl', fun k => ?_⟩
    rw [ht]
    simp only [mem_addOnce, hlook, List.mem_cons, exists_eq_or_imp, hv, Option.some.injEq]
    tauto

theorem linkEdgeList_links (es : List Edge) (j : Journal) (touched : List ℕ)
    (hi : s.Inv) :
    (∃ e T es' s' j' t, linkEdgeList es s j touched = (some e, s', j', t) ∧
        Links s j T es' s' j') ∨
      ∃ s' j' t, linkEdgeList es s j touched = (none, s', j', t) ∧
        Links s j { k | k ∈ t } es s' j' ∧ (∀ k ∈ touched, k ∈ t) ∧
        ∀ k ∈ t, k ∈ touched ∨ s.Alive k := by
  induction es generalizing s j touched with
  | nil =>
    exact .inr ⟨s, j, touched, rfl, (Links.refl s j).mono (Set.empty_subset _),
      fun _ h => h, fun _ h => .inl h⟩
  | cons e es ih =>
    rw [linkEdgeList]
    split
    · exact .inl ⟨_, ∅, [], s, j, touched, rfl, Links.refl s j⟩
    rename_i u hu
    split
    · exact .inl ⟨_, ∅, [], s, j, touched, rfl, Links.refl s j⟩
    rename_i v hv
    split
    · exact .inl ⟨_, ∅, [], s, j, touched, rfl, Links.refl s j⟩
    rename_i hne
    rcases tryLink_links hi e.toID j hu hv hne with
      ⟨err, heq⟩ | ⟨new, s₁, j₁, heq, hl⟩
    · rw [heq]
      exact .inl ⟨err, ∅, [], s, j, touched, rfl, Links.refl s j⟩
    rw [heq]
    rcases ih j₁ (if new then addOnce touched v else touched)
        (hi.path hl.edited.path) with
      ⟨err, T, es', s', j', t, heq', hl'⟩ | ⟨s', j', t, heq', hl', hsub, hmem⟩
    · exact .inl ⟨err, T ∪ (if new then {v} else ∅), _, s', j', t, heq',
        (hl.mono Set.subset_union_right).trans (hl'.mono Set.subset_union_left)⟩
    have hT : (if new then {v} else ∅ : Set ℕ) ⊆ { k | k ∈ t } := by
      cases new with
      | false => simp
      | true =>
        simpa using hsub v (mem_addOnce.mpr (.inl rfl))
    refine .inr ⟨s', j', t, heq', (hl.mono hT).trans hl', fun k hk => ?_,
      fun k hk => ?_⟩
    · refine hsub k ?_
      split
      · exact mem_addOnce.mpr (.inr hk)
      · exact hk
    · rcases hmem k hk with hk | hk
      · cases new with
        | false => exact .inl hk
        | true =>
          rcases mem_addOnce.mp hk with rfl | hk
          · exact .inr (hi.indexed.alive_of_lookup hv)
          · exact .inl hk
      · exact .inr ((hl.edited.alive k).mp hk)

end DagWorker.Memory.Scope
