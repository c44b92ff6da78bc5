import DagWorker.Memory.Slots

/-!
# Edges and tallies

Both halves of an edge are stored, and a node's tally counts its predecessors by what they
have come to.  `Mirrored` and `Tallied` hold after every elementary transition, in the
middle of a cascade too: a predecessor that has just terminated counts as unsatisfied until
its edge is marked.
-/

namespace DagWorker.Memory.Scope

open Function

variable {es : List PredEdge} {e : PredEdge} {d : DepCounts}

/-! ## The two halves of an edge -/

/-- The sources of the incoming edges of a node. -/
def sources (s : Scope) (v : ℕ) : List ℕ := (s.pred v).map PredEdge.source

/-- The lists mention only live nodes, hold nothing twice, and mirror each
other. -/
structure Mirrored (s : Scope) : Prop where
  dead_succ : ∀ h, ¬ s.Alive h → s.succ h = []
  dead_pred : ∀ h, ¬ s.Alive h → s.pred h = []
  succ_nodup : ∀ h, (s.succ h).Nodup
  sources_nodup : ∀ h, (s.sources h).Nodup
  mem_succ : ∀ u v, v ∈ s.succ u ↔ u ∈ s.sources v

/-- The first element that satisfies `p`, and the rest. -/
theorem perm_cons_eraseP {α : Type} {p : α → Bool} {l : List α} {a : α}
    (h : l.find? p = some a) : l.Perm (a :: l.eraseP p) := by
  induction l with
  | nil => simp at h
  | cons b l ih =>
    by_cases hb : p b = true
    · simp only [List.find?_cons, hb, Option.some.injEq] at h
      subst h
      simp [hb]
    · simp only [List.find?_cons, hb] at h
      rw [List.eraseP_cons_of_neg hb]
      exact ((ih h).cons b).trans (List.Perm.swap a b _)

theorem flipFirst_eq_some {u : ℕ} {l : List PredEdge} (h : flipFirst u l = some es) :
    ∃ l₁ l₂, l = l₁ ++ { source := u, satisfied := false } :: l₂ ∧
      es = l₁ ++ { source := u, satisfied := true } :: l₂ := by
  induction l generalizing es with
  | nil => simp [flipFirst] at h
  | cons e l ih =>
    rw [flipFirst] at h
    split at h
    · rename_i he
      obtain ⟨src, sat⟩ := e
      obtain ⟨rfl, rfl⟩ := he
      simp only [Option.some.injEq] at h
      exact ⟨[], l, rfl, h.symm⟩
    · rw [Option.map_eq_some_iff] at h
      obtain ⟨es', hes', rfl⟩ := h
      obtain ⟨l₁, l₂, rfl, rfl⟩ := ih hes'
      exact ⟨e :: l₁, l₂, rfl, rfl⟩

/-- The scope once `v` has left every successor list. -/
@[simps -fullyApplied]
def severed (s : Scope) (v : ℕ) : Scope :=
  { s with succ := fun u => (s.succ u).erase v }

namespace Mirrored

variable {s s' : Scope} {u v h : ℕ}

section

variable (hm : s.Mirrored)
include hm

theorem alive_of_mem_succ (huv : v ∈ s.succ u) : s.Alive u := by
  by_contra hu
  rw [hm.dead_succ u hu] at huv
  cases huv

theorem alive_of_mem_sources (huv : u ∈ s.sources v) : s.Alive v := by
  by_contra hv
  rw [sources, hm.dead_pred v hv] at huv
  cases huv

theorem alive_target (huv : v ∈ s.succ u) : s.Alive v :=
  hm.alive_of_mem_sources ((hm.mem_succ u v).mp huv)

theorem alive_source (huv : u ∈ s.sources v) : s.Alive u :=
  hm.alive_of_mem_succ ((hm.mem_succ u v).mpr huv)

/-- A change that leaves the edges and the liveness of slots alone. -/
theorem congr (hsucc : s'.succ = s.succ) (hsources : ∀ v, s'.sources v = s.sources v)
    (halive : ∀ k, (s'.recs k).alive = (s.recs k).alive) : s'.Mirrored := by
  have hpred : ∀ k, ¬ s.Alive k → s'.pred k = [] := by
    intro k hk
    have hnil := hsources k
    simp only [sources, hm.dead_pred k hk, List.map_nil, List.map_eq_nil_iff] at hnil
    exact hnil
  refine ⟨?_, ?_, ?_, ?_, ?_⟩
  · intro k hk
    rw [Alive, halive] at hk
    rw [hsucc]
    exact hm.dead_succ k hk
  · intro k hk
    rw [Alive, halive] at hk
    exact hpred k hk
  · rw [hsucc]
    exact hm.succ_nodup
  · intro k
    rw [hsources]
    exact hm.sources_nodup k
  · intro a b
    rw [hsucc, hsources]
    exact hm.mem_succ a b

theorem create (hs : s.Indexed) (spec : NodeSpec) (now : Int) : (s.created spec now).Mirrored := by
  have hslot := hs.not_alive_slot
  have hsucc : (s.created spec now).succ = s.succ := by
    rw [created_succ, ← hm.dead_succ _ hslot, update_eq_self]
  have hpred : (s.created spec now).pred = s.pred := by
    rw [created_pred, ← hm.dead_pred _ hslot, update_eq_self]
  have halive : ∀ k, ¬ (s.created spec now).Alive k → ¬ s.Alive k := by
    intro k hk hk'
    have hne : k ≠ s.slot := fun heq => hslot (heq ▸ hk')
    exact hk (by simpa [Alive, hne] using hk')
  refine ⟨?_, ?_, ?_, ?_, ?_⟩
  · intro k hk
    rw [hsucc]
    exact hm.dead_succ k (halive k hk)
  · intro k hk
    rw [hpred]
    exact hm.dead_pred k (halive k hk)
  · rw [hsucc]
    exact hm.succ_nodup
  · simp only [sources, hpred]
    exact hm.sources_nodup
  · simp only [sources, hpred, hsucc]
    exact hm.mem_succ

/-- Deleting a node that appears in no successor list, with its own lists. -/
theorem delete (id : NodeID) (hsucc : s.succ h = []) (hpred : s.pred h = []) :
    (s.deleted h id).Mirrored := by
  have hsucc' : (s.deleted h id).succ = s.succ := by
    rw [deleted_succ, ← hsucc, update_eq_self]
  have hpred' : (s.deleted h id).pred = s.pred := by
    rw [deleted_pred, ← hpred, update_eq_self]
  refine ⟨?_, ?_, ?_, ?_, ?_⟩
  · intro k hk
    rw [hsucc']
    by_cases hkh : k = h
    · rw [hkh, hsucc]
    · exact hm.dead_succ k fun hk' => hk (by simpa [Alive, hkh] using hk')
  · intro k hk
    rw [hpred']
    by_cases hkh : k = h
    · rw [hkh, hpred]
    · exact hm.dead_pred k fun hk' => hk (by simpa [Alive, hkh] using hk')
  · rw [hsucc']
    exact hm.succ_nodup
  · simp only [sources, hpred']
    exact hm.sources_nodup
  · simp only [sources, hpred', hsucc']
    exact hm.mem_succ

end

theorem sources_linked (s : Scope) (u v k : ℕ) :
    (s.linked u v).sources k = if k = v then s.sources v ++ [u] else s.sources k := by
  by_cases hk : k = v <;> simp [sources, hk]

theorem link (hm : s.Mirrored) (hu : s.Alive u) (hv : s.Alive v)
    (hnew : s.hasEdge u v = false) : (s.linked u v).Mirrored := by
  have hsrc : u ∉ s.sources v := by
    intro hmem
    obtain ⟨e, he, rfl⟩ := List.mem_map.mp hmem
    simp only [hasEdge, List.any_eq_false, decide_eq_true_eq] at hnew
    exact hnew e he rfl
  have htgt : v ∉ s.succ u := fun hmem => hsrc ((hm.mem_succ u v).mp hmem)
  have halive : ∀ k, (s.linked u v).Alive k ↔ s.Alive k := by
    intro k
    by_cases hk : k = v <;> simp [Alive, hk]
  refine ⟨?_, ?_, ?_, ?_, ?_⟩
  · intro k hk
    rw [halive] at hk
    have hne : k ≠ u := fun heq => hk (heq ▸ hu)
    rw [linked_succ, update_of_ne hne]
    exact hm.dead_succ k hk
  · intro k hk
    rw [halive] at hk
    have hne : k ≠ v := fun heq => hk (heq ▸ hv)
    rw [linked_pred, update_of_ne hne]
    exact hm.dead_pred k hk
  · intro k
    by_cases hk : k = u
    · subst hk
      rw [linked_succ, update_self, (List.perm_append_singleton _ _).nodup_iff]
      exact List.nodup_cons.mpr ⟨htgt, hm.succ_nodup k⟩
    · simpa [hk] using hm.succ_nodup k
  · intro k
    rw [sources_linked]
    split
    · rw [(List.perm_append_singleton _ _).nodup_iff]
      exact List.nodup_cons.mpr ⟨hsrc, hm.sources_nodup v⟩
    · exact hm.sources_nodup k
  · intro a b
    rw [sources_linked, linked_succ]
    have hab := hm.mem_succ a b
    by_cases ha : a = u
    · subst ha
      by_cases hb : b = v
      · simp [hb]
      · simp [hb, hab]
    · by_cases hb : b = v
      · subst hb
        simp [ha, hab]
      · simp [ha, hb, hab]

theorem sources_unlinked (s : Scope) (u v k : ℕ) (e : PredEdge) :
    (s.unlinked u v e).sources k =
      if k = v then (s.sources v).erase u else s.sources k := by
  by_cases hk : k = v
  · subst hk
    simp only [sources, unlinked_pred, update_self, ite_true]
    rw [List.erase_eq_eraseP', List.eraseP_map]
    rfl
  · simp [sources, hk]

theorem unlink (hm : s.Mirrored) (hmem : u ∈ s.sources v) : (s.unlinked u v e).Mirrored := by
  have halive : ∀ k, (s.unlinked u v e).Alive k ↔ s.Alive k := by
    intro k
    by_cases hk : k = v <;> simp [Alive, hk]
  refine ⟨?_, ?_, ?_, ?_, ?_⟩
  · intro k hk
    rw [halive] at hk
    have hne : k ≠ u := fun heq => hk (heq ▸ hm.alive_source hmem)
    rw [unlinked_succ, update_of_ne hne]
    exact hm.dead_succ k hk
  · intro k hk
    rw [halive] at hk
    have hne : k ≠ v := fun heq => hk (heq ▸ hm.alive_of_mem_sources hmem)
    rw [unlinked_pred, update_of_ne hne]
    exact hm.dead_pred k hk
  · intro k
    by_cases hk : k = u
    · subst hk
      simpa using (hm.succ_nodup k).erase v
    · simpa [hk] using hm.succ_nodup k
  · intro k
    rw [sources_unlinked]
    split
    · exact (hm.sources_nodup v).erase u
    · exact hm.sources_nodup k
  · intro a b
    rw [sources_unlinked, unlinked_succ]
    have hab := hm.mem_succ a b
    by_cases ha : a = u
    · subst ha
      rw [update_self, (hm.succ_nodup a).mem_erase_iff]
      by_cases hb : b = v
      · simp [hb, (hm.sources_nodup v).mem_erase_iff]
      · simp [hb, hab]
    · rw [update_of_ne ha, hab]
      by_cases hb : b = v
      · simp [hb, (hm.sources_nodup v).mem_erase_iff, ha]
      · simp [hb]

theorem mark (hm : s.Mirrored) (o : DepCounts.Outcome) (hf : flipFirst u (s.pred v) = some es) :
    (s.marked v es o).Mirrored := by
  obtain ⟨l₁, l₂, hold, rfl⟩ := flipFirst_eq_some hf
  refine hm.congr rfl ?_ ?_
  · intro k
    by_cases hk : k = v
    · subst hk
      simp [sources, hold]
    · simp [sources, hk]
  · intro k
    by_cases hk : k = v <;> simp [hk]

theorem detachPreds_eq (hnd : (es.map PredEdge.source).Nodup) :
    detachPreds v es s =
      { s with
        succ := fun u =>
          if u ∈ es.map PredEdge.source then (s.succ u).erase v else s.succ u } := by
  induction es generalizing s with
  | nil => simp [detachPreds]
  | cons e es ih =>
    rw [List.map_cons, List.nodup_cons] at hnd
    rw [detachPreds, ih hnd.2]
    simp only [detachSucc, setSucc, Scope.mk.injEq, true_and, and_true]
    funext k
    by_cases hk : k = e.source
    · subst hk
      simp [hnd.1]
    · simp [hk]

/-- `CollectTerminal` finds every successor list that mentions the node. -/
theorem detachPreds_eq_severed (hm : s.Mirrored) (v : ℕ) :
    detachPreds v (s.pred v) s = s.severed v := by
  rw [detachPreds_eq (hm.sources_nodup v), severed]
  congr 1
  funext k
  split
  · rfl
  · rename_i hk
    rw [List.erase_of_not_mem fun hmem => hk ((hm.mem_succ k v).mp hmem)]

theorem collect (hm : s.Mirrored) (id : NodeID) (hsucc : s.succ h = []) :
    ((s.severed h).deleted h id).Mirrored := by
  have hsucc' : ((s.severed h).deleted h id).succ = fun u => (s.succ u).erase h := by
    exact update_eq_iff.mpr ⟨by simp [hsucc], fun _ _ => rfl⟩
  have hsources : ∀ k, ((s.severed h).deleted h id).sources k =
      if k = h then [] else s.sources k := by
    intro k
    by_cases hk : k = h <;> simp [sources, hk]
  refine ⟨?_, ?_, ?_, ?_, ?_⟩
  · intro k hk
    rw [hsucc']
    by_cases hkh : k = h
    · simp [hkh, hsucc]
    · have hdead : ¬ s.Alive k := fun hk' => hk (by simpa [Alive, hkh] using hk')
      simp [hm.dead_succ k hdead]
  · intro k hk
    by_cases hkh : k = h
    · simp [hkh]
    · have hdead : ¬ s.Alive k := fun hk' => hk (by simpa [Alive, hkh] using hk')
      simp [hkh, hm.dead_pred k hdead]
  · rw [hsucc']
    exact fun k => (hm.succ_nodup k).erase h
  · intro k
    rw [hsources]
    split
    · exact List.nodup_nil
    · exact hm.sources_nodup k
  · intro a b
    rw [hsucc', hsources, (hm.succ_nodup a).mem_erase_iff, hm.mem_succ]
    by_cases hb : b = h <;> simp [hb]

end Mirrored
/-! ## Tallies -/

/-- The number of incoming edges of `v` that count as `o`. -/
def tally (s : Scope) (v : ℕ) (o : DepCounts.Outcome) : ℕ :=
  (s.pred v).countP fun e => edgeOutcome e.satisfied (s.recs e.source) = o

/-- A node's counts are those of its incoming edges, an edge is marked only when
its source has terminated, and no guard has skipped a decrement. -/
structure Tallied (s : Scope) : Prop where
  satisfied_done : ∀ v, ∀ e ∈ s.pred v, e.satisfied = true → (s.recs e.source).phase = .done
  count_eq : ∀ v o, (s.recs v).deps.count o = s.tally v o
  suppressed_eq : s.suppressed = 0

theorem edgeOutcome_congr {r r' : NodeRec} (hstatus : r'.status = r.status)
    (hreason : r'.reason = r.reason) (b : Bool) : edgeOutcome b r' = edgeOutcome b r := by
  simp [edgeOutcome, hstatus, hreason]

@[simp] theorem edgeOutcome_false (r : NodeRec) : edgeOutcome false r = .unsatisfied := rfl

@[simp] theorem edgeOutcome_true (r : NodeRec) :
    edgeOutcome true r = .ofTerminal r.status r.reason := rfl

namespace Tallied

variable {s s' : Scope} {u v h : ℕ} {r : NodeRec}

section

variable (ht : s.Tallied)
include ht

/-- How an edge counts does not change when a node that has not terminated
changes its record. -/
theorem outcome_update (hrecs : s'.recs = update s.recs h r)
    (hopen : (s.recs h).phase ≠ .done ∨ r.status = (s.recs h).status ∧ r.reason = (s.recs h).reason)
    (he : e ∈ s.pred v) :
    edgeOutcome e.satisfied (s'.recs e.source) = edgeOutcome e.satisfied (s.recs e.source) := by
  by_cases hk : e.source = h
  · rcases hopen with hopen | ⟨hstatus, hreason⟩
    · have hsat : e.satisfied = false := by
        by_contra hsat
        exact hopen (hk ▸ ht.satisfied_done v e he (by simpa using hsat))
      simp [hsat]
    · rw [hrecs, hk, update_self, edgeOutcome_congr hstatus hreason]
  · rw [hrecs, update_of_ne hk]

theorem tally_update (hpred : s'.pred = s.pred) (hrecs : s'.recs = update s.recs h r)
    (hopen : (s.recs h).phase ≠ .done ∨ r.status = (s.recs h).status ∧ r.reason = (s.recs h).reason)
    (o : DepCounts.Outcome) : s'.tally v o = s.tally v o := by
  unfold tally
  rw [hpred]
  refine List.countP_congr fun e he => ?_
  rw [ht.outcome_update hrecs hopen he]

/-- A change of one record that keeps its tally.  Either the node has not
terminated, or it stays terminated with the same outcome. -/
theorem update_rec (hpred : s'.pred = s.pred) (hsupp : s'.suppressed = s.suppressed)
    (hrecs : s'.recs = update s.recs h r) (hdeps : r.deps = (s.recs h).deps)
    (hopen : (s.recs h).phase ≠ .done ∨
      r.phase = (s.recs h).phase ∧
        r.status = (s.recs h).status ∧ r.reason = (s.recs h).reason) : s'.Tallied := by
  refine ⟨?_, ?_, hsupp.trans ht.suppressed_eq⟩
  · intro v e he hsat
    rw [hpred] at he
    have hdone := ht.satisfied_done v e he hsat
    rw [hrecs]
    by_cases hk : e.source = h
    · rw [hk] at hdone ⊢
      rcases hopen with hopen | ⟨hphase, -⟩
      · exact absurd hdone hopen
      · rw [update_self, hphase]
        exact hdone
    · rw [update_of_ne hk]
      exact hdone
  · intro v o
    rw [ht.tally_update hpred hrecs (hopen.imp_right And.right), ← ht.count_eq, hrecs]
    by_cases hk : v = h
    · rw [hk, update_self, hdeps]
    · rw [update_of_ne hk]

/-- The nodes and their edges are the same, apart from nodes without edges. -/
theorem congr (hpred : ∀ v, s'.pred v = s.pred v) (hsupp : s'.suppressed = s.suppressed)
    (hdeps : ∀ v, (s'.recs v).deps = (s.recs v).deps)
    (hsource : ∀ v, ∀ e ∈ s.pred v, s'.recs e.source = s.recs e.source) : s'.Tallied := by
  refine ⟨?_, ?_, hsupp.trans ht.suppressed_eq⟩
  · intro v e he hsat
    rw [hpred] at he
    rw [hsource v e he]
    exact ht.satisfied_done v e he hsat
  · intro v o
    rw [hdeps, ht.count_eq, tally, tally, hpred]
    refine List.countP_congr fun e he => ?_
    rw [hsource v e he]

theorem create (hs : s.Indexed) (hm : s.Mirrored) (spec : NodeSpec) (now : Int) :
    (s.created spec now).Tallied := by
  have hslot := hs.not_alive_slot
  refine ht.congr ?_ rfl ?_ ?_
  · intro v
    rw [created_pred, ← hm.dead_pred _ hslot, update_eq_self]
  · intro v
    by_cases hv : v = s.slot
    · simp [hv, newRec, hs.dead _ hslot]
    · simp [hv]
  · intro v e he
    have halive := hm.alive_source (List.mem_map.mpr ⟨e, he, rfl⟩)
    have hne : e.source ≠ s.slot := fun heq => hslot (heq ▸ halive)
    simp [hne]

/-- Deleting a node without edges. -/
theorem delete (hm : s.Mirrored) (id : NodeID) (hsucc : s.succ h = []) (hpred : s.pred h = []) :
    (s.deleted h id).Tallied := by
  refine ht.congr ?_ rfl ?_ ?_
  · intro v
    rw [deleted_pred, ← hpred, update_eq_self]
  · intro v
    by_cases hv : v = h
    · refine DepCounts.ext_count fun o => ?_
      rw [hv, ht.count_eq, tally, hpred]
      cases o <;> simp [DepCounts.count]
    · simp [hv]
  · intro v e he
    have hmem := (hm.mem_succ _ _).mpr (List.mem_map.mpr ⟨e, he, rfl⟩)
    have hne : e.source ≠ h := by
      intro heq
      rw [heq, hsucc] at hmem
      cases hmem
    simp [hne]

theorem collect (hm : s.Mirrored) (id : NodeID) (hsucc : s.succ h = []) :
    ((s.severed h).deleted h id).Tallied := by
  have hsource : ∀ v, ∀ e ∈ s.pred v, e.source ≠ h := by
    intro v e he heq
    have hmem := (hm.mem_succ _ _).mpr (List.mem_map.mpr ⟨e, he, rfl⟩)
    rw [heq, hsucc] at hmem
    cases hmem
  refine ⟨?_, ?_, ht.suppressed_eq⟩
  · intro v e he hsat
    by_cases hv : v = h
    · simp [hv] at he
    · simp only [deleted_pred, severed_pred, update_of_ne hv] at he
      simpa [hsource v e he] using ht.satisfied_done v e he hsat
  · intro v o
    by_cases hv : v = h
    · cases o <;> simp [hv, tally, DepCounts.count]
    have hcount := ht.count_eq v o
    simp only [tally, deleted_pred, deleted_recs, severed_pred, severed_recs,
      update_of_ne hv] at hcount ⊢
    rw [hcount]
    refine List.countP_congr fun e he => ?_
    rw [update_of_ne (hsource v e he)]

end

theorem outcome_deps (hrecs : s'.recs = update s.recs v { s.recs v with deps := d }) (b : Bool)
    (k : ℕ) : edgeOutcome b (s'.recs k) = edgeOutcome b (s.recs k) := by
  by_cases hk : k = v
  · subst hk
    rw [hrecs, update_self]
    rfl
  · rw [hrecs, update_of_ne hk]

theorem phase_deps (hrecs : s'.recs = update s.recs v { s.recs v with deps := d }) (k : ℕ) :
    (s'.recs k).phase = (s.recs k).phase := by
  by_cases hk : k = v
  · subst hk
    rw [hrecs, update_self]
  · rw [hrecs, update_of_ne hk]

theorem link (ht : s.Tallied) (u v : ℕ) : (s.linked u v).Tallied := by
  have hout := outcome_deps (linked_recs s u v)
  have hphase := phase_deps (linked_recs s u v)
  refine ⟨?_, ?_, ht.suppressed_eq⟩
  · intro k e he hsat
    rw [hphase]
    by_cases hk : k = v
    · subst hk
      simp only [linked_pred, update_self, List.mem_append, List.mem_singleton] at he
      rcases he with he | rfl
      · exact ht.satisfied_done k e he hsat
      · simpa using hsat
    · rw [linked_pred, update_of_ne hk] at he
      exact ht.satisfied_done k e he hsat
  · intro k o
    simp only [tally, hout]
    have hcount := ht.count_eq k o
    rw [tally] at hcount
    by_cases hk : k = v
    · subst hk
      rw [linked_pred, linked_recs, update_self, update_self, DepCounts.count_incr,
        List.countP_append, ← hcount]
      by_cases ho : o = edgeOutcome (decide ((s.recs u).phase = .done)) (s.recs u)
      · simp [ho]
      · simp [ho, Ne.symm ho]
    · rw [linked_pred, linked_recs, update_of_ne hk, update_of_ne hk]
      exact hcount

theorem unlink (ht : s.Tallied) (hf : (s.pred v).find? (fun e => e.source = u) = some e) :
    (s.unlinked u v e).Tallied := by
  have hout := outcome_deps (unlinked_recs s u v e)
  have hphase := phase_deps (unlinked_recs s u v e)
  have hsrc : e.source = u := by simpa using List.find?_some hf
  have hperm := perm_cons_eraseP hf
  -- the dropped edge itself is counted, so the guard lets the decrement through
  have hcount : ∀ o, (s.recs v).deps.count o =
      (((s.pred v).eraseP fun e => e.source = u).countP
        fun e => edgeOutcome e.satisfied (s.recs e.source) = o) +
      if o = edgeOutcome e.satisfied (s.recs u) then 1 else 0 := by
    intro o
    rw [ht.count_eq, tally, hperm.countP_eq, List.countP_cons, hsrc]
    by_cases ho : o = edgeOutcome e.satisfied (s.recs u)
    · simp [ho]
    · simp [ho, Ne.symm ho]
  have hpos : 0 < (s.recs v).deps.count (edgeOutcome e.satisfied (s.recs u)) := by
    rw [hcount, if_pos rfl]
    omega
  refine ⟨?_, ?_, ?_⟩
  · intro k e' he hsat
    rw [hphase]
    by_cases hk : k = v
    · subst hk
      rw [unlinked_pred, update_self] at he
      exact ht.satisfied_done k e' (List.mem_of_mem_eraseP he) hsat
    · rw [unlinked_pred, update_of_ne hk] at he
      exact ht.satisfied_done k e' he hsat
  · intro k o
    simp only [tally, hout]
    by_cases hk : k = v
    · subst hk
      rw [unlinked_pred, unlinked_recs, update_self, update_self, DepCounts.count_decr hpos,
        hcount, hcount]
      split <;> rename_i ho
      · simp [ho]
      · simp
    · rw [unlinked_pred, unlinked_recs, update_of_ne hk, update_of_ne hk]
      exact ht.count_eq k o
  · simp [ht.suppressed_eq, hpos]

theorem mark (ht : s.Tallied) (hf : flipFirst u (s.pred v) = some es)
    (hu : (s.recs u).phase = .done) :
    (s.marked v es (.ofTerminal (s.recs u).status (s.recs u).reason)).Tallied := by
  obtain ⟨l₁, l₂, hold, rfl⟩ := flipFirst_eq_some hf
  have hout := outcome_deps (marked_recs s v
    (l₁ ++ { source := u, satisfied := true } :: l₂)
    (.ofTerminal (s.recs u).status (s.recs u).reason))
  have hphase := phase_deps (marked_recs s v
    (l₁ ++ { source := u, satisfied := true } :: l₂)
    (.ofTerminal (s.recs u).status (s.recs u).reason))
  have hcount : ∀ o, (s.recs v).deps.count o =
      l₁.countP (fun e => edgeOutcome e.satisfied (s.recs e.source) = o) +
        (l₂.countP (fun e => edgeOutcome e.satisfied (s.recs e.source) = o) +
          if .unsatisfied = o then 1 else 0) := by
    intro o
    rw [ht.count_eq, tally, hold, List.countP_append, List.countP_cons]
    by_cases ho : .unsatisfied = o <;> simp [ho]
  have hpos : 0 < (s.recs v).deps.count .unsatisfied := by
    rw [hcount, if_pos rfl]
    omega
  refine ⟨?_, ?_, ?_⟩
  · intro k e he hsat
    rw [hphase]
    by_cases hk : k = v
    · subst hk
      simp only [marked_pred, update_self, List.mem_append, List.mem_cons] at he
      rcases he with he | rfl | he
      · exact ht.satisfied_done k e (by simp [hold, he]) hsat
      · exact hu
      · exact ht.satisfied_done k e (by simp [hold, he]) hsat
    · rw [marked_pred, update_of_ne hk] at he
      exact ht.satisfied_done k e he hsat
  · intro k o
    simp only [tally, hout]
    by_cases hk : k = v
    · subst hk
      rw [marked_pred, marked_recs, update_self, update_self, DepCounts.count_incr,
        DepCounts.count_decr hpos, DepCounts.count_decr hpos, List.countP_append,
        List.countP_cons]
      have hne := DepCounts.Outcome.ofTerminal_ne_unsatisfied (s.recs u).status (s.recs u).reason
      by_cases ho : o = .ofTerminal (s.recs u).status (s.recs u).reason
      · simp [ho, hne, hne.symm, hcount]
        omega
      · by_cases hu' : o = .unsatisfied
        · simp [hu', hne, hne.symm, hcount]
        · simp [ho, hu', Ne.symm ho, Ne.symm hu', hcount]
    · rw [marked_pred, marked_recs, update_of_ne hk, update_of_ne hk]
      exact ht.count_eq k o
  · simp [ht.suppressed_eq, hpos]

end Tallied
end DagWorker.Memory.Scope
