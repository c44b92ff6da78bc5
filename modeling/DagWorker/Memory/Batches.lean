import DagWorker.Memory.Editing

/-!
# The graph operations, step by step

A batch that fails leaves the core of the scope as it was.  One that succeeds leaves no
touched node unsettled; the same holds of `RemoveEdges` when it returns without an error
and of `RemoveNode` under a defined policy.
-/

namespace DagWorker.Memory.Scope

open Function

variable {specs : List NodeSpec} {s₀ s s' : Scope} {j : Journal} {es : List Effect}
variable {t fresh : List ℕ} {cfg : ScopeConfig} {T : Set ℕ} {j' : Journal} {s'' : Scope}

theorem fields_of_core (h : s'.core = s.core) :
    s'.recs = s.recs ∧ s'.pred = s.pred ∧ s'.succ = s.succ := by
  simpa using congrArg (fun x => (x.recs, x.pred, x.succ)) h

/-! ## Creating nodes -/

/-- The nodes `hs` have been created one after the other. -/
inductive Births (s : Scope) : List ℕ → Scope → Prop
  | nil : Births s [] s
  | snoc {hs : List ℕ} {s₁ : Scope} (spec : NodeSpec) (now : Int) : Births s hs s₁ →
      s₁.lookup spec.id = none → (∀ v, spec.trigger ≠ .unknown v) →
      Births s (hs ++ [s₁.slot]) (s₁.created spec now)

namespace Births

variable {s s' : Scope} {hs : List ℕ}

section

variable (hb : Births s hs s')
include hb

theorem path : Path s [] s' := by
  induction hb with
  | nil => exact Path.nil
  | snoc spec now _ hnew hknown ih =>
    have hstep := Step.create spec now hnew hknown
    rw [create_eq] at hstep
    exact ih.step hstep

/-- Existing nodes stay as they are; the new ones are blocked. -/
theorem recs (hi : s.Inv) (k : ℕ) :
    (k ∈ hs ∧ ¬ s.Alive k ∧ s'.Alive k ∧ (s'.recs k).seq = 0 ∧ (s'.recs k).status = .new ∧
      (s'.recs k).phase = .blocked) ∨ (k ∉ hs ∧ s'.recs k = s.recs k) := by
  induction hb with
  | nil => exact .inr ⟨by simp, rfl⟩
  | @snoc hs s₁ spec now hb _ _ ih =>
    have hslot := (hi.path hb.path).indexed.not_alive_slot
    by_cases hk : k = s₁.slot
    · have hdead : ¬ s.Alive k := by
        rcases ih with ⟨-, hdead, -⟩ | ⟨-, heq⟩
        · exact hdead
        · rw [Alive, ← heq, hk]
          exact hslot
      refine .inl ⟨by simp [hk], hdead, ?_⟩
      rw [Alive, hk, created_recs, update_self]
      exact ⟨rfl, rfl, rfl, rfl⟩
    · simp only [Alive, created_recs, update_of_ne hk] at ih ⊢
      exact ih.imp (.imp_left (List.mem_append_left _)) (.imp_left fun hmem => by simp [hmem, hk])

theorem rec_eq (hi : s.Inv) {h : ℕ} (hh : s.Alive h) : s'.recs h = s.recs h := by
  rcases hb.recs hi h with ⟨-, hdead, -⟩ | ⟨-, heq⟩
  · exact absurd hh hdead
  · exact heq

theorem config : s'.cfg = s.cfg ∧ s'.isSealed = s.isSealed := by
  induction hb with
  | nil => exact ⟨rfl, rfl⟩
  | snoc spec now _ _ _ ih => exact ih

theorem edges (hi : s.Inv) : s'.pred = s.pred ∧ s'.succ = s.succ := by
  induction hb with
  | nil => exact ⟨rfl, rfl⟩
  | @snoc hs s₁ spec now hb _ _ ih =>
    have hi₁ := hi.path hb.path
    have hslot := hi₁.indexed.not_alive_slot
    rw [created_pred, created_succ, ← hi₁.mirrored.dead_pred _ hslot, update_eq_self,
      ← hi₁.mirrored.dead_succ _ hslot, update_eq_self]
    exact ih

theorem alive (hi : s.Inv) (k : ℕ) : s'.Alive k ↔ s.Alive k ∨ k ∈ hs := by
  rcases hb.recs hi k with ⟨hmem, -, halive, -⟩ | ⟨hmem, heq⟩
  · exact iff_of_true halive (.inr hmem)
  · simp [Alive, heq, hmem]

/-- An identifier that was known stays with its node. -/
theorem lookup_mono (hi : s.Inv) {id : NodeID} {h : ℕ} (hl : s.lookup id = some h) :
    s'.lookup id = some h := by
  have hh := hi.indexed.alive_of_lookup hl
  rw [(hi.path hb.path).indexed.lookup_iff, Alive, hb.rec_eq hi hh]
  exact ⟨hh, hi.indexed.id_of_lookup hl⟩

/-- An identifier that was not known may get a new node. -/
theorem new_of_lookup (hi : s.Inv) {id : NodeID} {h : ℕ} (hnew : s.lookup id = none)
    (hl : s'.lookup id = some h) : ¬ s.Alive h ∧ (s'.recs h).phase = .blocked := by
  rcases hb.recs hi h with ⟨-, hdead, -, -, -, hphase⟩ | ⟨-, heq⟩
  · exact ⟨hdead, hphase⟩
  have hspec := ((hi.path hb.path).indexed.lookup_iff id h).mp hl
  rw [Alive, heq] at hspec
  rw [(hi.indexed.lookup_iff id h).mpr hspec] at hnew
  cases hnew

theorem flagged (hi : s.Inv) (hf : s.Flagged) : s'.Flagged := by
  intro v e he hdone
  rw [(hb.edges hi).1] at he
  have hsrc := hi.mirrored.alive_source (List.mem_map_of_mem he)
  rw [hb.rec_eq hi hsrc] at hdone
  exact hf v e he hdone

theorem settled (hi : s.Inv) (v : ℕ) (hv : RuleOpen (s.recs v)) :
    RuleOpen (s'.recs v) ∨ v ∈ hs := by
  rcases hb.recs hi v with ⟨hmem, -⟩ | ⟨-, heq⟩
  · exact .inr hmem
  · rw [heq]
    exact .inl hv

theorem heldOK (hi : s.Inv) (v : ℕ) (hv : RuleMet (s.recs v)) : RuleMet (s'.recs v) := by
  rcases hb.recs hi v with ⟨-, -, -, -, -, hphase⟩ | ⟨-, heq⟩
  · simp [RuleMet, hphase, held]
  · rwa [heq]

/-- A node keeps its times while others are created. -/
theorem stamp (hi : s.Inv) {h : ℕ} (hh : s.Alive h) : s'.stamp h = s.stamp h := by
  induction hb with
  | nil => rfl
  | @snoc hs s₁ spec now hb _ _ ih =>
    have hne : h ≠ s₁.slot := by
      rintro rfl
      exact (hi.path hb.path).indexed.not_alive_slot ((hb.alive hi _).mpr (.inl hh))
    rw [← ih]
    simp only [Scope.stamp, created_deadline, created_readyAt, created_fifo, update_of_ne hne]

/-- Deleting the new nodes again, in any scope with the same core. -/
theorem undo (hi : s.Inv) {t : Scope} (ht : t.core = s'.core) :
    Path t [] (deleteNodes hs.reverse t) ∧ core (deleteNodes hs.reverse t) = s.core := by
  induction hb generalizing t with
  | nil => exact ⟨Path.nil, ht⟩
  | @snoc hs s₁ spec now hb _ _ ih =>
    have hi₁ := hi.path hb.path
    obtain ⟨hrecs, hpred, hsucc⟩ := fields_of_core ht
    have hstep : Step t (t.deleteNode (t.recs s₁.slot).id s₁.slot) := by
      refine Step.delete s₁.slot ?_ ?_ ?_ ?_
      · simp [hrecs, newRec]
      · simp [hrecs, newRec]
      · simp [hsucc]
      · simp [hpred]
    have hcore : core (t.deleteNode (t.recs s₁.slot).id s₁.slot) = s₁.core := by
      rw [core_deleteNode, ht, ← core_deleteNode, core_delete_create hi₁]
    obtain ⟨hpath, hfinal⟩ := ih hcore
    rw [List.reverse_append, List.reverse_singleton, List.singleton_append, deleteNodes]
    exact ⟨(Path.single hstep).trans hpath, hfinal⟩

end

end Births

/-! ## Batches -/

/-- What validation lets through. -/
structure WellFormed (spec : NodeSpec) : Prop where
  known : ∀ v, spec.trigger ≠ .unknown v
  self : spec.id ∉ spec.deps

theorem validateDeps_ok {id : NodeID} {deps seen : List NodeID}
    (hok : validateDeps id deps seen = .ok ()) : id ∉ deps := by
  induction deps generalizing seen with
  | nil => simp
  | cons d ds ih =>
    simp only [validateDeps, bind, Except.bind] at hok
    split at hok
    · cases hok
    split at hok
    · cases hok
    rename_i hne
    split at hok
    · cases hok
    · rw [List.mem_cons, not_or]
      exact ⟨fun heq => hne heq.symm, ih hok⟩

theorem wellFormed_of_validate {spec : NodeSpec} (hok : spec.validate = .ok ()) :
    WellFormed spec := by
  unfold NodeSpec.validate at hok
  simp only [bind, Except.bind] at hok
  split at hok
  · cases hok
  split at hok
  · cases hok
  split at hok
  · cases hok
  split at hok
  · cases hok
  rename_i htrigger
  split at hok
  · cases hok
  refine ⟨fun v heq => ?_, validateDeps_ok hok⟩
  rw [heq] at htrigger
  cases htrigger

theorem validateSpecs_ok {seen : List NodeID} (hok : validateSpecs cfg specs seen = .ok ()) :
    (∀ spec ∈ specs, WellFormed spec ∧ spec.id ∉ seen) ∧ (specs.map (·.id)).Nodup := by
  induction specs generalizing seen with
  | nil => simp
  | cons spec specs ih =>
    simp only [validateSpecs, bind, Except.bind] at hok
    split at hok
    · cases hok
    rename_i hspec
    split at hok
    · cases hok
    split at hok
    · cases hok
    rename_i hfresh
    obtain ⟨hrest, hnd⟩ := ih hok
    refine ⟨fun sp hsp => ?_, List.nodup_cons.mpr ⟨fun hmem => ?_, hnd⟩⟩
    · rcases List.mem_cons.mp hsp with rfl | hsp
      · exact ⟨wellFormed_of_validate hspec, hfresh⟩
      · exact ⟨(hrest sp hsp).1, List.not_mem_of_not_mem_cons (hrest sp hsp).2⟩
    · obtain ⟨sp, hsp, heq⟩ := List.mem_map.mp hmem
      exact (hrest sp hsp).2 (heq ▸ List.mem_cons_self)

theorem validateBatch_ok (hok : validateBatch cfg specs = .ok ()) :
    (∀ spec ∈ specs, WellFormed spec) ∧ (specs.map (·.id)).Nodup := by
  unfold validateBatch at hok
  split at hok
  · cases hok
  · obtain ⟨hwf, hnd⟩ := validateSpecs_ok hok
    exact ⟨fun spec hspec => (hwf spec hspec).1, hnd⟩

/-- The first loop of `AddNodes` creates what is missing. -/
theorem materialise_births (now : Int)
    (hi : s₀.Inv) (hwf : ∀ spec ∈ specs, WellFormed spec) (hb : Births s₀ j.created s) :
    ∃ err s' j', materialise now specs s j j.created = (err, s', j', j'.created) ∧
      j'.edges = j.edges ∧ Births s₀ j'.created s' ∧ (∀ h ∈ j.created, h ∈ j'.created) ∧
      (∀ id h, s.lookup id = some h → s'.lookup id = some h ∧ s'.recs h = s.recs h) ∧
      (err = none → (∀ spec ∈ specs, ∃ h, s'.lookup spec.id = some h ∧ s'.specMatches h spec) ∧
        ∀ h ∈ j'.created, h ∈ j.created ∨ ∃ spec ∈ specs, s'.lookup spec.id = some h) := by
  induction specs generalizing s j with
  | nil => exact ⟨none, s, j, rfl, rfl, hb, fun _ h => h, fun _ _ h => ⟨h, rfl⟩, by simp⟩
  | cons spec specs ih =>
    have hwf' : ∀ sp ∈ specs, WellFormed sp := fun sp h => hwf sp (.tail _ h)
    rw [materialise]
    split
    · rename_i h hlook
      split
      · rename_i hmatch
        obtain ⟨err, s', j', heq, hedges, hb', hsub, hmono, hok⟩ := ih hwf' hb
        refine ⟨err, s', j', heq, hedges, hb', hsub, hmono, fun hnone => ?_⟩
        obtain ⟨hfound, hborn⟩ := hok hnone
        refine ⟨fun sp hsp => ?_, fun k hk => (hborn k hk).imp_right ?_⟩
        · rcases List.mem_cons.mp hsp with rfl | hsp
          · obtain ⟨hl, hrec⟩ := hmono _ _ hlook
            exact ⟨h, hl, by rwa [specMatches, hrec]⟩
          · exact hfound sp hsp
        · rintro ⟨sp, hsp, hk⟩
          exact ⟨sp, .tail _ hsp, hk⟩
      · exact ⟨_, s, j, rfl, rfl, hb, fun _ h => h, fun _ _ h => ⟨h, rfl⟩, by simp⟩
    · rename_i hnew
      rw [create_eq]
      have hb₁ := hb.snoc spec now hnew (hwf spec (.head _)).known
      have hi₁ := hi.path hb.path
      have hcreate := (Births.nil (s := s)).snoc spec now hnew
        (hwf spec (.head _)).known
      have hslot : (s.created spec now).lookup spec.id = some s.slot := by
        simp [lookup]
      have hnew' : (s.created spec now).specMatches s.slot spec = true := by
        simp [specMatches, newRec, Labels.equal_self]
      obtain ⟨err, s', j', heq, hedges, hb', hsub, hmono, hok⟩ :=
        ih (j := { j with created := j.created ++ [s.slot] }) hwf' hb₁
      refine ⟨err, s', j', heq, hedges, hb',
        fun h hh => hsub h (List.mem_append_left _ hh),
        fun id h hl => ?_, fun hnone => ?_⟩
      · obtain ⟨hl', hrec⟩ := hmono id h (hcreate.lookup_mono hi₁ hl)
        have hne : h ≠ s.slot := fun heq =>
          hi₁.indexed.not_alive_slot (heq ▸ hi₁.indexed.alive_of_lookup hl)
        exact ⟨hl', by rw [hrec, created_recs, update_of_ne hne]⟩
      obtain ⟨hfound, hborn⟩ := hok hnone
      obtain ⟨hslot', hrec⟩ := hmono _ _ hslot
      refine ⟨fun sp hsp => ?_, fun k hk => ?_⟩
      · rcases List.mem_cons.mp hsp with rfl | hsp
        · exact ⟨_, hslot', by rwa [specMatches, hrec]⟩
        · exact hfound sp hsp
      rcases hborn k hk with hk | ⟨sp, hsp, hk⟩
      · rcases List.mem_append.mp hk with hk | hk
        · exact .inl hk
        · rw [List.mem_singleton.mp hk]
          exact .inr ⟨spec, .head _, hslot'⟩
      · exact .inr ⟨sp, .tail _ hsp, hk⟩

/-! ## Failure -/

theorem Respects.of_core (hcore : s'.core = s.core) : Respects s s' := by
  obtain ⟨hrecs, hpred, -⟩ := fields_of_core hcore
  exact Respects.of_calm (h := 0) (r := s.recs 0) hpred (by rw [hrecs, update_eq_self])
    (Calm.of_same rfl rfl rfl rfl)

theorem unlinkEdges_edited (es : List (ℕ × ℕ)) (s : Scope) :
    Edited s { v | ∃ u, (u, v) ∈ es } (unlinkEdges es s) := by
  induction es generalizing s with
  | nil => exact (Edited.refl s).mono (Set.empty_subset _)
  | cons e es ih =>
    obtain ⟨u, v⟩ := e
    refine ((Edited.unlink s u v).mono ?_).trans ((ih _).mono ?_)
    · rintro k rfl
      exact ⟨u, .head _⟩
    · rintro k ⟨w, hw⟩
      exact ⟨w, .tail _ hw⟩

theorem deleteNodes_stamp (hs : List ℕ) (s : Scope) : (deleteNodes hs s).stamp = s.stamp := by
  induction hs generalizing s with
  | nil => rfl
  | cons h hs ih =>
    rw [deleteNodes, ih, deleteNode_eq]
    rfl

/-- The scope `s'` is `s` again: the nodes with all their fields, the edges, the queues, the
statistics, the epoch floor, the counters and the log.  Only ranks, the rank counter and the
slots without a node may differ. -/
structure Restored (s s' : Scope) : Prop where
  core : s'.core = s.core
  lookup : ∀ id, s'.lookup id = s.lookup id
  stamp : ∀ h, s.Alive h → s'.stamp h = s.stamp h

theorem Restored.refl (s : Scope) : Restored s s := ⟨rfl, fun _ => rfl, fun _ _ => rfl⟩

/-- A failed batch is undone, and has changed nothing the trigger rules look at. -/
theorem Births.rollback {s₁ : Scope} (hb : Births s₀ j.created s₁) (hi : s₀.Inv)
    (he : Edited s₁ T s) (hundo : core (unlinkEdges j.edges.reverse s) = s₁.core) :
    Tale s₀ [] (s.rollback j) ∧ Restored s₀ (s.rollback j) := by
  obtain ⟨hback, hcore⟩ : Path _ [] (s.rollback j) ∧ Scope.core (s.rollback j) = s₀.core :=
    hb.undo hi hundo
  have hunlink := unlinkEdges_edited j.edges.reverse s
  have hpath : Path s₀ [] (s.rollback j) :=
    (hb.path.trans he.path).trans (hunlink.path.trans hback)
  obtain ⟨hrecs, -⟩ := fields_of_core hcore
  refine ⟨⟨⟨Respects.of_core hcore, hpath⟩, .of_silent (.of_recs hrecs)⟩, hcore, fun id => ?_,
    fun h hh => ?_⟩
  · apply Option.ext
    intro h
    rw [(hi.path hpath).indexed.lookup_iff, hi.indexed.lookup_iff, Alive, Alive, hrecs]
  · have haside := congrArg (fun x => x.2.2 h) (hunlink.aside.trans he.aside)
    rw [Scope.rollback, deleteNodes_stamp]
    exact haside.trans (hb.stamp hi hh)

/-! ## Success -/

/-- A change that leaves no node unsettled. -/
structure Revises (s : Scope) (es : List Effect) (s' : Scope) : Prop where
  path : Path s es s'
  flagged : s.Flagged → s'.Flagged
  settled : ∀ v, RuleOpen (s.recs v) → RuleOpen (s'.recs v)

theorem Evolves.revises (h : Evolves s es s') :
    Revises s es s' :=
  ⟨h.path, h.flagged, h.settled⟩

/-- A node that gains one of the edges `es`, in a phase that `settle` does not
look at, keeps a satisfied rule. -/
def KeepsHeld (s : Scope) (es : List Edge) : Prop :=
  ∀ v, s.Alive v → (s.incoming es v).Nonempty →
    (s.recs v).phase = .scheduled ∨ (s.recs v).phase = .claimed →
      (s.countsOf (s.preds v ∪ s.incoming es v)).ready (s.recs v).trigger = true

theorem held_cases {p : Phase} (h : held p = true) :
    p = .ready ∨ p = .scheduled ∨ p = .claimed := by
  cases p <;> simp_all [held]

theorem Links.heldOK {es : List Edge} (hi : s.Inv) (hl : Links s j T es s' j') (hf : s.Flagged)
    (hkeep : s.KeepsHeld es) (v : ℕ) (hs : RuleMet (s.recs v)) :
    RuleMet (s'.recs v) ∨ v ∈ T ∧ (s'.recs v).phase = .ready := by
  rw [hl.edited.phase]
  by_cases hready : v ∈ T ∧ (s.recs v).phase = .ready
  · exact .inr hready
  refine .inl (hl.edited.heldOK hs fun hv hheld hmem => ?_)
  rw [deps_eq_countsOf (hi.path hl.edited.path) (hl.edited.flagged hf), hl.preds,
    hl.edited.countsOf]
  by_cases hin : (s.incoming es v).Nonempty
  · exact hkeep v hv hin ((held_cases hheld).resolve_left fun hp => hready ⟨hmem, hp⟩)
  · rw [Finset.not_nonempty_iff_eq_empty.mp hin, Finset.union_empty, ← deps_eq_countsOf hi hf]
    exact hs hv hheld

/-- Settling the touched nodes completes the change. -/
theorem Edited.settleAll (he : Edited s T s') (hs : Settles s' T es s'') : Revises s es s'' :=
  ⟨by simpa using he.path.trans hs.path, fun hf => hs.flagged (he.flagged hf),
    fun v hv => hs.settled v (he.settled v hv)⟩

theorem Revises.refresh (h : Revises s es s') :
    Revises s es s'.refreshComplete :=
  ⟨by simpa using h.path.trans (Evolves.refresh s').path,
    fun hf => (Evolves.refresh s').flagged (h.flagged hf),
    fun v hv => (Evolves.refresh s').settled v (h.settled v hv)⟩

/-- `AddEdges` adds all its edges or nothing. -/
theorem addEdges_revises (hi : s.Inv) (es : List Edge) :
    (s.addEdges es).All fun r => Revises s r.1.effects r.2 ∧
      (s.Flagged → s.KeepsHeld es → ∀ v, RuleMet (s.recs v) → RuleMet (r.2.recs v)) ∧
      Annals s r.1.effects r.2 ∧ (r.1.err.isSome → r.1.effects = [] ∧ s.Restored r.2) := by
  unfold addEdges
  rcases linkEdgeList_links es {} [] hi with
    ⟨e, T, es', s', j', t, heq, hl⟩ | ⟨s', j', t, heq, hl, -, ht⟩
  · rw [heq]
    have hb : Births s j'.created s := by
      rw [hl.created]
      exact Births.nil
    obtain ⟨hev, hback⟩ := hb.rollback hi hl.edited hl.undo
    exact ⟨hev.revises, fun _ _ => hev.heldOK, hev.annals, fun _ => ⟨rfl, hback⟩⟩
  · rw [heq, Prog.all_bind]
    refine (settleAll_settles (hi.path hl.edited.path) fun k hk => ?_).mono ?_
    · exact (hl.edited.alive k).mpr ((ht k hk).resolve_left (by simp))
    rintro r ⟨es', hout, hs, ha⟩
    have hrev := hl.edited.settleAll hs
    rw [List.nil_append] at hout
    rw [← hout] at hrev ha
    exact ⟨hrev, fun hf hkeep v hv => hs.heldOK v (hl.heldOK hi hf hkeep v hv),
      (Annals.of_silent hl.edited.silent).trans ha, by simp⟩

section Births

variable {s s' : Scope} {hs : List ℕ} (hb : Births s hs s') (hi : s.Inv)
include hb hi

/-- A new node counts like one still to be created. -/
theorem Births.idOutcome (id : NodeID) : s'.idOutcome id = s.idOutcome id := by
  unfold Scope.idOutcome
  cases hl : s.lookup id with
  | some u =>
    rw [hb.lookup_mono hi hl]
    simp only [hb.rec_eq hi (hi.indexed.alive_of_lookup hl)]
  | none =>
    cases hl' : s'.lookup id with
    | none => rfl
    | some u =>
      simp [outcomeOf, (hb.new_of_lookup hi hl hl').2]

theorem Births.countsOf (P : Finset NodeID) : s'.countsOf P = s.countsOf P := by
  simp only [Scope.countsOf, countOf, hb.idOutcome hi]

theorem Births.preds (v : ℕ) : s'.preds v = s.preds v := by
  have hsrc : s'.sources v = s.sources v := by simp only [sources, (hb.edges hi).1]
  rw [Scope.preds, Scope.preds, hsrc]
  congr 1
  refine List.map_congr_left fun u hu => ?_
  rw [hb.rec_eq hi (hi.mirrored.alive_source hu)]

theorem Births.incoming (es : List Edge) {v : ℕ} (hv : s.Alive v) :
    s'.incoming es v = s.incoming es v := by
  have hiff : ∀ id, s'.lookup id = some v ↔ s.lookup id = some v := by
    intro id
    refine ⟨fun hl => ?_, hb.lookup_mono hi⟩
    have hid := (hi.path hb.path).indexed.id_of_lookup hl
    rw [← hid, hb.rec_eq hi hv, hi.indexed.lookup_id hv]
  ext id
  simp only [mem_incoming, hiff]

theorem Births.keepsHeld {es : List Edge} (hkeep : s.KeepsHeld es) : s'.KeepsHeld es := by
  intro v hv hin hp
  rcases hb.recs hi v with ⟨-, -, -, -, -, hphase⟩ | ⟨-, heq⟩
  · simp [hphase] at hp
  rw [Alive, heq] at hv
  rw [heq] at hp ⊢
  rw [hb.incoming hi es hv] at hin ⊢
  rw [hb.countsOf hi, hb.preds hi]
  exact hkeep v hv hin hp

end Births

theorem recordCreated_settles {hs : List ℕ} (out : List Effect)
    (hh : ∀ h ∈ hs, s.Alive h) :
    (recordCreated hs s out).All fun r => ∃ es, r.2 = out ++ es ∧ Settles s ∅ es r.1 := by
  induction hs generalizing s out with
  | nil => exact ⟨[], by simp, Settles.refl s⟩
  | cons h hs ih =>
    simp only [recordCreated, record, Prog.all_bind, Prog.all_getNow, Prog.pure_eq_ret,
      Prog.all_ret]
    intro t
    have hev := Evolves.event .created .new t (hh h (.head _))
    have hrecs := recordAt_recs s h .created .new t
    have hset : Settles s ∅ [(s.recordAt h .created .new t).1]
        (s.recordAt h .created .new t).2 := by
      refine ⟨hev.path, Cascades.event _ _ _ _ _, hev.flagged, fun v hv => ?_, fun v hv => ?_,
        fun v _ => forall_update hrecs (fun hv => hv) v⟩
      · exact hev.settled v (hv.resolve_right (Set.notMem_empty v))
      · exact hev.heldOK v (hv.resolve_right fun hmem => hmem.1)
    refine (ih _ fun k hk => ?_).mono ?_
    · rw [Alive, hset.cascades.alive]
      exact hh k (.tail _ hk)
    · rintro r ⟨es, hout, hs'⟩
      refine ⟨[(s.recordAt h .created .new t).1] ++ es, by rw [hout, List.append_assoc], ?_⟩
      simpa using hset.trans hs'

/-! ## What a batch announces -/

/-- The nodes `fresh` have been created, without an event. -/
structure Born (s : Scope) (fresh : List ℕ) (s' : Scope) : Prop where
  kept : ∀ h, s.Alive h → s'.Alive h ∧ Keeps (s.recs h) (s'.recs h)
  old : ∀ h, s'.Alive h → s.Alive h ∨ h ∈ fresh
  nodup : fresh.Nodup
  blank : ∀ h ∈ fresh, ¬ s.Alive h ∧ s'.Alive h ∧ (s'.recs h).seq = 0 ∧
    (s'.recs h).status = .new ∧ (s'.recs h).phase = .blocked

theorem Births.nodup {s' : Scope} (hb : Births s fresh s') (hi : s.Inv) : fresh.Nodup := by
  induction hb with
  | nil => exact List.nodup_nil
  | @snoc hs s₁ spec now hb _ _ ih =>
    rw [List.nodup_append]
    refine ⟨ih, List.nodup_singleton _, fun a ha b hmem => ?_⟩
    rintro rfl
    rw [List.mem_singleton.mp hmem] at ha
    exact (hi.path hb.path).indexed.not_alive_slot ((hb.alive hi _).mpr (.inr ha))

theorem Births.born {s' : Scope} (hb : Births s fresh s') (hi : s.Inv) : Born s fresh s' := by
  refine ⟨fun h hh => ?_, fun h hh => (hb.alive hi h).mp hh, hb.nodup hi, fun h hh => ?_⟩
  · rw [Alive, hb.rec_eq hi hh]
    exact ⟨hh, .refl _⟩
  · rcases hb.recs hi h with ⟨-, hblank⟩ | ⟨hmem, -⟩
    · exact hblank
    · exact absurd hh hmem

theorem Born.edited {s₂ : Scope} (hb : Born s fresh s₁) (he : Edited s₁ T s₂) :
    Born s fresh s₂ := by
  have hk : ∀ h, Keeps (s₁.recs h) (s₂.recs h) := by
    intro h
    obtain ⟨d, hd⟩ := he.deps h
    rw [hd]
    exact Silent.keeps_deps _ d
  constructor
  · intro h hh
    obtain ⟨hh₁, hkeep⟩ := hb.kept h hh
    exact ⟨(he.alive h).mpr hh₁, hkeep.trans (hk h)⟩
  · exact fun h hh => hb.old h ((he.alive h).mp hh)
  · exact hb.nodup
  intro h hh
  obtain ⟨hdead, halive, hseq, hstatus, hphase⟩ := hb.blank h hh
  exact ⟨hdead, (he.alive h).mpr halive, (hk h).seq.trans hseq, (hk h).status.trans hstatus,
    (he.phase h).trans hphase⟩

/-- The creation of the nodes `hs` has been announced, in order. -/
inductive Announces (s : Scope) : List ℕ → List Effect → Scope → Prop
  | nil : Announces s [] [] s
  | snoc {hs : List ℕ} {es : List Effect} {s₁ s₂ : Scope} {h : ℕ} {ef : Effect} :
      Announces s hs es s₁ → ef.kind = .created → ef.nodeID = (s₁.recs h).id →
      ef.toStatus = (s₁.recs h).status → ef.seq = (s₁.recs h).seq + 1 →
      s₂.recs = update s₁.recs h { s₁.recs h with seq := (s₁.recs h).seq + 1 } →
      Announces s (hs ++ [h]) (es ++ [ef]) s₂

theorem recordCreated_announces {done hs : List ℕ}
    (ha : Announces s done out s₁) :
    (recordCreated hs s₁ out).All fun r => Announces s (done ++ hs) r.2 r.1 := by
  induction hs generalizing done s₁ out with
  | nil =>
    rw [List.append_nil]
    exact ha
  | cons h hs ih =>
    intro t
    have hsnoc : Announces s (done ++ [h]) (out ++ [(s₁.recordAt h .created .new t).1])
        (s₁.recordAt h .created .new t).2 := by
      refine ha.snoc rfl ?_ ?_ ?_ (recordAt_recs s₁ h .created .new t)
      · simp [recordAt, effectOf]
      · simp [recordAt, effectOf]
      · simp [recordAt, effectOf]
    have hrest := ih hsnoc
    rwa [List.append_assoc] at hrest

/-- What one operation does: it may create nodes under the identifiers `ids` and announce
them, and goes on with what it announces of existing ones. -/
inductive Chapter (ids : List NodeID) (s : Scope) : List Effect → Scope → Prop
  | plain {es : List Effect} {s' : Scope} : Annals s es s' → Chapter ids s es s'
  | births {fresh : List ℕ} {es es' : List Effect} {s₁ s₂ s' : Scope} : Born s fresh s₁ →
      (∀ h ∈ fresh, (s₁.recs h).id ∈ ids) → Path s [] s₁ → Announces s₁ fresh es s₂ →
      Annals s₂ es' s' → Chapter ids s (es ++ es') s'

/-- The batch is in the scope, and its nodes are settled. -/
structure Accepted (s : Scope) (specs : List NodeSpec) : Prop where
  unsealed : s.isSealed = false
  valid : validateBatch s.cfg.resolved specs = .ok ()
  found : ∀ spec ∈ specs, ∃ v, s.lookup spec.id = some v ∧ s.specMatches v spec ∧
    RuleOpen (s.recs v) ∧ ((s.recs v).phase = .ready → RuleMet (s.recs v)) ∧
      ∀ dep ∈ spec.deps, ∃ u, s.lookup dep = some u ∧ s.hasEdge u v
  complete : s.refreshComplete = s

/-- A batch that has been linked and settled is in the scope. -/
theorem Links.accepted (hi : s.Inv) (hl : Links s j { k | k ∈ t } (specs.flatMap specEdges) s' j')
    (hall : Settles s' { k | k ∈ t } es s'') (hopen : s.isSealed = false)
    (hvalid : validateBatch s.cfg.resolved specs = .ok ())
    (hfound : ∀ spec ∈ specs, ∃ v ∈ t, s.lookup spec.id = some v ∧ s.specMatches v spec) :
    Accepted s''.refreshComplete specs := by
  have hi' := hi.path hl.edited.path
  have hi'' := hi'.path hall.path
  have hindex : s''.index = s.index := hall.cascades.index.trans hl.edited.index
  have hlook : ∀ id, s''.lookup id = s.lookup id := fun id => by rw [lookup, hindex, lookup]
  have hcfg : s''.cfg = s.cfg := (congrArg (fun x => x.2.2.1) hall.cascades.frame).trans
    (congrArg (fun x => x.1) hl.edited.aside)
  have hseal : s''.isSealed = s.isSealed :=
    (congrArg (fun x => x.2.2.2) hall.cascades.frame).trans
      (congrArg (fun x => x.2.1) hl.edited.aside)
  refine ⟨?_, ?_, fun spec hspec => ?_, rfl⟩
  · rw [refreshComplete_isSealed, hseal, hopen]
  · rw [refreshComplete_cfg, hcfg, hvalid]
  obtain ⟨v, hv, hv', hmatch⟩ := hfound spec hspec
  have hdrift := hall.cascades.recs v
  refine ⟨v, (hlook _).trans hv', ?_, hall.settled v (.inr hv), fun hready => ?_,
    fun dep hdep => ?_⟩
  · obtain ⟨d, hd⟩ := hl.edited.deps v
    have hdef := hdrift.definition
    rw [hd] at hdef
    simp only [NodeRec.definition, Prod.mk.injEq] at hdef
    simpa only [specMatches, refreshComplete_recs, hdef] using hmatch
  · -- it was waiting before it was settled
    rw [refreshComplete_recs] at hready ⊢
    have hphase := hdrift.phase
    rw [hready] at hphase
    refine hall.heldOK v ?_
    cases hp : (s'.recs v).phase with
    | ready => exact .inr ⟨hv, rfl⟩
    | blocked => exact .inl fun _ hheld => by simp [hp, held] at hheld
    | scheduled | claimed | done => simp [hp, drifts] at hphase
  · have hmem : dep ∈ s'.preds v := by
      rw [hl.preds]
      exact Finset.mem_union_right _ (mem_incoming.mpr ⟨⟨dep, spec.id⟩,
        List.mem_flatMap.mpr ⟨spec, hspec, List.mem_map_of_mem hdep⟩, hv', rfl⟩)
    simp only [Scope.preds, List.mem_toFinset, List.mem_map] at hmem
    obtain ⟨u, hu, rfl⟩ := hmem
    have hedge : u ∈ s''.sources v := by
      rw [← hi''.mirrored.mem_succ, hall.cascades.succ, hi'.mirrored.mem_succ]
      exact hu
    refine ⟨u, ?_, ?_⟩
    · rw [← hall.cascades.id]
      exact hi''.indexed.lookup_id (hi''.mirrored.alive_source hedge)
    · obtain ⟨e, he, heq⟩ := List.mem_map.mp hedge
      exact List.any_eq_true.mpr ⟨e, he, by simpa using heq⟩

/-- The tally of a node is empty when it has no predecessor, and only then. -/
theorem Inv.deps_eq_empty_iff (hi : s.Inv) (v : ℕ) : (s.recs v).deps = {} ↔ s.pred v = [] := by
  have hcount := hi.tallied.count_eq v
  constructor
  · intro hdeps
    refine List.eq_nil_iff_forall_not_mem.mpr fun e he => ?_
    have hzero := hcount (edgeOutcome e.satisfied (s.recs e.source))
    rw [hdeps, tally, eq_comm] at hzero
    have hnone := List.countP_eq_zero.mp (hzero.trans (by cases edgeOutcome _ _ <;> rfl)) e he
    simp at hnone
  · intro hnil
    refine DepCounts.ext_count fun o => ?_
    rw [hcount, tally, hnil]
    cases o <;> rfl

theorem Inv.pred_eq_nil_iff (hi : s.Inv) (v : ℕ) : s.pred v = [] ↔ ∀ u, v ∉ s.succ u := by
  simp only [hi.mirrored.mem_succ, sources, ← List.eq_nil_iff_forall_not_mem,
    List.map_eq_nil_iff]

/-- Settling a node on an empty tally makes it claimable under every rule but one. -/
theorem Settles.ready_iff {v : ℕ} (hs : Settles s T es s') (hi : s.Inv) (hv : v ∈ T)
    (halive : s.Alive v) (hpred : s'.pred v = [])
    (hp : (s.recs v).phase = .blocked ∨ (s.recs v).phase = .ready) :
    (s'.recs v).phase = .ready ↔ (s.recs v).trigger ≠ .noneFailedMinOneSuccess := by
  have hi' := hi.path hs.path
  have hsource := (hi'.pred_eq_nil_iff v).mp hpred
  rw [hs.cascades.succ] at hsource
  have hdeps := (hi.deps_eq_empty_iff v).mpr ((hi.pred_eq_nil_iff v).mpr hsource)
  have hdeps' := (hi'.deps_eq_empty_iff v).mpr hpred
  have htrigger : (s'.recs v).trigger = (s.recs v).trigger :=
    congrArg (fun x => x.2.2.1) (hs.cascades.recs v).definition
  have halive' : s'.Alive v := (hs.cascades.alive v).trans halive
  have hdrift := (hs.cascades.recs v).phase
  constructor
  · intro hready hrule
    have hmet := hs.heldOK v (hp.symm.imp (fun h => ⟨hv, h⟩) (fun h _ hheld => ?_)).symm halive'
    · simp [hready, held, hdeps', htrigger, hrule, DepCounts.ready] at hmet
    · simp [h, held] at hheld
  · intro hrule
    obtain ⟨hlive, -⟩ := hs.viable v hsource ⟨by rcases hp with hp | hp <;> simp [hp], by
      cases ht : (s.recs v).trigger <;> simp_all [DepCounts.unsatisfiable]⟩
    cases hp' : (s'.recs v).phase with
    | ready => rfl
    | done => exact absurd hp' hlive
    | blocked =>
      have hopen := (hs.settled v (.inr hv) halive' hp').1
      have hknown := hi.known v
      cases ht : (s.recs v).trigger <;> simp_all [DepCounts.ready]
    | scheduled | claimed => rcases hp with hp | hp <;> simp [hp, hp', drifts] at hdrift

/-- How the new nodes of a batch that have no dependencies start. -/
def Starts (s : Scope) (specs : List NodeSpec) (s' : Scope) : Prop :=
  ∀ spec ∈ specs, spec.deps = [] → s.lookup spec.id = none → ∃ v, s'.lookup spec.id = some v ∧
    ((s'.recs v).phase = .ready ↔ spec.trigger ≠ .noneFailedMinOneSuccess)

theorem Births.starts {s₁ : Scope} (hb : Births s j.created s₁) (hi : s.Inv)
    (hnd : (specs.map (·.id)).Nodup) (hl : Links s₁ j { k | k ∈ t } (specs.flatMap specEdges) s' j')
    (hall : Settles s' { k | k ∈ t } es s'')
    (hfound : ∀ spec ∈ specs, ∃ v ∈ t, s₁.lookup spec.id = some v ∧ s₁.specMatches v spec) :
    Starts s specs s''.refreshComplete := by
  intro spec hspec hdeps hnew
  obtain ⟨v, hv, hlook, hmatch⟩ := hfound spec hspec
  have hi₁ := hi.path hb.path
  have hi' := hi₁.path hl.edited.path
  have halive₁ := hi₁.indexed.alive_of_lookup hlook
  obtain ⟨hdead, hphase⟩ := hb.new_of_lookup hi hnew hlook
  -- no spec of the batch gives it a predecessor
  have hnone : s'.preds v = ∅ := by
    rw [hl.preds, hb.preds hi, Scope.preds, sources, hi.mirrored.dead_pred v hdead,
      Finset.eq_empty_iff_forall_notMem]
    intro id hmem
    simp only [List.map_nil, List.toFinset_nil, Finset.empty_union, mem_incoming,
      List.mem_flatMap] at hmem
    obtain ⟨e, ⟨sp, hsp, he⟩, hto, -⟩ := hmem
    obtain ⟨dep, hdep, rfl⟩ := List.mem_map.mp he
    obtain rfl := List.inj_on_of_nodup_map hnd hsp hspec
      ((hi₁.indexed.id_of_lookup hto).symm.trans (hi₁.indexed.id_of_lookup hlook))
    rw [hdeps] at hdep
    cases hdep
  have hpred : s''.pred v = [] := by
    rw [(hi'.path hall.path).pred_eq_nil_iff, hall.cascades.succ, ← hi'.pred_eq_nil_iff]
    simpa [Scope.preds, sources] using hnone
  obtain ⟨d, hd⟩ := hl.edited.deps v
  have hready := hall.ready_iff hi' hv ((hl.edited.alive v).mpr halive₁) hpred
    (by rw [hl.edited.phase, hphase]; exact .inl rfl)
  rw [hd] at hready
  simp only [specMatches, Bool.and_eq_true, decide_eq_true_eq] at hmatch
  refine ⟨v, ?_, ?_⟩
  · rw [lookup, refreshComplete_index, hall.cascades.index, hl.edited.index]
    exact hlook
  · rw [refreshComplete_recs, hready, hmatch.1.1.1.2]

/-- `AddNodes` adds its whole batch or nothing. -/
theorem addNodes_revises (hi : s.Inv) (specs : List NodeSpec) :
    (s.addNodes specs).All fun r => Revises s r.1.effects r.2 ∧
      (s.Flagged → s.KeepsHeld (specs.flatMap specEdges) →
        ∀ v, RuleMet (s.recs v) → RuleMet (r.2.recs v)) ∧
      Chapter (specs.map (·.id)) s r.1.effects r.2 ∧ (r.1.err.isSome → r.1.effects = [] ∧ s.Restored r.2) ∧
      (r.1.err = none → Accepted r.2 specs ∧ Starts s specs r.2) := by
  have hundone : ∀ {s' : Scope} (e : Err), Tale s [] s' ∧ s.Restored s' → Revises s [] s' ∧
      (s.Flagged → s.KeepsHeld (specs.flatMap specEdges) →
        ∀ v, RuleMet (s.recs v) → RuleMet (s'.recs v)) ∧
      Chapter (specs.map (·.id)) s [] s' ∧ ((some e).isSome → ([] : List Effect) = [] ∧ s.Restored s') ∧
      (some e = none → Accepted s' specs ∧ Starts s specs s') :=
    fun e ⟨h, hback⟩ => ⟨h.revises, fun _ _ => h.heldOK, .plain h.annals, fun _ => ⟨rfl, hback⟩,
      nofun⟩
  unfold addNodes
  split
  · exact hundone _ ⟨.refl s, .refl s⟩
  rename_i hopen
  split
  · exact hundone _ ⟨.refl s, .refl s⟩
  rename_i hvalid
  obtain ⟨hwf, hnd⟩ := validateBatch_ok hvalid
  simp only [Prog.all_bind, Prog.all_getNow]
  intro now
  obtain ⟨err, s₁, j₁, hmat, hedges, hb, -, -, hok⟩ :=
    materialise_births now (j := {}) hi hwf Births.nil
  rw [show materialise now specs s {} [] = (err, s₁, j₁, j₁.created) from hmat]
  cases err with
  | some e =>
    exact hundone _ (hb.rollback hi (Edited.refl s₁) (by rw [hedges]; rfl))
  | none =>
    obtain ⟨hfound, hborn⟩ := hok rfl
    have hi₁ := hi.path hb.path
    dsimp only
    rcases linkBatch_links j₁ [] hi₁ (fun sp hsp => (hfound sp hsp).imp fun _ h => h.1)
        (fun sp hsp => (hwf sp hsp).self) with
      ⟨e, T, es', s', j', t, heq, hl⟩ | ⟨s', j', t, heq, hl, ht⟩
    · rw [heq]
      have hb' : Births s j'.created s₁ := by
        rw [hl.created]
        exact hb
      have hundo := hl.undo
      rw [hedges] at hundo
      exact hundone _ (hb'.rollback hi hl.edited hundo)
    · rw [heq]
      simp only [Prog.all_bind]
      have hi' := hi₁.path hl.edited.path
      have hnew : ∀ h ∈ j₁.created, s'.Alive h := fun h hh =>
        (hl.edited.alive h).mpr ((hb.alive hi h).mpr (.inr hh))
      refine ((recordCreated_settles [] hnew).and (recordCreated_announces .nil)).mono ?_
      rintro r ⟨⟨es₁, hout₁, hs₁⟩, hann⟩
      refine (settleAll_settles (hi'.path hs₁.path) fun k hk => ?_).mono ?_
      · rw [Alive, hs₁.cascades.alive]
        obtain ⟨sp, -, hk⟩ := ((ht k).mp hk).resolve_left (by simp)
        exact (hl.edited.alive k).mpr (hi₁.indexed.alive_of_lookup hk)
      rintro r' ⟨es₂, hout₂, hs₂, ha₂⟩
      have hall := hs₁.trans hs₂
      rw [Set.empty_union] at hall
      have hrev := hl.edited.settleAll hall
      have heff : r'.2 = es₁ ++ es₂ := by rw [hout₂, hout₁, List.nil_append]
      rw [← heff] at hrev
      have hfound' : ∀ sp ∈ specs, ∃ v ∈ t, s₁.lookup sp.id = some v ∧
          s₁.specMatches v sp := fun sp hsp => (hfound sp hsp).imp fun v hv =>
        ⟨(ht v).mpr (.inr ⟨sp, hsp, hv.1⟩), hv⟩
      -- the created nodes are among those settled
      have hsub : ∀ k ∈ j₁.created, k ∈ t := fun k hk =>
        (ht k).mpr (.inr ((hborn k hk).resolve_left (by simp)))
      refine ⟨Revises.refresh ⟨by simpa using hb.path.trans hrev.path,
        fun hf => hrev.flagged (hb.flagged hi hf), fun v hv => ?_⟩,
        fun hf hkeep v hv => (Evolves.refresh r'.1).heldOK v (hall.heldOK v ?_), ?_,
        by simp, fun _ => ⟨hl.accepted hi₁ hall ?_ ?_ hfound',
          hb.starts hi hnd hl hall hfound'⟩⟩
      · rcases hb.settled hi v hv with hv | hv
        · exact hrev.settled v hv
        · exact hall.settled v (.inr (hsub v hv))
      · exact hl.heldOK hi₁ (hb.flagged hi hf) (hb.keepsHeld hi hkeep) v
          (hb.heldOK hi v hv)
      · dsimp only
        rw [hout₂]
        refine .births ((hb.born hi).edited hl.edited) (fun h hh => ?_)
          (hb.path.trans hl.edited.path) hann (ha₂.quiet (silent_refresh r'.1))
        obtain ⟨sp, hsp, hlook⟩ := (hborn h hh).resolve_left (by simp)
        obtain ⟨d, hd⟩ := hl.edited.deps h
        rw [hd]
        exact List.mem_map.mpr ⟨sp, hsp, (hi₁.indexed.id_of_lookup hlook).symm⟩
      · simpa [hb.config.2] using hopen
      · rw [hb.config.1, hvalid]

end DagWorker.Memory.Scope
