import DagWorker.Memory.Invariant

/-!
# Settled scopes

Between operations an edge is marked as soon as its source has terminated, a blocked node's
rule is undecided, and a node that is ready, leased or waiting to be retried had its rule
satisfied.  In the middle of an operation there are exceptions, which the predicates below
name.  `Evolves` relates two states of a scope with the same exceptions.
-/

namespace DagWorker.Memory.Scope

open Function

/-- Every edge from a terminated node is marked, but for those in `P`. -/
def FlaggedBut (s : Scope) (P : ℕ → ℕ → Prop) : Prop :=
  ∀ v, ∀ e ∈ s.pred v, (s.recs e.source).phase = .done → e.satisfied = true ∨ P e.source v

/-- Every edge from a terminated node is marked. -/
def Flagged (s : Scope) : Prop :=
  ∀ v, ∀ e ∈ s.pred v, (s.recs e.source).phase = .done → e.satisfied = true

/-- The rule of every blocked node outside `T` is undecided. -/
def SettledBut (s : Scope) (T : Set ℕ) : Prop :=
  ∀ v, s.Alive v → (s.recs v).phase = .blocked → v ∉ T → Undecided (s.recs v)

/-- A phase a node reaches only with its rule satisfied. -/
def held : Phase → Bool
  | .scheduled => true
  | .ready => true
  | .claimed => true
  | .blocked => false
  | .done => false

/-- The rule of every held node is satisfied, but for claimable nodes in `T`. -/
def HeldBut (s : Scope) (T : Set ℕ) : Prop :=
  ∀ v, s.Alive v → held (s.recs v).phase = true → ((s.recs v).phase = .ready → v ∉ T) →
    (s.recs v).deps.ready (s.recs v).trigger = true

/-- The rule of a blocked node is undecided. -/
def RuleOpen (r : NodeRec) : Prop := r.alive = true → r.phase = .blocked → Undecided r

/-- The rule of a held node is satisfied. -/
def RuleMet (r : NodeRec) : Prop :=
  r.alive = true → held r.phase = true → r.deps.ready r.trigger = true

/-- A change that respects the three predicates, node by node. -/
structure Respects (s s' : Scope) : Prop where
  flagged : s.Flagged → s'.Flagged
  settled : ∀ v, RuleOpen (s.recs v) → RuleOpen (s'.recs v)
  heldOK : ∀ v, RuleMet (s.recs v) → RuleMet (s'.recs v)

/-- Elementary transitions that together respect the three predicates. -/
structure Evolves (s : Scope) (es : List Effect) (s' : Scope) : Prop
    extends Respects s s' where
  path : Path s es s'

theorem SettledBut.of_forall {s s' : Scope} {T : Set ℕ}
    (h : ∀ v, RuleOpen (s.recs v) → RuleOpen (s'.recs v)) (hs : s.SettledBut T) :
    s'.SettledBut T :=
  fun v hv hblocked hT => h v (fun halive hp => hs v halive hp hT) hv hblocked

theorem HeldBut.of_forall {s s' : Scope} (h : ∀ v, RuleMet (s.recs v) → RuleMet (s'.recs v))
    (hs : s.HeldBut ∅) : s'.HeldBut ∅ :=
  fun v hv hheld _ =>
    h v (fun halive hp => hs v halive hp fun _ => Set.notMem_empty v) hv hheld

section Compose

variable {s s₁ s₂ : Scope} {es es' : List Effect}

theorem Respects.refl (s : Scope) : Respects s s :=
  ⟨fun h => h, fun _ h => h, fun _ h => h⟩

theorem Respects.trans (h₁ : Respects s s₁) (h₂ : Respects s₁ s₂) : Respects s s₂ :=
  ⟨fun h => h₂.flagged (h₁.flagged h), fun v h => h₂.settled v (h₁.settled v h),
    fun v h => h₂.heldOK v (h₁.heldOK v h)⟩

theorem Evolves.refl (s : Scope) : Evolves s [] s :=
  ⟨Respects.refl s, Path.nil⟩

theorem Evolves.trans (h₁ : Evolves s es s₁) (h₂ : Evolves s₁ es' s₂) :
    Evolves s (es ++ es') s₂ :=
  ⟨h₁.toRespects.trans h₂.toRespects, h₁.path.trans h₂.path⟩

end Compose

/-! ## Changes of one record -/

section Update

variable {s s' : Scope} {h : ℕ} {r : NodeRec}

theorem FlaggedBut.update_rec {P : ℕ → ℕ → Prop} (hf : s.FlaggedBut P)
    (hpred : s'.pred = s.pred) (hrecs : s'.recs = update s.recs h r)
    (hdone : r.phase = .done → (s.recs h).phase = .done) : s'.FlaggedBut P := by
  intro v e he hsrc
  rw [hpred] at he
  refine hf v e he ?_
  rw [hrecs] at hsrc
  by_cases hk : e.source = h
  · rw [hk] at hsrc ⊢
    exact hdone (by simpa using hsrc)
  · rwa [update_of_ne hk] at hsrc

/-- What holds of every record that it held of, if it does of the new one. -/
theorem forall_update {P : NodeRec → Prop} (hrecs : s'.recs = update s.recs h r)
    (hnew : P (s.recs h) → P r) (v : ℕ) (hv : P (s.recs v)) : P (s'.recs v) := by
  rw [hrecs]
  by_cases hk : v = h
  · rw [hk, update_self]
    exact hnew (hk ▸ hv)
  · rwa [update_of_ne hk]

theorem flaggedBut_false_iff : s.FlaggedBut (fun _ _ => False) ↔ s.Flagged := by
  simp [FlaggedBut, Flagged]

theorem Flagged.update_rec (hf : s.Flagged) (hpred : s'.pred = s.pred)
    (hrecs : s'.recs = update s.recs h r)
    (hdone : r.phase = .done → (s.recs h).phase = .done) : s'.Flagged :=
  flaggedBut_false_iff.mp ((flaggedBut_false_iff.mpr hf).update_rec hpred hrecs hdone)

end Update
/-! ## Calm transitions -/

/-- A change of a record that needs no other node to be looked at. -/
structure Calm (r r' : NodeRec) : Prop where
  done : r'.phase = .done → r.phase = .done
  ruleOpen : RuleOpen r → RuleOpen r'
  ruleMet : RuleMet r → RuleMet r'

/-- A record keeps everything the trigger rules look at. -/
theorem Calm.of_same {r r' : NodeRec} (halive : r'.alive = r.alive) (hphase : r'.phase = r.phase)
    (hdeps : r'.deps = r.deps) (htrigger : r'.trigger = r.trigger) : Calm r r' := by
  refine ⟨fun h => hphase ▸ h, ?_, ?_⟩
  · rw [RuleOpen, RuleOpen, Undecided, Undecided, halive, hphase, hdeps, htrigger]
    exact id
  · rw [RuleMet, RuleMet, halive, hphase, hdeps, htrigger]
    exact id

/-- A node moves from one held phase to another. -/
theorem Calm.of_held {r r' : NodeRec} (halive : r'.alive = r.alive) (hold : held r.phase = true)
    (hnew : held r'.phase = true) (hdeps : r'.deps = r.deps) (htrigger : r'.trigger = r.trigger) :
    Calm r r' := by
  refine ⟨fun h => ?_, fun _ _ h => ?_, fun hmet ha _ => ?_⟩
  · rw [h] at hnew
    cases hnew
  · rw [h] at hnew
    cases hnew
  · rw [hdeps, htrigger]
    exact hmet (halive ▸ ha) hold

theorem Respects.of_calm {s s' : Scope} {h : ℕ} {r : NodeRec} (hpred : s'.pred = s.pred)
    (hrecs : s'.recs = update s.recs h r) (hcalm : Calm (s.recs h) r) : Respects s s' :=
  ⟨fun hf => hf.update_rec hpred hrecs hcalm.done, forall_update hrecs hcalm.ruleOpen,
    forall_update hrecs hcalm.ruleMet⟩

namespace Evolves

variable {s s' : Scope} {es : List Effect} {h : ℕ} {r : NodeRec}

theorem of_calm (hpath : Path s es s') (hpred : s'.pred = s.pred)
    (hrecs : s'.recs = update s.recs h r) (hcalm : Calm (s.recs h) r) : Evolves s es s' :=
  ⟨Respects.of_calm hpred hrecs hcalm, hpath⟩

theorem of_frame (hstep : Step s s') (hrecs : s'.recs = s.recs) (hpred : s'.pred = s.pred) :
    Evolves s [] s' :=
  of_calm (h := 0) (r := s.recs 0) (Path.single hstep) hpred (by rw [hrecs, update_eq_self])
    (Calm.of_same rfl rfl rfl rfl)

theorem event (kind : EventKind) (fromStatus : Status) (t : Int) (hh : s.Alive h) :
    Evolves s [(s.recordAt h kind fromStatus t).1] (s.recordAt h kind fromStatus t).2 := by
  have hgraph := recordAt_graph s h kind fromStatus t
  exact of_calm (Path.event h kind fromStatus t hh) (congrArg Graph.pred hgraph)
    (recordAt_recs s h kind fromStatus t) (Calm.of_same rfl rfl rfl rfl)

theorem refresh (s : Scope) : Evolves s [] s.refreshComplete :=
  of_frame Step.refresh rfl rfl

theorem annotate (result : Bytes) (worker : String) (hh : s.Alive h) :
    Evolves s [] (s.modRec h fun r => { r with result := result, worker := worker }) :=
  of_calm (Path.single (Step.annotate h result worker hh)) rfl rfl
    (Calm.of_same rfl rfl rfl rfl)

theorem renew (t : Int) (hh : s.Alive h) (hp : (s.recs h).phase = .claimed) :
    Evolves s [] (s.renew h t) :=
  of_frame (Step.renew h t hh hp) rfl rfl

theorem makeReady (hh : s.Alive h) (hp : (s.recs h).phase = .blocked)
    (hready : (s.recs h).deps.ready (s.recs h).trigger = true) :
    Evolves s [] (s.makeReady h) :=
  of_calm (Path.single (Step.makeReady h hh hp hready))
    (congrArg Graph.pred (makeReady_graph s h)) (makeReady_recs s h)
    ⟨by simp, by simp [RuleOpen], fun _ _ _ => hready⟩

theorem makeBlocked (hh : s.Alive h) (hp : (s.recs h).phase = .ready)
    (hund : Undecided (s.recs h)) : Evolves s [] (s.makeBlocked h) :=
  of_calm (Path.single (Step.makeBlocked h hh hp hund))
    (congrArg Graph.pred (makeBlocked_graph s h)) (makeBlocked_recs s h)
    ⟨by simp, fun _ _ _ => hund, by simp [RuleMet, held]⟩

theorem promote (hi : s.Inv) (hp : s.scheduled.peek = some h) : Evolves s [] (s.promote h) :=
  of_calm (Path.single (Step.promote h hp)) (congrArg Graph.pred (promote_graph s h))
    (promote_recs s h)
    (Calm.of_held rfl (by rw [(hi.queued.scheduled_of_peek hp).2]; rfl) rfl rfl rfl)

theorem retry (reason : Reason) (msg : String) (now delay : Int) (hh : s.Alive h)
    (hp : (s.recs h).phase = .claimed) : Evolves s [] (s.retry h reason msg now delay) :=
  of_calm (Path.single (Step.retry h reason msg now delay hh hp))
    (congrArg Graph.pred (retry_graph s h reason msg now delay))
    (retry_recs s h reason msg now delay)
    (Calm.of_held rfl (by rw [hp]; rfl) rfl rfl rfl)

end Evolves

theorem Respects.grant {s : Scope} {h : ℕ} (hi : s.Inv) {kind : String} (worker : String)
    (now leaseFor : Int) (hp : (s.readyHeap kind).peek = some h) :
    Respects s (s.grant h kind worker now leaseFor) :=
  of_calm (congrArg Graph.pred (grant_graph s h kind worker now leaseFor))
    (grant_recs s h kind worker now leaseFor)
    (Calm.of_held rfl (by rw [(hi.queued.phase_of_peek hp).2.1]; rfl) rfl rfl rfl)

end DagWorker.Memory.Scope
