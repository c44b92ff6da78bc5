import DagWorker.Memory.Settle

/-!
# What the operations announce

Every change of a node's status is announced by one event of that node.  `Annals` is a
sequence of such announced changes and of silent ones; the effects an operation returns are
the annals of what it did.  `Tale` is a change that respects the trigger rules as well.
-/

namespace DagWorker.Memory.Scope

open Function

variable {r : NodeRec} {s s' : Scope} {h : ℕ}

/-! ## Changes of one node -/

/-- What a final status settles for good. -/
structure Verdict where
  status : Status
  reason : Reason
  message : String
  result : Bytes
  attempt : ℕ
  epoch : ℕ
  seq : ℕ
deriving DecidableEq

def verdict (r : NodeRec) : Verdict :=
  { status := r.status
    reason := r.reason
    message := r.message
    result := r.result
    attempt := r.attempt
    epoch := r.epoch
    seq := r.seq }

/-- A change of a record that needs no event. -/
structure Keeps (r r' : NodeRec) : Prop where
  id : r'.id = r.id
  status : r'.status = r.status
  seq : r'.seq = r.seq
  phase : r'.phase = r.phase ∨ r.phase = .ready ∧ r'.phase = .blocked
  verdict : r.phase = .done → verdict r' = verdict r

theorem Keeps.refl (r : NodeRec) : Keeps r r :=
  ⟨rfl, rfl, rfl, .inl rfl, fun _ => rfl⟩

theorem Keeps.trans {r₁ r₂ : NodeRec} (h₁ : Keeps r r₁) (h₂ : Keeps r₁ r₂) : Keeps r r₂ := by
  constructor
  · exact h₂.id.trans h₁.id
  · exact h₂.status.trans h₁.status
  · exact h₂.seq.trans h₁.seq
  · rcases h₁.phase with hp | ⟨hp, hp₁⟩
    · rw [← hp]
      exact h₂.phase
    rcases h₂.phase with hp₂ | ⟨hp₂, -⟩
    · exact .inr ⟨hp, hp₂.trans hp₁⟩
    · rw [hp₁] at hp₂
      cases hp₂
  · intro hdone
    have hdone₁ : r₁.phase = .done := by
      rcases h₁.phase with hp | ⟨hp, -⟩
      · exact hp.trans hdone
      · rw [hdone] at hp
        cases hp
    exact (h₂.verdict hdone₁).trans (h₁.verdict hdone)

/-- A change of a record that an event of the given kind announces. -/
inductive Shift (r : NodeRec) : EventKind → NodeRec → Prop
  | ready : r.phase = .blocked ∨ r.phase = .scheduled →
      Shift r .ready { r with phase := .ready, status := .new }
  | grant (worker : String) (now : Int) : r.phase = .ready →
      Shift r .transition (grantedRec r worker now)
  | retry (reason : Reason) (msg : String) (now : Int) : r.phase = .claimed →
      Shift r .transition (retriedRec r reason msg now)
  | finish (it : Item) (now : Int) : r.phase ≠ .done → it.status.terminal = true →
      Shift r .transition (finishedRec r it now)

namespace Shift

variable {r r' : NodeRec} {kind : EventKind}

theorem id (h : Shift r kind r') : r'.id = r.id := by
  cases h <;> rfl

theorem seq (h : Shift r kind r') : r'.seq = r.seq := by
  cases h <;> rfl

/-- Nothing is announced of a node that has terminated. -/
theorem phase_ne_done (h : Shift r kind r') : r.phase ≠ .done := by
  cases h with
  | ready hp =>
    rcases hp with hp | hp
    · simp [hp]
    · simp [hp]
  | grant worker now hp => simp [hp]
  | retry reason msg now hp => simp [hp]
  | finish it now hp _ => exact hp

end Shift

/-! ## Changes of a scope -/

/-- Nodes may have been deleted; the others have changed without an event. -/
def Silent (s s' : Scope) : Prop :=
  ∀ h, s'.Alive h → s.Alive h ∧ Keeps (s.recs h) (s'.recs h)

/-- One node has changed and its event, with the effect `ef`, has been recorded. -/
structure Deed (s : Scope) (ef : Effect) (s' : Scope) (h : ℕ) (r : NodeRec) : Prop where
  alive : s.Alive h
  shift : Shift (s.recs h) ef.kind r
  recs : s'.recs = update s.recs h { r with seq := r.seq + 1 }
  nodeID : ef.nodeID = r.id
  fromStatus : ef.fromStatus = (s.recs h).status
  toStatus : ef.toStatus = r.status
  seq : ef.seq = r.seq + 1

/-- Any number of silent and of announced changes, with the effects of the events in
order. -/
inductive Annals (s : Scope) : List Effect → Scope → Prop
  | nil : Annals s [] s
  | quiet {es : List Effect} {s₁ s₂ : Scope} : Annals s es s₁ → Silent s₁ s₂ → Annals s es s₂
  | tell {es : List Effect} {ef : Effect} {s₁ s₂ : Scope} {h : ℕ} {r : NodeRec} :
      Annals s es s₁ → Deed s₁ ef s₂ h r → Annals s (es ++ [ef]) s₂

theorem Annals.trans {s₁ s₂ : Scope} {es es' : List Effect} (h₁ : Annals s es s₁)
    (h₂ : Annals s₁ es' s₂) : Annals s (es ++ es') s₂ := by
  induction h₂ with
  | nil =>
    rw [List.append_nil]
    exact h₁
  | quiet _ hs ih => exact ih.quiet hs
  | tell _ hd ih =>
    rw [← List.append_assoc]
    exact ih.tell hd

theorem Annals.of_silent (h : Silent s s') : Annals s [] s' :=
  Annals.nil.quiet h

theorem Annals.of_deed {ef : Effect}
    (hd : Deed s ef s' h r) : Annals s [ef] s' :=
  Annals.nil.tell hd

namespace Silent

variable {s s' : Scope} {h : ℕ} {r : NodeRec}

theorem of_recs (hrecs : s'.recs = s.recs) : Silent s s' := by
  intro k hk
  rw [Alive, hrecs] at hk
  rw [hrecs]
  exact ⟨hk, .refl _⟩

theorem of_update (hrecs : s'.recs = update s.recs h r) (halive : r.alive = (s.recs h).alive)
    (hk : Keeps (s.recs h) r) : Silent s s' := by
  intro k halive'
  rw [Alive, hrecs] at halive'
  rw [hrecs]
  by_cases hkh : k = h
  · subst hkh
    rw [update_self] at halive' ⊢
    exact ⟨halive.symm.trans halive', hk⟩
  · rw [update_of_ne hkh] at halive' ⊢
    exact ⟨halive', .refl _⟩

theorem of_delete (hrecs : s'.recs = update s.recs h {}) : Silent s s' := by
  intro k hk
  rw [Alive, hrecs] at hk
  rw [hrecs]
  have hkh : k ≠ h := by
    rintro rfl
    rw [update_self] at hk
    cases hk
  rw [update_of_ne hkh] at hk ⊢
  exact ⟨hk, .refl _⟩

theorem keeps_deps (r : NodeRec) (d : DepCounts) : Keeps r { r with deps := d } :=
  ⟨rfl, rfl, rfl, .inl rfl, fun _ => rfl⟩

theorem of_mark (s : Scope) (w : ℕ) (es : List PredEdge) (o : DepCounts.Outcome) :
    Silent s (s.marked w es o) :=
  of_update (marked_recs s w es o) rfl (keeps_deps _ _)

theorem of_makeBlocked (hinv : s.Inv) (hp : (s.recs h).phase = .ready) :
    Silent s (s.makeBlocked h) := by
  have hfit := hinv.fitted h
  have hstatus : (s.recs h).status = .new := by
    cases hst : (s.recs h).status <;> simp_all [fits]
  apply of_update (makeBlocked_recs s h) rfl
  refine ⟨rfl, hstatus.symm, rfl, .inr ⟨hp, rfl⟩, fun hd => ?_⟩
  rw [hp] at hd
  cases hd

end Silent

/-! ## Announced changes -/

section Deeds

variable {s s₁ : Scope} {h : ℕ} {r : NodeRec} {kind : EventKind}

/-- A change followed by its event. -/
theorem Deed.of_record {fromStatus : Status} (hh : s.Alive h) (hshift : Shift (s.recs h) kind r)
    (hrecs : s₁.recs = update s.recs h r) (hfrom : fromStatus = (s.recs h).status) (t : Int) :
    Deed s (s₁.recordAt h kind fromStatus t).1 (s₁.recordAt h kind fromStatus t).2 h r := by
  have hrec : s₁.recs h = r := by rw [hrecs, update_self]
  constructor
  · exact hh
  · exact hshift
  · rw [recordAt_recs, hrec, hrecs, update_idem]
  · simp [recordAt, effectOf, hrec]
  · exact hfrom
  · simp [recordAt, effectOf, hrec]
  · simp [recordAt, effectOf, hrec]

/-- A node that is blocked or waits out a backoff has status `new`. -/
theorem status_of_waiting (hi : s.Inv)
    (hp : (s.recs h).phase = .blocked ∨ (s.recs h).phase = .scheduled) :
    (s.recs h).status = .new := by
  have hfit := hi.fitted h
  rcases hp with hp | hp <;> rw [hp] at hfit <;>
    cases hst : (s.recs h).status <;> simp_all [fits]

theorem Deed.ready (hi : s.Inv) (hh : s.Alive h) (hp : (s.recs h).phase = .blocked) (t : Int) :
    Deed s ((s.makeReady h).recordAt h .ready .new t).1
      ((s.makeReady h).recordAt h .ready .new t).2 h
      { s.recs h with phase := .ready, status := .new } :=
  .of_record hh (.ready (.inl hp)) (makeReady_recs s h)
    (status_of_waiting hi (.inl hp)).symm t

theorem Deed.promote (hi : s.Inv) (hpeek : s.scheduled.peek = some h) (t : Int) :
    Deed s ((s.promote h).recordAt h .ready .new t).1
      ((s.promote h).recordAt h .ready .new t).2 h
      { s.recs h with phase := .ready, status := .new } := by
  obtain ⟨hh, hp⟩ := hi.queued.scheduled_of_peek hpeek
  exact .of_record hh (.ready (.inr hp)) (promote_recs s h)
    (status_of_waiting hi (.inr hp)).symm t

theorem Deed.finish {it : Item} (hh : s.Alive it.h) (hopen : (s.recs it.h).phase ≠ .done)
    (hst : it.status.terminal = true) (now t : Int) :
    Deed s ((s.finish it now).recordAt it.h .transition (s.recs it.h).status t).1
      ((s.finish it now).recordAt it.h .transition (s.recs it.h).status t).2 it.h
      (finishedRec (s.recs it.h) it now) :=
  .of_record hh (.finish it now hopen hst) (finish_recs s it now) rfl t

theorem Deed.retry (hh : s.Alive h) (hp : (s.recs h).phase = .claimed) (reason : Reason)
    (msg : String) (now delay t : Int) :
    Deed s ((s.retry h reason msg now delay).recordAt h .transition (s.recs h).status t).1
      ((s.retry h reason msg now delay).recordAt h .transition (s.recs h).status t).2 h
      (retriedRec (s.recs h) reason msg now) :=
  .of_record hh (.retry reason msg now hp) (retry_recs s h reason msg now delay) rfl t

end Deeds

/-! ## Announced changes that respect the rules -/

theorem silent_refresh (s : Scope) : Silent s s.refreshComplete :=
  Silent.of_recs rfl

/-- Elementary transitions that respect the trigger rules, with the annals of what
they did. -/
structure Tale (s : Scope) (es : List Effect) (s' : Scope) : Prop extends Evolves s es s' where
  annals : Annals s es s'

namespace Tale

variable {s s₁ s₂ : Scope} {es es' : List Effect}

theorem refl (s : Scope) : Tale s [] s :=
  ⟨.refl s, .nil⟩

theorem trans (h₁ : Tale s es s₁) (h₂ : Tale s₁ es' s₂) : Tale s (es ++ es') s₂ :=
  ⟨h₁.toEvolves.trans h₂.toEvolves, h₁.annals.trans h₂.annals⟩

theorem refresh (h : Tale s es s₁) : Tale s es s₁.refreshComplete :=
  ⟨by simpa using h.toEvolves.trans (.refresh s₁), h.annals.quiet (silent_refresh s₁)⟩

end Tale

end DagWorker.Memory.Scope
