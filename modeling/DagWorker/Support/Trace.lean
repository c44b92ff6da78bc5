import DagWorker.Support.Prog

/-!
# Runs of a system

A system has a state and takes calls, each of them a program that gives a reply and the
next state.  A run is recorded step by step, so that a statement can speak about what
each call found and left.  Nothing here depends on the system.
-/

namespace DagWorker.Trace

variable {σ ι ο : Type}
variable {s t : σ}

structure Step (σ ι ο : Type) where
  before : σ
  call : ι
  reply : ο
  after : σ

variable (exec : σ → ι → Prog (ο × σ))

def Step.Valid (r : Step σ ι ο) : Prop :=
  Prog.Yields (exec r.before r.call) (r.reply, r.after)

/-- A run from `s`: its steps in order, ending in the last state. -/
inductive Run (s : σ) : List (Step σ ι ο) → σ → Prop
  | nil : Run s [] s
  | snoc {steps : List (Step σ ι ο)} {r : Step σ ι ο} :
      Run s steps r.before → r.Valid exec → Run s (steps ++ [r]) r.after

variable {exec}

theorem Run.cons {r : Step σ ι ο} {steps : List (Step σ ι ο)} (hv : r.Valid exec)
    (hrun : Run exec r.after steps s) : Run exec r.before (r :: steps) s := by
  induction hrun with
  | nil =>
    have hrun : Run exec r.before ([] ++ [r]) r.after := Run.snoc Run.nil hv
    exact hrun
  | snoc _ hv' ih => exact Run.snoc ih hv'

/-- The last state is the first one or was left by a step. -/
theorem Run.eq_or_after {steps : List (Step σ ι ο)} (hrun : Run exec s steps t) :
    t = s ∨ ∃ r ∈ steps, t = r.after := by
  cases hrun with
  | nil => exact .inl rfl
  | snoc => exact .inr ⟨_, by simp, rfl⟩

/-- What holds at the start and is kept by every step of the run holds at its end. -/
theorem Run.preserves {I : σ → Prop} {steps : List (Step σ ι ο)} (hrun : Run exec s steps t)
    (hstart : I s) (hstep : ∀ r ∈ steps, r.Valid exec → I r.before → I r.after) : I t := by
  induction hrun with
  | nil => exact hstart
  | @snoc steps r _ hv ih =>
    have hbefore := ih fun q hq => hstep q (List.mem_append_left _ hq)
    exact hstep r (by simp) hv hbefore

theorem Run.trans {mid : σ} {steps steps' : List (Step σ ι ο)} (h₁ : Run exec s steps mid)
    (h₂ : Run exec mid steps' t) : Run exec s (steps ++ steps') t := by
  induction h₂ with
  | nil =>
    rw [List.append_nil]
    exact h₁
  | snoc _ hv ih =>
    rw [← List.append_assoc]
    exact Run.snoc ih hv

/-- A run can be taken apart at each of its steps. -/
theorem Run.around {pre post : List (Step σ ι ο)} {r : Step σ ι ο}
    (hrun : Run exec s (pre ++ r :: post) t) :
    Run exec s pre r.before ∧ r.Valid exec ∧ Run exec r.after post t := by
  generalize hall : pre ++ r :: post = steps at hrun
  induction hrun generalizing post with
  | nil => simp at hall
  | @snoc steps q hrun hv ih =>
    rcases List.eq_nil_or_concat' post with rfl | ⟨post, q', rfl⟩
    · obtain ⟨rfl, hq⟩ := List.append_inj' hall rfl
      obtain rfl := List.singleton_injective hq
      exact ⟨hrun, hv, Run.nil⟩
    rw [← List.cons_append, ← List.append_assoc] at hall
    obtain ⟨hsteps, hq⟩ := List.append_inj' hall rfl
    obtain rfl := List.singleton_injective hq
    obtain ⟨hpre, hr, hpost⟩ := ih hsteps
    exact ⟨hpre, hr, Run.snoc hpost hv⟩

/-- A step of a run and the run that led to it. -/
theorem Run.prefix_of_mem {steps : List (Step σ ι ο)} (hrun : Run exec s steps t) {r : Step σ ι ο}
    (hr : r ∈ steps) :
    ∃ pre post, steps = pre ++ r :: post ∧ Run exec s pre r.before ∧ r.Valid exec := by
  obtain ⟨pre, post, rfl⟩ := List.append_of_mem hr
  obtain ⟨hpre, hv, -⟩ := hrun.around
  exact ⟨pre, post, rfl, hpre, hv⟩

/-! ## Executing calls -/

/-- A call with the readings it gets. -/
structure Call (ι : Type) where
  input : ι
  clock : List Int := []
  jitters : List Int := []

variable (exec)

/-- The run of some calls, every map taken in the order its keys are stored. -/
def execute : List (Call ι) → σ → Option (List (Step σ ι ο) × σ)
  | [], s => some ([], s)
  | c :: calls, s => do
    let (reply, mid) ← (exec s c.input).run c.clock c.jitters
    let (steps, last) ← execute calls mid
    pure (⟨s, c.input, reply, mid⟩ :: steps, last)

variable {exec}

theorem run_of_execute {calls : List (Call ι)} {steps : List (Step σ ι ο)}
    (h : execute exec calls s = some (steps, t)) : Run exec s steps t := by
  induction calls generalizing s steps with
  | nil =>
    obtain ⟨rfl, rfl⟩ := h
    exact Run.nil
  | cons c calls ih =>
    simp only [execute, Option.bind_eq_bind, Option.bind_eq_some_iff, Option.pure_def,
      Option.some.injEq, Prod.mk.injEq] at h
    obtain ⟨⟨reply, mid⟩, hreply, ⟨tail, last⟩, htail, rfl, rfl⟩ := h
    exact Run.cons (r := ⟨s, c.input, reply, mid⟩) (Prog.yields_of_run hreply) (ih htail)

variable (exec)

/-- A fact checked on the run of some calls holds of a run. -/
theorem exists_run_of_execute (calls : List (Call ι)) (s : σ)
    {p : List (Step σ ι ο) → σ → Bool}
    (h : (execute exec calls s).any (fun x => p x.1 x.2) = true) :
    ∃ steps t, Run exec s steps t ∧ p steps t = true := by
  rw [Option.any_eq_true] at h
  obtain ⟨⟨steps, t⟩, hx, hp⟩ := h
  exact ⟨steps, t, run_of_execute hx, hp⟩

end DagWorker.Trace
