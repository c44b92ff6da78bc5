import Mathlib.Algebra.Order.Ring.Int
import Mathlib.Data.List.AList

/-!
# Statuses, reasons, phases and trigger rules

The Go enumerations are `uint8` values; where a caller may pass any byte (`Reason`,
`TriggerRule`, `CascadePolicy`) the values past the last named one are kept as `unknown`.
-/

namespace DagWorker

/-- A Go map, as the list of its entries with pairwise distinct keys. -/
abbrev GoMap (κ ν : Type) := AList fun _ : κ => ν

/-- Identifier of a node within its scope. -/
abbrev NodeID := String

inductive Status
  | new
  | inProgress
  | success
  | error
deriving DecidableEq, Repr

def Status.terminal (s : Status) : Bool :=
  s = .success || s = .error

inductive Reason
  | none
  | workerError
  | timeout
  | upstreamFailed
  | skipped
  | cancelled
  | removed
  | unknown (v : ℕ)
deriving DecidableEq, Repr

inductive Phase
  | blocked
  | scheduled
  | ready
  | claimed
  | done
deriving DecidableEq, Repr

inductive TriggerRule
  | allSuccess
  | allDone
  | noneFailed
  | noneFailedMinOneSuccess
  | always
  | unknown (v : ℕ)
deriving DecidableEq, Repr

inductive CascadePolicy
  | reject
  | detach
  | fail
  | unknown (v : ℕ)
deriving DecidableEq, Repr

inductive EventKind
  | created
  | transition
  | ready
deriving DecidableEq, Repr

/-! ## The dependency tally -/

/-- The incremental predecessor tally a trigger rule is evaluated against. -/
structure DepCounts where
  unsatisfied : ℕ := 0
  succeeded : ℕ := 0
  skipped : ℕ := 0
  failed : ℕ := 0
deriving DecidableEq, Repr

namespace DepCounts

variable {d : DepCounts} {t : TriggerRule}

/-- The in-degree. -/
def total (d : DepCounts) : ℕ :=
  d.unsatisfied + d.succeeded + d.skipped + d.failed

/-- Rule `t` is satisfied by these counts. -/
def ready (d : DepCounts) (t : TriggerRule) : Bool :=
  if t = .always then true
  else if 0 < d.unsatisfied then false
  else match t with
    | .always => true
    | .allSuccess => d.failed = 0 && d.skipped = 0
    | .allDone => true
    | .noneFailed => d.failed = 0
    | .noneFailedMinOneSuccess => d.failed = 0 && decide (0 < d.succeeded)
    | .unknown _ => false

/-- Rule `t` can no longer be satisfied, however the remaining predecessors
resolve. -/
def unsatisfiable (d : DepCounts) (t : TriggerRule) : Bool :=
  match t with
  | .always => false
  | .allDone => false
  | .allSuccess => decide (0 < d.failed) || decide (0 < d.skipped)
  | .noneFailed => decide (0 < d.failed)
  | .noneFailedMinOneSuccess =>
    decide (0 < d.failed) || (d.unsatisfied = 0 && d.succeeded = 0)
  | .unknown _ => false

/-- The reason of a node whose rule became unsatisfiable. -/
def terminalReason (d : DepCounts) : Reason :=
  if 0 < d.failed then .upstreamFailed else .skipped

/-- How a predecessor enters the tally of its successors. -/
inductive Outcome
  | unsatisfied
  | succeeded
  | skipped
  | failed
deriving DecidableEq, Repr

/-- Outcome of a terminal predecessor. -/
def Outcome.ofTerminal (status : Status) (reason : Reason) : Outcome :=
  if status = .success then .succeeded
  else if reason = .skipped then .skipped
  else .failed

theorem Outcome.ofTerminal_ne_unsatisfied (status : Status) (reason : Reason) :
    Outcome.ofTerminal status reason ≠ .unsatisfied := by
  unfold Outcome.ofTerminal
  split
  · simp
  · split <;> simp

def count (d : DepCounts) : Outcome → ℕ
  | .unsatisfied => d.unsatisfied
  | .succeeded => d.succeeded
  | .skipped => d.skipped
  | .failed => d.failed

def setCount (d : DepCounts) (n : ℕ) : Outcome → DepCounts
  | .unsatisfied => { d with unsatisfied := n }
  | .succeeded => { d with succeeded := n }
  | .skipped => { d with skipped := n }
  | .failed => { d with failed := n }

def incr (d : DepCounts) (o : Outcome) : DepCounts :=
  d.setCount (d.count o + 1) o

/-- One predecessor less, under the guard `if count > 0`. -/
def decr (d : DepCounts) (o : Outcome) : DepCounts :=
  if 0 < d.count o then d.setCount (d.count o - 1) o else d

@[simp] theorem count_setCount (d : DepCounts) (n : ℕ) (o o' : Outcome) :
    (d.setCount n o).count o' = if o' = o then n else d.count o' := by
  cases o <;> cases o' <;> rfl

theorem ext_count {d' : DepCounts} (h : ∀ o, d.count o = d'.count o) : d = d' := by
  cases d
  cases d'
  have h₁ := h .unsatisfied
  have h₂ := h .succeeded
  have h₃ := h .skipped
  have h₄ := h .failed
  subst h₁ h₂ h₃ h₄
  rfl

@[simp] theorem count_incr (d : DepCounts) (o o' : Outcome) :
    (d.incr o).count o' = if o' = o then d.count o + 1 else d.count o' := by
  simp [incr]

theorem count_decr {o : Outcome} (h : 0 < d.count o) (o' : Outcome) :
    (d.decr o).count o' = if o' = o then d.count o - 1 else d.count o' := by
  simp [decr, h]

theorem decr_incr (d : DepCounts) (o : Outcome) : (d.incr o).decr o = d := by
  cases o <;> simp [incr, decr, setCount, count]

/-! ## Rules and tallies -/

/-- A rule that can no longer be satisfied is not satisfied. -/
theorem not_ready_of_unsatisfiable (h : d.unsatisfiable t = true) : d.ready t = false := by
  cases t <;> simp_all [unsatisfiable, ready] <;> omega

/-- Every rule other than `always` waits for all predecessors. -/
theorem unsatisfied_eq_zero_of_ready (h : d.ready t = true) (ht : t ≠ .always) :
    d.unsatisfied = 0 := by
  by_contra hpos
  have : 0 < d.unsatisfied := Nat.pos_of_ne_zero hpos
  simp [ready, ht, this] at h

/-- A known rule that is neither satisfied nor unsatisfiable still waits for a
predecessor. -/
theorem unsatisfied_pos_of_undecided (hknown : ∀ v, t ≠ .unknown v) (hready : d.ready t = false)
    (hunsat : d.unsatisfiable t = false) : 0 < d.unsatisfied := by
  cases t with
  | unknown v => exact absurd rfl (hknown v)
  | _ => simp_all [unsatisfiable, ready] <;> omega

section Deciding

variable {α : Type} {C : α → Prop} {p : Phase} {idle lost released held : α}

theorem settle_cases
    (hidle : (p = .blocked ∨ p = .ready → d.unsatisfiable t = false) →
      (p = .blocked → d.ready t = false) → (p = .ready → d.ready t = true) → C idle)
    (hlost : p = .blocked ∨ p = .ready → d.unsatisfiable t = true → C lost)
    (hreleased : p = .blocked → d.unsatisfiable t = false → d.ready t = true → C released)
    (hheld : p = .ready → d.unsatisfiable t = false → d.ready t = false → C held) :
    C (if p ≠ .blocked ∧ p ≠ .ready then idle
      else if d.unsatisfiable t then lost
      else if d.ready t then if p ≠ .ready then released else idle
      else if p ≠ .blocked then held else idle) := by
  cases p <;> cases hu : d.unsatisfiable t <;> cases hr : d.ready t <;> simp_all

theorem told_cases
    (hquiet : (p = .blocked ∨ p = .ready → d.unsatisfiable t = false) →
      (p = .blocked → d.ready t = false) → C idle)
    (hlost : p = .blocked ∨ p = .ready → d.unsatisfiable t = true → C lost)
    (hreleased : p = .blocked → d.unsatisfiable t = false → d.ready t = true → C released) :
    C (if p ≠ .blocked ∧ p ≠ .ready then idle
      else if d.unsatisfiable t then lost
      else if d.ready t then if p ≠ .ready then released else idle
      else idle) := by
  cases p <;> cases hu : d.unsatisfiable t <;> cases hr : d.ready t <;> simp_all

end Deciding

/-- The tally once further predecessors ended with these outcomes. -/
def resolved (d : DepCounts) (os : List Outcome) : DepCounts :=
  os.foldl (fun d o => (d.decr .unsatisfied).incr o) d

theorem resolved_eq (os : List Outcome) (hfinal : .unsatisfied ∉ os)
    (hle : os.length ≤ d.unsatisfied) :
    d.resolved os = ⟨d.unsatisfied - os.length, d.succeeded + os.count .succeeded,
      d.skipped + os.count .skipped, d.failed + os.count .failed⟩ := by
  induction os generalizing d with
  | nil => rfl
  | cons o os ih =>
    obtain ⟨ho, hfinal⟩ := not_or.mp (mt List.mem_cons.mpr hfinal)
    rw [List.length_cons] at hle
    have hpos : 0 < d.unsatisfied := by omega
    have hrest : ((d.decr .unsatisfied).incr o).resolved os = _ :=
      ih hfinal (by cases o <;> simp_all [decr, incr, setCount, count] <;> omega)
    refine hrest.trans ?_
    cases o <;> simp_all [decr, incr, setCount, count] <;> omega

theorem unsatisfiable_resolved (os : List Outcome) (hfinal : .unsatisfied ∉ os)
    (hle : os.length ≤ d.unsatisfied) (h : d.unsatisfiable t = true) :
    (d.resolved os).unsatisfiable t = true := by
  have hfew : os.count .succeeded ≤ os.length := List.count_le_length
  rw [resolved_eq os hfinal hle]
  cases t <;> simp_all [unsatisfiable] <;> omega

/-- Unless it is unsatisfiable, a rule with a name fires once all the predecessors it waits
for succeed. -/
theorem ready_resolved_succeeded (hknown : ∀ v, t ≠ .unknown v)
    (h : d.unsatisfiable t = false) :
    (d.resolved (List.replicate d.unsatisfied .succeeded)).ready t = true := by
  rw [resolved_eq _ (by simp [List.mem_replicate]) (by simp)]
  cases t with
  | unknown v => exact absurd rfl (hknown v)
  | _ => simp_all [unsatisfiable, ready, List.count_replicate] <;> omega

/-- A rule is unsatisfiable exactly if no outcome of the predecessors it still waits for
makes it fire, which stays so; and with no predecessor to wait for it has fired or is
unsatisfiable.  The hypotheses on the total say that there is a predecessor and that the
counters do not wrap. -/
theorem unsatisfiable_exact (t : TriggerRule) (d : DepCounts) (hknown : ∀ v, t ≠ .unknown v)
    (_ : 0 < d.total) (_ : d.total < 2 ^ 32) :
    (d.unsatisfiable t = true ↔ ∀ os : List Outcome, .unsatisfied ∉ os →
      os.length = d.unsatisfied → (d.resolved os).ready t = false) ∧
    ¬ (d.ready t = true ∧ d.unsatisfiable t = true) ∧
    (d.unsatisfiable t = true → ∀ os : List Outcome, .unsatisfied ∉ os →
      os.length ≤ d.unsatisfied → (d.resolved os).unsatisfiable t = true) ∧
    (d.unsatisfied = 0 → d.ready t = !d.unsatisfiable t) := by
  refine ⟨⟨?_, ?_⟩, ?_, ?_, ?_⟩
  · intro h os hfinal hlen
    exact not_ready_of_unsatisfiable (unsatisfiable_resolved os hfinal hlen.le h)
  · intro h
    by_contra hunsat
    have hready := ready_resolved_succeeded hknown (by simpa using hunsat)
    rw [h _ (by simp [List.mem_replicate]) (by simp)] at hready
    cases hready
  · rintro ⟨hready, hunsat⟩
    rw [not_ready_of_unsatisfiable hunsat] at hready
    cases hready
  · intro h os hfinal hle
    exact unsatisfiable_resolved os hfinal hle h
  · intro hzero
    cases hunsat : d.unsatisfiable t with
    | true => exact not_ready_of_unsatisfiable hunsat
    | false =>
      have hready := ready_resolved_succeeded hknown hunsat
      rwa [hzero] at hready

/-- Two of three predecessors are still waited for and one was skipped. -/
theorem unsatisfiable_exact_of_skipped :
    (⟨2, 0, 1, 0⟩ : DepCounts).unsatisfiable .allSuccess = true ∧
      ∀ os : List Outcome, .unsatisfied ∉ os → os.length = 2 →
        ((⟨2, 0, 1, 0⟩ : DepCounts).resolved os).ready .allSuccess = false :=
  ⟨by decide, (unsatisfiable_exact .allSuccess ⟨2, 0, 1, 0⟩ nofun (by decide)
    (by decide)).1.mp (by decide)⟩

end DepCounts
end DagWorker
