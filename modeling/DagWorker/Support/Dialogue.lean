import Mathlib.Data.Nat.Notation
import Mathlib.Logic.Nonempty

/-!
# Dialogues with a server

A dialogue issues statements one after the other and decides from each result how to go
on.  It ends with a value, with an error of its own, or without an answer (`abort`).  The
statements come from any signature and act on any state.

`Wp` is the weakest precondition of a dialogue for its successful ends.  `Uses` says which
statements it can issue, and `Uses.wp` carries a relation from single statements to whole
dialogues.
-/

namespace DagWorker

/-- A program over statements `s`, each with results in `Res s`. -/
inductive Dialogue {S : Type} (Res : S → Type) (ε α : Type) : Type
  | ret (a : α)
  | fail (err : ε)
  | abort
  | stmt (s : S) (k : Res s → Dialogue Res ε α)

namespace Dialogue

variable {S : Type} {Res : S → Type} {ε α β γ : Type}
variable {f : α → Dialogue Res ε β} {s : S} {p : Dialogue Res ε α} (a : α)

/-- Sequential composition: graft `f` at every successful end. -/
def bind : Dialogue Res ε α → (α → Dialogue Res ε β) → Dialogue Res ε β
  | ret a, f => f a
  | fail err, _ => fail err
  | abort, _ => abort
  | stmt s k, f => stmt s fun r => (k r).bind f

instance : Monad (Dialogue Res ε) where
  pure := ret
  bind := bind

@[simp] theorem stmt_bind (s : S) (k : Res s → Dialogue Res ε α) (f : α → Dialogue Res ε β) :
    stmt s k >>= f = stmt s fun r => k r >>= f := rfl

def ask (s : S) : Dialogue Res ε (Res s) := stmt s ret

/-- Go on with a value that has to be there. -/
def orAbort : Option α → Dialogue Res ε α
  | some a => ret a
  | none => abort

def ofExcept : Except ε α → Dialogue Res ε α
  | .ok a => ret a
  | .error err => fail err

/-! ## Preconditions -/

section Execution

variable {σ A : Type} (exec : A → (s : S) → σ → Option (Res s × σ))
variable {Q' P : α → σ → Prop}

/-- Whatever the answers are, a successful end satisfies `Q`. -/
def Wp (Q : α → σ → Prop) : Dialogue Res ε α → σ → Prop
  | ret a, st => Q a st
  | fail _, _ => True
  | abort, _ => True
  | stmt s k, st => ∀ a r st', exec a s st = some (r, st') → (k r).Wp Q st'

variable {exec} {Q : α → σ → Prop} {st : σ}

@[simp] theorem wp_ret (a : α) : Wp exec Q (ret a : Dialogue Res ε α) st ↔ Q a st := Iff.rfl

@[simp] theorem wp_bind {Q : β → σ → Prop} :
    Wp exec Q (p >>= f) st ↔ Wp exec (fun a st' => Wp exec Q (f a) st') p st := by
  induction p generalizing st with
  | ret a => rfl
  | fail err => rfl
  | abort => rfl
  | stmt s k ih => simp only [stmt_bind, Wp, ih]

theorem wp_map {Q : β → σ → Prop} {f : α → β} :
    Wp exec Q (f <$> p) st ↔ Wp exec (fun a st' => Q (f a) st') p st :=
  wp_bind

theorem Wp.mono (h : Wp exec Q p st) (hQ : ∀ a st', Q a st' → Q' a st') : Wp exec Q' p st := by
  induction p generalizing st with
  | ret a => exact hQ a st h
  | fail err => trivial
  | abort => trivial
  | stmt s k ih =>
    intro a r st' hexec
    exact ih r (h a r st' hexec)

theorem wp_true (p : Dialogue Res ε α) (st : σ) : Wp exec (fun _ _ => True) p st := by
  induction p generalizing st with
  | ret a => trivial
  | fail err => trivial
  | abort => trivial
  | stmt s k ih => exact fun _ r st' _ => ih r st'

theorem Wp.and (h : Wp exec Q p st) (h' : Wp exec Q' p st) :
    Wp exec (fun a st' => Q a st' ∧ Q' a st') p st := by
  induction p generalizing st with
  | ret a => exact ⟨h, h'⟩
  | fail err => trivial
  | abort => trivial
  | stmt s k ih =>
    intro a r st' hexec
    exact ih r (h a r st' hexec) (h' a r st' hexec)

/-- The rule of sequential composition. -/
theorem Wp.bind {Q : β → σ → Prop} (h : Wp exec P p st)
    (hf : ∀ a st', P a st' → Wp exec Q (f a) st') : Wp exec Q (p >>= f) st :=
  wp_bind.mpr (h.mono hf)

theorem wp_ofExcept {x : Except ε α} (h : ∀ a, x = .ok a → Q a st) :
    Wp exec Q (ofExcept x : Dialogue Res ε α) st := by
  cases x with
  | error err => trivial
  | ok a => exact h a rfl

/-- Fewer outcomes of the statements. -/
theorem Wp.restrict {exec' : A → (s : S) → σ → Option (Res s × σ)} (h : Wp exec Q p st)
    (hexec : ∀ a s st r st', exec' a s st = some (r, st') → ∃ b, exec b s st = some (r, st')) :
    Wp exec' Q p st := by
  induction p generalizing st with
  | ret a => exact h
  | fail err => trivial
  | abort => trivial
  | stmt s k ih =>
    intro a r st' hstep
    obtain ⟨b, hb⟩ := hexec a s st r st' hstep
    exact ih r (h b r st' hb)

/-! ## Ending with a value -/

variable (exec) in
/-- Every statement has a result, and whatever it is, the dialogue ends with a value. -/
def Halts : Dialogue Res ε α → σ → Prop
  | ret _, _ => True
  | fail _, _ => False
  | abort, _ => False
  | stmt s k, st => (∃ a r st', exec a s st = some (r, st')) ∧
      ∀ a r st', exec a s st = some (r, st') → (k r).Halts st'

theorem halts_ask {a : A} {x : Res s × σ} (h : exec a s st = some x) :
    Halts exec (ask s : Dialogue Res ε (Res s)) st :=
  ⟨⟨a, x.1, x.2, h⟩, fun _ _ _ _ => trivial⟩

theorem Halts.bind (h : Halts exec p st) (hp : Wp exec P p st)
    (hf : ∀ a st', P a st' → Halts exec (f a) st') : Halts exec (p >>= f) st := by
  induction p generalizing st with
  | ret a => exact hf a st hp
  | fail err => exact h.elim
  | abort => exact h.elim
  | stmt s k ih =>
    refine ⟨h.1, ?_⟩
    intro a r st' hexec
    exact ih r (h.2 a r st' hexec) (hp a r st' hexec)

variable (exec) in
/-- Every run ends, with a value and a state that satisfy `Q`. -/
def Returns (Q : α → σ → Prop) (p : Dialogue Res ε α) (st : σ) : Prop :=
  Halts exec p st ∧ Wp exec Q p st

/-- A statement whose result does not depend on the answer. -/
theorem returns_ask [Nonempty A] {Q : Res s → σ → Prop} {x : Res s × σ}
    (h : ∀ a, exec a s st = some x) (hQ : Q x.1 x.2) :
    Returns exec Q (ask s : Dialogue Res ε (Res s)) st := by
  constructor
  · exact halts_ask (h (Classical.arbitrary A))
  intro a r st' hexec
  rw [h] at hexec
  cases hexec
  exact hQ

theorem Returns.bind {Q : β → σ → Prop} (h : Returns exec P p st)
    (hf : ∀ a st', P a st' → Returns exec Q (f a) st') : Returns exec Q (p >>= f) st := by
  constructor
  · exact h.1.bind h.2 fun a st' hP => (hf a st' hP).1
  · exact h.2.bind fun a st' hP => (hf a st' hP).2

theorem Returns.exists (h : Returns exec Q p st) : ∃ a st', Q a st' := by
  obtain ⟨hhalts, hp⟩ := h
  induction p generalizing st with
  | ret a => exact ⟨a, st, hp⟩
  | fail err => exact hhalts.elim
  | abort => exact hhalts.elim
  | stmt s k ih =>
    obtain ⟨⟨a, r, st', hexec⟩, hk⟩ := hhalts
    exact ih r (hk a r st' hexec) (hp a r st' hexec)

/-- A dialogue that can only return `v` returns `w` when the two are the same. -/
theorem Returns.eq_iff {v w : α} (h : Returns exec (fun a _ => a = v) p st) :
    Returns exec (fun a _ => a = w) p st ↔ v = w := by
  constructor
  · intro hw
    obtain ⟨a, -, hv, hw⟩ := Returns.exists ⟨h.1, h.2.and hw.2⟩
    exact hv.symm.trans hw
  · rintro rfl
    exact h

/-! ## Running -/

variable (exec) in
/-- Run with the given answers, from the `n`-th one on; `none` when a statement has no
result or the dialogue aborts. -/
def run (answers : ℕ → A) : ℕ → Dialogue Res ε α → σ → Option (Except ε (α × σ))
  | _, ret a, st => some (.ok (a, st))
  | _, fail err, _ => some (.error err)
  | _, abort, _ => none
  | n, stmt s k, st =>
    match exec (answers n) s st with
    | none => none
    | some (r, st') => (k r).run answers (n + 1) st'

theorem Wp.of_run {answers : ℕ → A} {n : ℕ} {a : α} {st' : σ} (h : Wp exec Q p st)
    (hrun : p.run exec answers n st = some (.ok (a, st'))) : Q a st' := by
  induction p generalizing n st with
  | ret b =>
    obtain ⟨rfl, rfl⟩ := hrun
    exact h
  | fail err => simp [run] at hrun
  | abort => simp [run] at hrun
  | stmt s k ih =>
    rw [run] at hrun
    split at hrun
    · cases hrun
    · rename_i r mid hexec
      exact ih r (h _ r mid hexec) hrun

end Execution

/-! ## The statements of a dialogue -/

/-- Every statement that can be issued satisfies `ok`. -/
def Uses (ok : S → Prop) : Dialogue Res ε α → Prop
  | ret _ => True
  | fail _ => True
  | abort => True
  | stmt s k => ok s ∧ ∀ r, (k r).Uses ok

section Uses

variable {ok : S → Prop}

theorem uses_ask (h : ok s) : Uses ok (ask s : Dialogue Res ε (Res s)) :=
  ⟨h, fun _ => trivial⟩

theorem Uses.bind (h : Uses ok p) (hf : ∀ a, Uses ok (f a)) : Uses ok (p >>= f) := by
  induction p with
  | ret a => exact hf a
  | fail err => trivial
  | abort => trivial
  | stmt s k ih => exact ⟨h.1, fun r => ih r (h.2 r)⟩

/-- The first part may find nothing. -/
theorem Uses.find {p : Dialogue Res ε (Option α)} {f : Option α → Dialogue Res ε β}
    (h : Uses ok p) (hnone : Uses ok (f none)) (hsome : ∀ a, Uses ok (f (some a))) :
    Uses ok (p >>= f) := by
  apply h.bind
  intro a
  cases a with
  | none => exact hnone
  | some a => exact hsome a

theorem Uses.mono {ok' : S → Prop} (h : Uses ok p) (hok : ∀ s, ok s → ok' s) : Uses ok' p := by
  induction p with
  | ret a => trivial
  | fail err => trivial
  | abort => trivial
  | stmt s k ih => exact ⟨hok s h.1, fun r => ih r (h.2 r)⟩

theorem uses_orAbort (o : Option α) : Uses ok (orAbort o : Dialogue Res ε α) := by
  cases o <;> trivial

theorem uses_ofExcept (x : Except ε α) : Uses ok (ofExcept x : Dialogue Res ε α) := by
  cases x <;> trivial

/-- A relation that every statement respects relates the ends of a dialogue. -/
theorem Uses.wp {σ A : Type} {exec : A → (s : S) → σ → Option (Res s × σ)} {R : σ → σ → Prop}
    (h : Uses ok p) (hrefl : ∀ st, R st st)
    (htrans : ∀ st₁ st₂ st₃, R st₁ st₂ → R st₂ st₃ → R st₁ st₃)
    (hstep : ∀ s, ok s → ∀ a st r st', exec a s st = some (r, st') → R st st') (st : σ) :
    Wp exec (fun _ st' => R st st') p st := by
  induction p generalizing st with
  | ret a => exact hrefl st
  | fail err => trivial
  | abort => trivial
  | stmt s k ih =>
    intro a r mid hexec
    apply (ih r (h.2 r) mid).mono
    intro b st' hmid
    exact htrans st mid st' (hstep s h.1 a st r mid hexec) hmid

end Uses

end Dialogue
end DagWorker
