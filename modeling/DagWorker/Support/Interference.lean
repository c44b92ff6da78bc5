import DagWorker.Support.Dialogue

/-!
# Dialogues amid others

A party runs a dialogue while others change the state they share; what it did itself is in
a state of its own until it is done.  A `Setting` says how its statements are carried out
and what others may do meanwhile, and `Ensures` is the weakest precondition in that
setting.  An assertion is of use between two statements only if others cannot break it.
-/

namespace DagWorker

/-- How one party's statements are carried out.  A statement sees the shared state as it
was when it was issued and as it is now, and changes the party's own state. -/
structure Setting {S : Type} (Res : S → Type) (A σ τ : Type) where
  exec : A → (s : S) → σ → σ → τ → Option (Res s × τ)
  /-- What others may do to the shared state, given one's own. -/
  rely : τ → σ → σ → Prop
  rely_refl : ∀ t st, rely t st st
  rely_trans : ∀ {t st₁ st₂ st₃}, rely t st₁ st₂ → rely t st₂ st₃ → rely t st₁ st₃

namespace Setting

open Dialogue

variable {S : Type} {Res : S → Type} {A σ τ ε α β : Type} (x : Setting Res A σ τ)
variable {p : Dialogue Res ε α} {P : σ → τ → Prop}

/-- Whatever others do and the answers are, a successful end satisfies `Q` and goes on
doing so. -/
def Ensures (Q : α → σ → τ → Prop) : Dialogue Res ε α → σ → τ → Prop
  | .ret a, st, t => ∀ st', x.rely t st st' → Q a st' t
  | .fail _, _, _ => True
  | .abort, _, _ => True
  | .stmt s k, st, t => ∀ st₀ st', x.rely t st st₀ → x.rely t st₀ st' →
      ∀ a r t', x.exec a s st₀ st' t = some (r, t') → Ensures Q (k r) st' t'

/-- Others cannot break the assertion. -/
def Stable (P : σ → τ → Prop) : Prop := ∀ st st' t, x.rely t st st' → P st t → P st' t

variable {x} {Q : α → σ → τ → Prop} {st st' : σ} {t : τ}

theorem Ensures.stable (h : x.Ensures Q p st t) (hrely : x.rely t st st') :
    x.Ensures Q p st' t := by
  cases p with
  | ret a => exact fun st₁ h₁ => h st₁ (x.rely_trans hrely h₁)
  | fail err => trivial
  | abort => trivial
  | stmt s k => exact fun st₀ st₁ h₀ h₁ => h st₀ st₁ (x.rely_trans hrely h₀) h₁

theorem Ensures.mono {Q' : α → σ → τ → Prop} (h : x.Ensures Q p st t)
    (hQ : ∀ a st t, Q a st t → Q' a st t) : x.Ensures Q' p st t := by
  induction p generalizing st t with
  | ret a => exact fun st' hrely => hQ a st' t (h st' hrely)
  | fail err => trivial
  | abort => trivial
  | stmt s k ih => exact fun st₀ st' h₀ h' a r t' hexec => ih r (h st₀ st' h₀ h' a r t' hexec)

theorem Ensures.bind {P : α → σ → τ → Prop} {Q : β → σ → τ → Prop} {f : α → Dialogue Res ε β}
    (h : x.Ensures P p st t) (hf : ∀ a st t, P a st t → x.Ensures Q (f a) st t) :
    x.Ensures Q (p >>= f) st t := by
  induction p generalizing st t with
  | ret a => exact hf a st t (h st (x.rely_refl t st))
  | fail err => trivial
  | abort => trivial
  | stmt s k ih => exact fun st₀ st' h₀ h' a r t' hexec => ih r (h st₀ st' h₀ h' a r t' hexec)

theorem Ensures.map {Q : β → σ → τ → Prop} {f : α → β}
    (h : x.Ensures (fun a st t => Q (f a) st t) p st t) : x.Ensures Q (f <$> p) st t := by
  induction p generalizing st t with
  | ret a => exact h
  | fail err => trivial
  | abort => trivial
  | stmt s k ih => exact fun st₀ st' h₀ h' a r t' hexec => ih r (h st₀ st' h₀ h' a r t' hexec)

theorem ensures_ret {a : α} (hstable : x.Stable (Q a)) (h : Q a st t) :
    x.Ensures Q (.ret a : Dialogue Res ε α) st t :=
  fun st' hrely => hstable st st' t hrely h

/-- One statement, between two stable assertions. -/
theorem ensures_ask {s : S} {Q : Res s → σ → τ → Prop} (hP : x.Stable P) (hQ : ∀ r, x.Stable (Q r))
    (h : P st t) (hexec : ∀ a st₀ st' r t', x.rely t st₀ st' → P st₀ t → P st' t →
      x.exec a s st₀ st' t = some (r, t') → Q r st' t') :
    x.Ensures Q (ask s : Dialogue Res ε (Res s)) st t := by
  intro st₀ st' h₀ h' a r t' hstep st₁ h₁
  have hP₀ := hP _ _ _ h₀ h
  exact hQ r _ _ _ h₁ (hexec a st₀ st' r t' h' hP₀ (hP _ _ _ h' hP₀) hstep)

/-- Started with `P`, the dialogue ensures `Q`. -/
def Triple (x : Setting Res A σ τ) (P : σ → τ → Prop) (p : Dialogue Res ε α)
    (Q : α → σ → τ → Prop) : Prop :=
  ∀ st t, P st t → x.Ensures Q p st t

theorem Triple.bind {R : α → σ → τ → Prop} {Q : β → σ → τ → Prop} {f : α → Dialogue Res ε β}
    (h : x.Triple P p R) (hf : ∀ a, x.Triple (R a) (f a) Q) : x.Triple P (p >>= f) Q :=
  fun st t hP => (h st t hP).bind hf

theorem Triple.pre {P' : σ → τ → Prop} (h : x.Triple P p Q) (hP : ∀ {st t}, P' st t → P st t) :
    x.Triple P' p Q :=
  fun st t hP' => h st t (hP hP')

theorem Triple.post {Q' : α → σ → τ → Prop} (h : x.Triple P p Q)
    (hQ : ∀ {a st t}, Q a st t → Q' a st t) : x.Triple P p Q' :=
  fun st t hP => (h st t hP).mono fun _ _ _ => hQ

theorem triple_ret {a : α} (hstable : x.Stable (Q a))
    (h : ∀ {st t}, P st t → Q a st t) : x.Triple P (.ret a : Dialogue Res ε α) Q :=
  fun _ _ hP => ensures_ret hstable (h hP)

/-- An assertion that neither others nor any statement can break. -/
theorem ensures_of_kept (hP : x.Stable P)
    (hexec : ∀ s a st₀ st r t t', P st t → x.exec a s st₀ st t = some (r, t') → P st t')
    (p : Dialogue Res ε α) (h : P st t) : x.Ensures (fun _ => P) p st t := by
  induction p generalizing st t with
  | ret a => exact ensures_ret hP h
  | fail err => trivial
  | abort => trivial
  | stmt s k ih =>
    intro st₀ st' h₀ h' a r t' hstep
    exact ih r (hexec s a st₀ st' r t t' (hP _ _ _ h' (hP _ _ _ h₀ h)) hstep)

end Setting
end DagWorker
