import DagWorker.Support.Prog

/-!
# Reading one branch of a program, and replaying it

A branch of a program is described by the readings it takes.  `Reads` names them,
and `Matches` relates two programs that ask the same questions as long as they are
given the same answers: whatever the first returns on some readings, the second
returns something related on the same readings, in whatever order maps are ranged
over on either side.
-/

namespace DagWorker.Prog

variable {α β γ δ : Type}
variable {p : Prog α} {a : α} {f : α → Prog β} {P : α → Prop}

/-! ## The readings of a branch -/

/-- Along one branch, `p` takes the clock readings `c` and the jitter values `j`, in
this order, and returns `a`. -/
inductive Reads : Prog α → List Int → List Int → α → Prop
  | ret (a : α) : Reads (ret a) [] [] a
  | now {k : Int → Prog α} {c j : List Int} {a : α} (t : Int) :
      Reads (k t) c j a → Reads (now k) (t :: c) j a
  | jitter {b : Int} {k : Int → Prog α} {c j : List Int} {a : α} (v : Int) :
      Reads (k v) c j a → Reads (jitter b k) c (v :: j) a
  | range {keys : List String} {k : List String → Prog α} {c j : List Int} {a : α}
      (l : List String) : l.Perm keys → Reads (k l) c j a → Reads (range keys k) c j a

theorem Reads.yields {c j : List Int} (h : Reads p c j a) : Yields p a := by
  induction h with
  | ret a => exact Yields.ret a
  | now t _ ih => exact Yields.now t ih
  | jitter v _ ih => exact Yields.jitter v ih
  | range l hl _ ih => exact Yields.range l hl ih

/-- The readings of a sequential composition. -/
theorem Reads.bind {c j c' j' : List Int} {b : β} (hp : Reads p c j a) (hf : Reads (f a) c' j' b) :
    Reads (p >>= f) (c ++ c') (j ++ j') b := by
  induction hp with
  | ret a => exact hf
  | now t _ ih => exact Reads.now t (ih hf)
  | jitter v _ ih => exact Reads.jitter v (ih hf)
  | range l hl _ ih => exact Reads.range l hl (ih hf)

/-- The result on exactly these readings, with maps ranged over in the order their keys
are listed in. -/
def takes : Prog α → List Int → List Int → Option α
  | ret a, [], [] => some a
  | ret _, _, _ => none
  | now k, t :: c, j => (k t).takes c j
  | now _, [], _ => none
  | jitter _ k, c, v :: j => (k v).takes c j
  | jitter _ _, _, [] => none
  | range keys k, c, j => (k keys).takes c j

theorem reads_of_takes {c j : List Int} (h : p.takes c j = some a) : Reads p c j a := by
  induction p generalizing c j with
  | ret b =>
    cases c with
    | cons => simp [takes] at h
    | nil =>
      cases j with
      | cons => simp [takes] at h
      | nil =>
        simp only [takes, Option.some.injEq] at h
        rw [h]
        exact Reads.ret a
  | now k ih =>
    cases c with
    | nil => simp [takes] at h
    | cons t c => exact Reads.now t (ih t h)
  | jitter b k ih =>
    cases j with
    | nil => simp [takes] at h
    | cons v j =>
      exact Reads.jitter v (ih v h)
  | range keys k ih =>
    exact Reads.range keys (List.Perm.refl keys) (ih keys h)

/-! ## Programs that match -/

/-- The programs `p` and `q` ask the same questions as long as they get the same
answers and the jitter satisfies `J`, and end with results related by `R`. -/
inductive Matches (J : Int → Prop) (R : α → β → Prop) : Prog α → Prog β → Prop
  | ret {a : α} {b : β} : R a b → Matches J R (ret a) (ret b)
  | now {k : Int → Prog α} {k' : Int → Prog β} :
      (∀ t, Matches J R (k t) (k' t)) → Matches J R (now k) (now k')
  | jitter {b : Int} {k : Int → Prog α} {k' : Int → Prog β} :
      (∀ v, J v → Matches J R (k v) (k' v)) → Matches J R (jitter b k) (jitter b k')
  | range {keys keys' : List String} {k : List String → Prog α} {k' : List String → Prog β} :
      (∀ l l', l.Perm keys → l'.Perm keys' → Matches J R (k l) (k' l')) →
        Matches J R (range keys k) (range keys' k')

section Rules

variable {J : Int → Prop} {R : α → β → Prop} {S : γ → δ → Prop} {p : Prog α} {q : Prog β}

/-- The rule of sequential composition. -/
theorem Matches.bind {f : α → Prog γ} {g : β → Prog δ} (h : Matches J R p q)
    (hfg : ∀ a b, R a b → Matches J S (f a) (g b)) : Matches J S (p >>= f) (q >>= g) := by
  induction h with
  | ret hab => exact hfg _ _ hab
  | now _ ih => exact Matches.now ih
  | jitter _ ih => exact Matches.jitter ih
  | range _ ih => exact Matches.range ih

/-- Postconditions of the two sides hold of matching results. -/
theorem Matches.and_all {Q : β → Prop} (h : Matches J R p q) (hp : p.All P) (hq : q.All Q) :
    Matches J (fun a b => R a b ∧ P a ∧ Q b) p q := by
  induction h with
  | ret hab => exact Matches.ret ⟨hab, hp, hq⟩
  | now _ ih => exact Matches.now fun t => ih t (hp t) (hq t)
  | jitter _ ih => exact Matches.jitter fun v hv => ih v hv (hp v) (hq v)
  | range _ ih => exact Matches.range fun l l' hl hl' => ih l l' hl hl' (hp l hl) (hq l' hl')

end Rules

/-! ## Determined programs -/

/-- The result depends on the readings only, not on the order of maps. -/
def Determined (p : Prog α) : Prop := Matches (fun _ => True) Eq p p

/-- No map is ranged over. -/
def Rangeless : Prog α → Prop
  | ret _ => True
  | now k => ∀ t, (k t).Rangeless
  | jitter _ k => ∀ v, (k v).Rangeless
  | range _ _ => False

theorem Rangeless.bind (hp : p.Rangeless) (hf : ∀ a, (f a).Rangeless) : (p >>= f).Rangeless := by
  induction p with
  | ret a => exact hf a
  | now k ih => exact fun t => ih t (hp t)
  | jitter b k ih => exact fun v => ih v (hp v)
  | range keys k => exact hp.elim

theorem Rangeless.getNow_bind {f : Int → Prog β} (hf : ∀ t, (f t).Rangeless) :
    (getNow >>= f).Rangeless := hf

theorem Rangeless.determined (hp : p.Rangeless) : p.Determined := by
  induction p with
  | ret a => exact Matches.ret rfl
  | now k ih => exact Matches.now fun t => ih t (hp t)
  | jitter b k ih => exact Matches.jitter fun v _ => ih v (hp v)
  | range keys k => exact hp.elim

theorem Determined.bind (hp : p.Determined) (hall : p.All P) (hf : ∀ a, P a → (f a).Determined) :
    (p >>= f).Determined := by
  refine Matches.bind (Matches.and_all hp hall hall) ?_
  rintro a b ⟨rfl, ha, -⟩
  exact hf a ha

theorem Determined.getNow_bind {f : Int → Prog β} (hf : ∀ t, (f t).Determined) :
    (getNow >>= f).Determined := Matches.now hf

/-- The map is ranged over in an order that does not matter. -/
theorem Determined.getRange_bind {keys : List String} {f : List String → Prog β}
    (hf : ∀ l, l.Perm keys → f l = f keys) (h : (f keys).Determined) :
    (getRange keys >>= f).Determined := by
  refine Matches.range fun l l' hl hl' => ?_
  show Matches _ Eq (f l) (f l')
  rw [hf l hl, hf l' hl']
  exact h

end DagWorker.Prog
