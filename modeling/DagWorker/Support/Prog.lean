import Mathlib.Data.List.Perm.Basic

/-!
# Programs that read a clock, draw jitter and range over maps

A program that consults its clock, a source of jitter, or the order in which a map is
iterated, is a finite tree: a node asks for one reading and has one subtree for every
possible answer.  `All` is a postcondition that holds whatever the answers are; `Yields`
picks one branch.  Nothing here depends on the store.
-/

namespace DagWorker

/-- A computation returning `α` that may ask for clock readings, for jitter
below a bound, and for an iteration order of the keys of a map. -/
inductive Prog (α : Type) : Type
  | ret (a : α) : Prog α
  | now (k : Int → Prog α) : Prog α
  | jitter (bound : Int) (k : Int → Prog α) : Prog α
  | range (keys : List String) (k : List String → Prog α) : Prog α

namespace Prog

variable {α β γ : Type}
variable {a : α} {p : Prog α} {P : α → Prop}

/-- Sequential composition: graft `f` at every leaf. -/
def bind : Prog α → (α → Prog β) → Prog β
  | ret a, f => f a
  | now k, f => now fun t => (k t).bind f
  | jitter b k, f => jitter b fun v => (k v).bind f
  | range keys k, f => range keys fun l => (k l).bind f

instance : Monad Prog where
  pure := ret
  bind := bind

@[simp] theorem pure_eq_ret (a : α) : (pure a : Prog α) = ret a := rfl

@[simp] theorem now_bind (k : Int → Prog α) (f : α → Prog β) :
    now k >>= f = now fun t => k t >>= f := rfl

@[simp] theorem jitter_bind (b : Int) (k : Int → Prog α) (f : α → Prog β) :
    jitter b k >>= f = jitter b fun v => k v >>= f := rfl

@[simp] theorem range_bind
    (keys : List String) (k : List String → Prog α) (f : α → Prog β) :
    range keys k >>= f = range keys fun l => k l >>= f := rfl

theorem bind_assoc (p : Prog α) (f : α → Prog β) (g : β → Prog γ) :
    p >>= f >>= g = p >>= fun a => f a >>= g := by
  induction p with
  | ret a => rfl
  | now k ih => simp only [now_bind, ih]
  | jitter b k ih => simp only [jitter_bind, ih]
  | range keys k ih => simp only [range_bind, ih]

def getNow : Prog Int := now ret

def getJitter (bound : Int) : Prog Int := jitter bound ret

/-- Fix an iteration order for a map with the given keys. -/
def getRange (keys : List String) : Prog (List String) := range keys ret

/-! ## Postconditions -/

/-- `P` holds at every leaf, whatever the clock and the jitter answer and in
whatever order the keys of a map are listed. -/
def All (P : α → Prop) : Prog α → Prop
  | ret a => P a
  | now k => ∀ t, (k t).All P
  | jitter _ k => ∀ v, (k v).All P
  | range keys k => ∀ l, l.Perm keys → (k l).All P

@[simp] theorem all_ret : (ret a).All P ↔ P a := Iff.rfl

@[simp] theorem all_bind {P : β → Prop} {f : α → Prog β} :
    (p >>= f).All P ↔ p.All fun a => (f a).All P := by
  induction p with
  | ret a => rfl
  | now k ih => simp only [now_bind, All, ih]
  | jitter b k ih => simp only [jitter_bind, All, ih]
  | range keys k ih => simp only [range_bind, All, ih]

@[simp] theorem all_getNow {P : Int → Prop} : getNow.All P ↔ ∀ t, P t := Iff.rfl

@[simp] theorem all_getRange {P : List String → Prop} {keys : List String} :
    (getRange keys).All P ↔ ∀ l, l.Perm keys → P l := Iff.rfl

theorem All.mono {Q : α → Prop} (h : p.All P) (hPQ : ∀ a, P a → Q a) : p.All Q := by
  induction p with
  | ret a => exact hPQ a h
  | now k ih => exact fun t => ih t (h t)
  | jitter b k ih => exact fun v => ih v (h v)
  | range keys k ih => exact fun l hl => ih l (h l hl)

theorem All.bind {Q : β → Prop} {f : α → Prog β} (h : p.All P) (hf : ∀ a, P a → (f a).All Q) :
    (p >>= f).All Q :=
  all_bind.mpr (h.mono hf)

theorem All.and {Q : α → Prop} (hP : p.All P) (hQ : p.All Q) : p.All fun a => P a ∧ Q a := by
  induction p with
  | ret a => exact ⟨hP, hQ⟩
  | now k ih => exact fun t => ih t (hP t) (hQ t)
  | jitter b k ih => exact fun v => ih v (hP v) (hQ v)
  | range keys k ih => exact fun l hl => ih l (hP l hl) (hQ l hl)

theorem all_of_forall (h : ∀ a, P a) (p : Prog α) : p.All P := by
  induction p with
  | ret a => exact h a
  | now k ih => exact fun t => ih t
  | jitter b k ih => exact fun v => ih v
  | range keys k ih => exact fun l _ => ih l

/-! ## Outcomes -/

/-- `a` is the result along one branch of the tree. -/
inductive Yields : Prog α → α → Prop
  | ret (a : α) : Yields (ret a) a
  | now {k : Int → Prog α} {a : α} (t : Int) :
      Yields (k t) a → Yields (now k) a
  | jitter {b : Int} {k : Int → Prog α} {a : α} (v : Int) :
      Yields (k v) a → Yields (jitter b k) a
  | range {keys : List String} {k : List String → Prog α} {a : α}
      (l : List String) : l.Perm keys → Yields (k l) a → Yields (range keys k) a

theorem All.of_yields (h : p.All P) (ha : Yields p a) : P a := by
  induction ha with
  | ret a => exact h
  | now t _ ih => exact ih (h t)
  | jitter v _ ih => exact ih (h v)
  | range l hl _ ih => exact ih (h l hl)

theorem exists_yields (p : Prog α) : ∃ a, Yields p a := by
  induction p with
  | ret a => exact ⟨a, Yields.ret a⟩
  | now k ih =>
    obtain ⟨a, ha⟩ := ih 0
    exact ⟨a, Yields.now 0 ha⟩
  | jitter b k ih =>
    obtain ⟨a, ha⟩ := ih 0
    exact ⟨a, Yields.jitter 0 ha⟩
  | range keys k ih =>
    obtain ⟨a, ha⟩ := ih keys
    exact ⟨a, Yields.range keys (List.Perm.refl keys) ha⟩

theorem all_iff_yields : p.All P ↔ ∀ a, Yields p a → P a := by
  refine ⟨fun h a ha => h.of_yields ha, ?_⟩
  intro h
  induction p with
  | ret a => exact h a (Yields.ret a)
  | now k ih => exact fun t => ih t fun a ha => h a (Yields.now t ha)
  | jitter b k ih => exact fun v => ih v fun a ha => h a (Yields.jitter v ha)
  | range keys k ih =>
    exact fun l hl => ih l fun a ha => h a (Yields.range l hl ha)

/-! ## Running on given readings -/

/-- Run on a list of clock readings and a list of jitter values, taking every
map in the order its keys are stored; `none` when a list runs out. -/
def run : Prog α → List Int → List Int → Option α
  | ret a, _, _ => some a
  | now _, [], _ => none
  | now k, t :: ts, js => (k t).run ts js
  | jitter _ _, _, [] => none
  | jitter _ k, ts, v :: js => (k v).run ts js
  | range keys k, ts, js => (k keys).run ts js

theorem yields_of_run {ts js : List Int} (h : p.run ts js = some a) : Yields p a := by
  induction p generalizing ts js with
  | ret b =>
    simp only [run, Option.some.injEq] at h
    subst h
    exact Yields.ret b
  | now k ih =>
    cases ts with
    | nil => simp [run] at h
    | cons t ts => exact Yields.now t (ih t h)
  | jitter b k ih =>
    cases js with
    | nil => simp [run] at h
    | cons v js => exact Yields.jitter v (ih v h)
  | range keys k ih => exact Yields.range keys (List.Perm.refl keys) (ih keys h)

end Prog
end DagWorker
