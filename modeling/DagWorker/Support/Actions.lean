import Mathlib.Data.List.Basic
import Mathlib.Logic.Relation

/-!
# Systems of actions

A system is given by what each action does to a state, where it is possible.  Several
parties are one system whose actions say which of them goes on; a condition on a run is
a condition on the state each action is taken in.
-/

namespace DagWorker.Actions

variable {S A : Type}
variable {as : List A}

/-- A step by some action that the condition allows. -/
def Takes (act : S → A → Option S) (ok : S → A → Bool) (s s' : S) : Prop :=
  ∃ a, act s a = some s' ∧ ok s a = true

def drive (act : S → A → Option S) : List A → S → Option S
  | [], s => some s
  | a :: as, s => (act s a).bind (drive act as)

/-- The condition allows each of the actions when it is taken. -/
def heeds (act : S → A → Option S) (ok : S → A → Bool) : List A → S → Bool
  | [], _ => true
  | a :: as, s => ok s a && (act s a).any (heeds act ok as)

variable {act : S → A → Option S} {ok : S → A → Bool} {s s' : S}

theorem steps_of_drive (hok : heeds act ok as s = true) (h : drive act as s = some s') :
    Relation.ReflTransGen (Takes act ok) s s' := by
  induction as generalizing s with
  | nil =>
    cases h
    exact .refl
  | cons a as ih =>
    obtain ⟨s₁, hs₁, hrest⟩ := Option.bind_eq_some_iff.mp h
    simp only [heeds, hs₁, Option.any_some, Bool.and_eq_true] at hok
    exact .head ⟨a, hs₁, hok.1⟩ (ih hok.2 hrest)

/-- Without a condition every run will do. -/
theorem steps_of_drive_free (h : drive act as s = some s') :
    Relation.ReflTransGen (Takes act fun _ _ => true) s s' := by
  induction as generalizing s with
  | nil =>
    cases h
    exact .refl
  | cons a as ih =>
    obtain ⟨s₁, hs₁, hrest⟩ := Option.bind_eq_some_iff.mp h
    exact .head ⟨a, hs₁, rfl⟩ (ih hrest)

/-- What every allowed action keeps holds along every run. -/
theorem preserves {I : S → Prop}
    (hact : ∀ s s' a, I s → act s a = some s' → ok s a = true → I s') (hs : I s)
    (hrun : Relation.ReflTransGen (Takes act ok) s s') : I s' := by
  induction hrun with
  | refl => exact hs
  | tail _ hstep ih =>
    obtain ⟨a, ha, hok⟩ := hstep
    exact hact _ _ a ih ha hok

/-- A list of parties around one of them. -/
theorem exists_of_getElem? {α : Type} {l : List α} {i : ℕ} {a : α} (h : l[i]? = some a) :
    ∃ pre post, l = pre ++ a :: post ∧ (∀ b, l.set i b = pre ++ b :: post) ∧
      l.eraseIdx i = pre ++ post := by
  obtain ⟨hi, rfl⟩ := List.getElem?_eq_some_iff.mp h
  refine ⟨l.take i, l.drop (i + 1), ?_, fun b => ?_, ?_⟩
  · rw [List.getElem_cons_drop, List.take_append_drop]
  · rw [List.set_eq_take_append_cons_drop, if_pos hi]
  · rw [List.eraseIdx_eq_take_drop_succ]

end DagWorker.Actions
