import DagWorker.Support.Trace
import Mathlib.Logic.Function.Basic
import Mathlib.Order.Nat

/-!
# Fencing tokens

A system grants numbered leases on keys.  Each key has a level that never falls, a new
lease is numbered above it, and a lease is held at the level of its key.  Then the
numbers granted for a key increase over a whole run, and no lease is held once its key
was deleted or granted again.  Nothing here depends on the system.
-/

namespace DagWorker.Fence

open Function

variable {κ : Type}

/-- The grants so far, against the levels of the keys. -/
structure History (gs : List (κ × ℕ)) (level : κ → ℕ) : Prop where
  increasing : gs.Pairwise fun a b => a.1 = b.1 → a.2 < b.2
  below : ∀ g ∈ gs, g.2 ≤ level g.1

theorem History.nil (level : κ → ℕ) : History [] level := ⟨List.Pairwise.nil, by simp⟩

theorem History.raise {gs : List (κ × ℕ)} {level level' : κ → ℕ} (h : History gs level)
    (hle : ∀ k, level k ≤ level' k) : History gs level' :=
  ⟨h.increasing, fun g hg => (h.below g hg).trans (hle g.1)⟩

/-- Levels rise, and each grant is numbered above the level it finds. -/
inductive Advances [DecidableEq κ] (level : κ → ℕ) : List (κ × ℕ) → (κ → ℕ) → Prop
  | raise {level' : κ → ℕ} : (∀ k, level k ≤ level' k) → Advances level [] level'
  | grant {gs : List (κ × ℕ)} {mid level' : κ → ℕ} {k : κ} {e : ℕ} :
      Advances level gs mid → mid k < e → (∀ j, update mid k e j ≤ level' j) →
      Advances level (gs ++ [(k, e)]) level'

theorem History.advance [DecidableEq κ] {hs gs : List (κ × ℕ)} {level level' : κ → ℕ}
    (h : History hs level) (hadv : Advances level gs level') : History (hs ++ gs) level' := by
  induction hadv with
  | raise hle =>
    rw [List.append_nil]
    exact h.raise hle
  | @grant gs mid level' k e _ hlt hle ih =>
    rw [← List.append_assoc]
    refine ⟨?_, fun g hg => ?_⟩
    · refine List.pairwise_append.mpr ⟨ih.increasing, List.pairwise_singleton _ _, ?_⟩
      intro a ha b hb hab
      rw [List.mem_singleton.mp hb] at hab ⊢
      have hbelow := ih.below a ha
      rw [hab] at hbelow
      exact hbelow.trans_lt hlt
    · rcases List.mem_append.mp hg with hg | hg
      · refine (ih.below g hg).trans (le_trans ?_ (hle g.1))
        by_cases hgk : g.1 = k
        · rw [hgk, update_self]
          exact hlt.le
        · rw [update_of_ne hgk]
      · rw [List.mem_singleton.mp hg]
        simpa using hle k

/-! ## Along a run -/

section Run

variable {σ ι ο : Type} (grants : Trace.Step σ ι ο → List (κ × ℕ)) (has : σ → κ → Bool)
variable {steps : List (Trace.Step σ ι ο)} {r : Trace.Step σ ι ο}

def grantsOf (steps : List (Trace.Step σ ι ο)) : List (κ × ℕ) := steps.flatMap grants

def epochsOf [DecidableEq κ] (k : κ) (steps : List (Trace.Step σ ι ο)) : List ℕ :=
  ((grantsOf grants steps).filter fun g => g.1 = k).map Prod.snd

/-- The lease was granted, and then its key was deleted or granted again. -/
def Superseded (k : κ) (e : ℕ) (steps : List (Trace.Step σ ι ο)) : Prop :=
  ∃ pre post, steps = pre ++ post ∧ (k, e) ∈ grantsOf grants pre ∧
    ((∃ q ∈ post, has q.after k = false) ∨ ∃ e', (k, e') ∈ grantsOf grants post)

variable {grants has}

@[simp] theorem grantsOf_snoc (steps : List (Trace.Step σ ι ο)) (r : Trace.Step σ ι ο) :
    grantsOf grants (steps ++ [r]) = grantsOf grants steps ++ grants r := by
  simp [grantsOf]

theorem History.epochsOf_increasing [DecidableEq κ] {level : κ → ℕ}
    (h : History (grantsOf grants steps) level) (k : κ) :
    (epochsOf grants k steps).Pairwise (· < ·) := by
  rw [epochsOf, List.pairwise_map]
  apply (h.increasing.filter _).imp_of_mem
  intro a b ha hb hab
  have ha := (List.mem_filter.mp ha).2
  have hb := (List.mem_filter.mp hb).2
  simp only [decide_eq_true_eq] at ha hb
  exact hab (ha.trans hb.symm)

theorem superseded_snoc {k : κ} {e : ℕ} (h : Superseded grants has k e (steps ++ [r])) :
    (k, e) ∈ grantsOf grants steps ∧ (Superseded grants has k e steps ∨
      has r.after k = false ∨ ∃ e', (k, e') ∈ grants r) := by
  obtain ⟨pre, post, hsplit, hmem, hafter⟩ := h
  rcases List.eq_nil_or_concat' post with rfl | ⟨post, q, rfl⟩
  · simp [grantsOf] at hafter
  rw [← List.append_assoc] at hsplit
  obtain ⟨rfl, hq⟩ := List.append_inj' hsplit rfl
  obtain rfl : r = q := by simpa using hq
  refine ⟨by simp only [grantsOf, List.flatMap_append, List.mem_append]; exact .inl hmem, ?_⟩
  rcases hafter with ⟨q, hq, hgone⟩ | ⟨e', he'⟩
  · rcases List.mem_append.mp hq with hq | hq
    · exact .inl ⟨pre, post, rfl, hmem, .inl ⟨q, hq, hgone⟩⟩
    · rw [List.mem_singleton.mp hq] at hgone
      exact .inr (.inl hgone)
  · rw [grantsOf_snoc, List.mem_append] at he'
    rcases he' with he' | he'
    · exact .inl ⟨pre, post, rfl, hmem, .inr ⟨e', he'⟩⟩
    · exact .inr (.inr ⟨e', he'⟩)

variable (grants has) in
/-- The grants of a run against its last state: they increase, and no lease that is held
was superseded. -/
structure Fenced (level : σ → κ → ℕ) (Held : σ → κ → ℕ → Prop)
    (steps : List (Trace.Step σ ι ο)) (s : σ) : Prop where
  history : History (grantsOf grants steps) (level s)
  current : ∀ k e, Held s k e → ¬Superseded grants has k e steps

variable {level : σ → κ → ℕ} {Held : σ → κ → ℕ → Prop}

theorem Fenced.snoc [DecidableEq κ] (h : Fenced grants has level Held steps r.before)
    (hadv : Advances (level r.before) (grants r) (level r.after))
    (hheld : ∀ k e, Held r.after k e → (k, e) ∈ grants r ∨ Held r.before k e)
    (hhas : ∀ k e, Held r.after k e → has r.after k = true)
    (hlevel : ∀ k e, Held r.after k e → level r.after k ≤ e) :
    Fenced grants has level Held (steps ++ [r]) r.after := by
  have hhistory : History (grantsOf grants steps ++ grants r) (level r.after) :=
    h.history.advance hadv
  refine ⟨by rwa [grantsOf_snoc], fun k e hke hsup => ?_⟩
  obtain ⟨hmem, hcases⟩ := superseded_snoc hsup
  have hlater : ∀ e', (k, e') ∈ grants r → e < e' := fun e' he' =>
    (List.pairwise_append.mp hhistory.increasing).2.2 (k, e) hmem (k, e') he' rfl
  rcases hcases with hold | hgone | ⟨e', he'⟩
  · rcases hheld k e hke with hgrant | hbefore
    · exact lt_irrefl e (hlater e hgrant)
    · exact h.current k e hbefore hold
  · simp [hhas k e hke] at hgone
  · have hle := hhistory.below (k, e') (List.mem_append_right _ he')
    exact absurd (hlater e' he') (not_lt.mpr (hle.trans (hlevel k e hke)))

theorem Fenced.increasing [DecidableEq κ] {s : σ} (h : Fenced grants has level Held steps s)
    (k : κ) : (epochsOf grants k steps).Pairwise (· < ·) :=
  h.history.epochsOf_increasing k

end Run

end DagWorker.Fence
