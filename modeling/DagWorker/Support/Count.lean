import Mathlib.Algebra.BigOperators.Group.Finset.Basic
import Mathlib.Algebra.BigOperators.Ring.Finset

/-!
# Sums and counts over slots under a change of one slot

A table with `n` slots is summarised by a sum or a count over its slots.  When
one slot changes, the summary changes by that slot's old and new contribution.
-/

namespace DagWorker.Count

open Finset

variable {n h : ℕ}

/-- Changing one summand replaces its old contribution by the new one. -/
theorem sum_change {f g : ℕ → ℕ} (hlt : h < n) (hfg : ∀ k, k ≠ h → g k = f k) :
    ∑ k ∈ range n, g k + f h = ∑ k ∈ range n, f k + g h := by
  have hmem : h ∈ range n := mem_range.mpr hlt
  rw [← sum_erase_add _ g hmem, ← sum_erase_add _ f hmem]
  have hrest : ∑ k ∈ (range n).erase h, g k = ∑ k ∈ (range n).erase h, f k :=
    sum_congr rfl fun k hk => hfg k (ne_of_mem_erase hk)
  omega

/-- The number of slots below `n` that satisfy `p`. -/
def slots (n : ℕ) (p : ℕ → Bool) : ℕ := #{k ∈ range n | p k}

theorem slots_eq_sum (n : ℕ) (p : ℕ → Bool) : slots n p = ∑ k ∈ range n, (p k).toNat := by
  unfold slots
  rw [card_filter]
  refine sum_congr rfl fun k _ => ?_
  cases p k <;> rfl

theorem slots_change {p q : ℕ → Bool} (hlt : h < n) (hpq : ∀ k, k ≠ h → q k = p k) :
    slots n q + (p h).toNat = slots n p + (q h).toNat := by
  rw [slots_eq_sum, slots_eq_sum]
  exact sum_change (f := fun k => (p k).toNat) (g := fun k => (q k).toNat) hlt
    fun k hk => congrArg Bool.toNat (hpq k hk)

theorem slots_congr {p q : ℕ → Bool} (hpq : ∀ k, k < n → q k = p k) :
    slots n q = slots n p := by
  unfold slots
  congr 1
  exact filter_congr fun k hk => by rw [hpq k (mem_range.mp hk)]

theorem slots_succ (n : ℕ) (p : ℕ → Bool) : slots (n + 1) p = slots n p + (p n).toNat := by
  rw [slots_eq_sum, slots_eq_sum, sum_range_succ]

/-- Two tables with corresponding entries. -/
theorem slots_rename {m : ℕ} {p q : ℕ → Bool} {f : ℕ → ℕ}
    (hmaps : ∀ i < m, q i = true → f i < n ∧ p (f i) = true)
    (hinj : ∀ i < m, ∀ j < m, f i = f j → i = j)
    (hsurj : ∀ k < n, p k = true → ∃ i < m, q i = true ∧ f i = k) : slots m q = slots n p := by
  refine card_bij (fun i _ => f i) ?_ ?_ ?_
  · intro i hi
    obtain ⟨hlt, hq⟩ := mem_filter.mp hi
    obtain ⟨hfi, hp⟩ := hmaps i (mem_range.mp hlt) hq
    exact mem_filter.mpr ⟨mem_range.mpr hfi, hp⟩
  · intro i hi j hj heq
    exact hinj i (mem_range.mp (mem_filter.mp hi).1) j (mem_range.mp (mem_filter.mp hj).1) heq
  · intro k hk
    obtain ⟨hlt, hp⟩ := mem_filter.mp hk
    obtain ⟨i, hi, hq, heq⟩ := hsurj k (mem_range.mp hlt) hp
    exact ⟨i, mem_filter.mpr ⟨mem_range.mpr hi, hq⟩, heq⟩

/-- A sum over a list of slots is the sum over the set of them. -/
theorem sum_map_range (n : ℕ) (f : ℕ → ℕ) :
    ((List.range n).map f).sum = ∑ k ∈ range n, f k := by
  induction n with
  | zero => rfl
  | succ n ih => simp [List.range_succ, sum_range_succ, ih]

/-- Counting in a list without repetitions is counting in the set of its
elements. -/
theorem countP_of_nodup {α : Type} [DecidableEq α] {p : α → Prop} [DecidablePred p]
    {l : List α} (hl : l.Nodup) : l.countP (fun a => p a) = (l.toFinset.filter p).card := by
  have hset : l.toFinset.filter p = (l.filter fun a => p a).toFinset := by
    simp only [List.toFinset_filter, decide_eq_true_eq]
  rw [hset, List.toFinset_card_of_nodup (hl.filter _), List.countP_eq_length_filter]

end DagWorker.Count
