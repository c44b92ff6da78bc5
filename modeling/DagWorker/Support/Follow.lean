import Mathlib.Data.List.Basic
import Mathlib.Data.List.Infix
import Mathlib.Data.Nat.Basic
import Mathlib.Order.Basic
import Mathlib.Tactic.Common

/-!
# Following a growing log

The entries of a log are numbered from one.  A reader begins at a number and takes the
entries in order.  `Followed` says that it has taken exactly the entries from its start
up to its position; the log may grow meanwhile.
-/

namespace DagWorker

variable {α : Type}
variable {number : α → ℕ}

/-- What a reader that began at `start` has taken when its next entry is `next`.  It may
have begun ahead of the log. -/
structure Followed (entries : List α) (start next : ℕ) (got : List α) : Prop where
  pos : 1 ≤ start
  le : start ≤ next
  bound : next ≤ entries.length + 1 ∨ next = start
  eq : got = (entries.take (next - 1)).drop (start - 1)

namespace Followed

variable {entries got : List α} {start next : ℕ}

theorem begin (hpos : 1 ≤ start) : Followed entries start start [] := by
  refine ⟨hpos, le_rfl, .inr rfl, ?_⟩
  rw [List.drop_eq_nil_of_le]
  exact List.length_take_le _ _

section

variable (h : Followed entries start next got)
include h

theorem start_add_length : start + got.length = next := by
  have hpos := h.pos
  have hle := h.le
  have hbound := h.bound
  rw [h.eq, List.length_drop, List.length_take]
  omega

theorem append (more : List α) : Followed (entries ++ more) start next got := by
  rcases h.bound with hbound | rfl
  · refine ⟨h.pos, h.le, .inl ?_, ?_⟩
    · rw [List.length_append]
      omega
    · rw [List.take_append_of_le_length (by omega)]
      exact h.eq
  · have hnil : got = [] := by
      have hlen := h.start_add_length
      exact List.length_eq_zero_iff.mp (by omega)
    rw [hnil]
    exact begin h.pos

theorem catchUp (hbound : next ≤ entries.length + 1) :
    Followed entries start (entries.length + 1) (got ++ entries.drop (next - 1)) := by
  have hle := h.le
  refine ⟨h.pos, h.le.trans hbound, .inl le_rfl, ?_⟩
  rw [Nat.add_sub_cancel, List.take_length, h.eq]
  conv_rhs => rw [← List.take_append_drop (next - 1) entries]
  rw [List.drop_append_of_le_length]
  rw [List.length_take]
  omega

theorem got_prefix : got <+: entries.drop (start - 1) := by
  rw [h.eq]
  exact (List.take_prefix _ _).drop _

theorem eq_of_length_lt (hnext : entries.length < next) : got = entries.drop (start - 1) := by
  rw [h.eq, List.take_of_length_le (by omega)]

end

end Followed

/-- The entries taken from a start on carry consecutive numbers. -/
theorem map_eq_range'_of_prefix {entries got : List α} {start : ℕ}
    (hnumber : entries.map number = List.range' 1 entries.length) (hpos : 1 ≤ start)
    (h : got <+: entries.drop (start - 1)) : got.map number = List.range' start got.length := by
  obtain ⟨rest, hrest⟩ := h
  have hdrop : (got ++ rest).map number = List.range' start (entries.length - (start - 1)) := by
    rw [hrest, List.map_drop, hnumber, List.drop_range']
    congr 1
    omega
  have hlen : got.length ≤ entries.length - (start - 1) := by
    rw [← List.length_drop, ← hrest, List.length_append]
    exact Nat.le_add_right _ _
  have hsplit := List.range'_append_1 (s := start) (m := got.length)
    (n := entries.length - (start - 1) - got.length)
  rw [Nat.add_sub_cancel' hlen, ← hdrop, List.map_append] at hsplit
  exact (List.append_inj hsplit (by simp)).1.symm

/-- Among numbered entries, those with a number above `m` are an end of the log. -/
theorem drop_filter_of_numbered {entries : List α}
    (hnumber : entries.map number = List.range' 1 entries.length) (k m : ℕ) :
    (entries.drop k).filter (fun a => m < number a) = entries.drop (max k m) := by
  have hlow : ∀ a ∈ (entries.drop k).take (m - k), ¬m < number a := by
    intro a ha
    have hmem : number a ∈ (((entries.drop k).take (m - k)).map number) := List.mem_map_of_mem ha
    rw [List.map_take, List.map_drop, hnumber, List.drop_range'] at hmem
    obtain ⟨i, hi, heq⟩ := List.mem_take_iff_getElem.mp hmem
    rw [List.getElem_range'] at heq
    omega
  have hhigh : ∀ a ∈ entries.drop (max k m), m < number a := by
    intro a ha
    have hmem : number a ∈ (entries.drop (max k m)).map number := List.mem_map_of_mem ha
    rw [List.map_drop, hnumber, List.drop_range', List.mem_range'_1] at hmem
    omega
  have hsplit : entries.drop k = (entries.drop k).take (m - k) ++ entries.drop (max k m) := by
    conv_lhs => rw [← List.take_append_drop (m - k) (entries.drop k)]
    rw [List.drop_drop]
    congr 2
    omega
  rw [hsplit, List.filter_append, List.filter_eq_nil_iff.mpr (by simpa using hlow),
    List.filter_eq_self.mpr (by simpa using hhigh), List.nil_append]

end DagWorker
