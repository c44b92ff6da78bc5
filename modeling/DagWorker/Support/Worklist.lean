import Mathlib.Data.List.Perm.Subperm
import Mathlib.Logic.Relation

/-!
# Search with a stack

A search takes an element from a stack and visits every new neighbour that passes a test.
When the stack is empty, the visited elements are closed under neighbours that pass it.
-/

namespace DagWorker.Worklist

variable {α : Type} [DecidableEq α]
variable {ss vis stk : List α} {st : List α × List α}

/-- Visit the listed elements that are new and pass the test. -/
def scan (ok : α → Bool) : List α → List α × List α → List α × List α
  | [], st => st
  | s :: ss, st =>
    if s ∉ st.1 ∧ ok s = true then scan ok ss (st.1 ++ [s], s :: st.2) else scan ok ss st

/-- What a search from `root` has achieved. -/
structure Explored (nbr : α → α → Prop) (ok : α → Bool) (root : α) (st : List α × List α) :
    Prop where
  start : root ∈ st.1
  nodup : st.1.Nodup
  stacked : ∀ v ∈ st.2, v ∈ st.1
  found : ∀ v ∈ st.1, v = root ∨ ok v = true ∧ ∃ p ∈ st.1, nbr p v
  reach : ∀ v ∈ st.1, Relation.ReflTransGen nbr root v
  closed : ∀ v ∈ st.1, v ∉ st.2 → ∀ s, nbr v s → ok s = true → s ∈ st.1

variable {nbr : α → α → Prop} {ok : α → Bool} {root : α}

omit [DecidableEq α] in
theorem Explored.initial (nbr : α → α → Prop) (ok : α → Bool) (root : α) :
    Explored nbr ok root ([root], [root]) := by
  constructor
  · simp
  · simp
  · simp
  · simp
  · intro v hv
    rw [List.mem_singleton.mp hv]
  · intro v hv hstack
    exact absurd hv hstack

theorem scan_mono (ss : List α) (st : List α × List α) {v : α} (hv : v ∈ st.1) :
    v ∈ (scan ok ss st).1 := by
  induction ss generalizing st with
  | nil => exact hv
  | cons s ss ih =>
    rw [scan]
    split
    · exact ih _ (List.mem_append_left _ hv)
    · exact ih _ hv

theorem mem_scan {s : α} (hs : s ∈ ss) (hok : ok s = true) : s ∈ (scan ok ss st).1 := by
  induction ss generalizing st with
  | nil => cases hs
  | cons t ss ih =>
    rw [scan]
    rcases List.mem_cons.mp hs with rfl | hs
    · split
      · exact scan_mono ss _ (by simp)
      next hseen =>
        apply scan_mono
        by_contra hnew
        exact hseen ⟨hnew, hok⟩
    · split
      · exact ih hs
      · exact ih hs

/-- What is visited and not on the stack was so before. -/
theorem settled_of_scan {v : α} (hv : v ∈ (scan ok ss st).1) (hstack : v ∉ (scan ok ss st).2) :
    v ∈ st.1 ∧ v ∉ st.2 := by
  induction ss generalizing st with
  | nil => exact ⟨hv, hstack⟩
  | cons s ss ih =>
    rw [scan] at hv hstack
    split at hv
    · next hnew =>
        rw [if_pos hnew] at hstack
        obtain ⟨hmem, hnot⟩ := ih hv hstack
        rw [List.mem_cons, not_or] at hnot
        rcases List.mem_append.mp hmem with hmem | hmem
        · exact ⟨hmem, hnot.2⟩
        · exact absurd (List.mem_singleton.mp hmem) hnot.1
    · next hold =>
        rw [if_neg hold] at hstack
        exact ih hv hstack

/-- What is visited is put on the stack. -/
theorem exists_scan_eq (ok : α → Bool) (ss : List α) (vis stk : List α) :
    ∃ new, scan ok ss (vis, stk) = (vis ++ new, new.reverse ++ stk) := by
  induction ss generalizing vis stk with
  | nil => exact ⟨[], by simp [scan]⟩
  | cons s ss ih =>
    rw [scan]
    split
    · obtain ⟨new, hnew⟩ := ih (vis ++ [s]) (s :: stk)
      exact ⟨s :: new, by simp [hnew]⟩
    · exact ih vis stk

theorem length_scan (ss vis stk : List α) :
    (scan ok ss (vis, stk)).1.length + stk.length =
      vis.length + (scan ok ss (vis, stk)).2.length := by
  obtain ⟨new, hnew⟩ := exists_scan_eq ok ss vis stk
  simp only [hnew, List.length_append, List.length_reverse]
  omega

omit [DecidableEq α] in
/-- Only the members of the stack matter. -/
theorem Explored.of_mem_iff {stk' : List α} (h : Explored nbr ok root (vis, stk))
    (hstk : ∀ v, v ∈ stk' ↔ v ∈ stk) : Explored nbr ok root (vis, stk') := by
  obtain ⟨h₁, h₂, h₃, h₄, h₅, h₆⟩ := h
  constructor
  · exact h₁
  · exact h₂
  · exact fun v hv => h₃ v ((hstk v).mp hv)
  · exact h₄
  · exact h₅
  · exact fun v hv hnot => h₆ v hv fun hmem => hnot ((hstk v).mpr hmem)

omit [DecidableEq α] in
/-- The search visits no more than there is. -/
theorem Explored.length_le {all : List α} (h : Explored nbr ok root (vis, stk)) (hroot : root ∈ all)
    (hnbr : ∀ u v, nbr u v → v ∈ all) : vis.length ≤ all.length := by
  apply (List.subperm_of_subset h.nodup _).length_le
  intro v hv
  rcases h.found v hv with rfl | ⟨-, p, -, hpv⟩
  · exact hroot
  · exact hnbr p v hpv

omit [DecidableEq α] in
/-- A new neighbour of a visited element. -/
theorem Explored.visit {p s : α} (h : Explored nbr ok root (vis, stk)) (hp : p ∈ vis)
    (hps : nbr p s) (hok : ok s = true) (hnew : s ∉ vis) :
    Explored nbr ok root (vis ++ [s], s :: stk) := by
  constructor
  · exact List.mem_append_left _ h.start
  · exact (List.perm_append_singleton s vis).nodup_iff.mpr (List.nodup_cons.mpr ⟨hnew, h.nodup⟩)
  · intro v hv
    rcases List.mem_cons.mp hv with rfl | hv
    · simp
    · exact List.mem_append_left _ (h.stacked v hv)
  · intro v hv
    rcases List.mem_append.mp hv with hv | hv
    · rcases h.found v hv with hroot | ⟨hok, q, hq, hqv⟩
      · exact .inl hroot
      · exact .inr ⟨hok, q, List.mem_append_left _ hq, hqv⟩
    · rw [List.mem_singleton.mp hv]
      exact .inr ⟨hok, p, List.mem_append_left _ hp, hps⟩
  · intro v hv
    rcases List.mem_append.mp hv with hv | hv
    · exact h.reach v hv
    · rw [List.mem_singleton.mp hv]
      exact (h.reach p hp).tail hps
  · intro v hv hstack t hvt hok
    rw [List.mem_cons, not_or] at hstack
    have hold : v ∈ vis := by simpa [hstack.1] using hv
    exact List.mem_append_left _ (h.closed v hold hstack.2 t hvt hok)

omit [DecidableEq α] in
/-- An element is done with once its neighbours have been visited. -/
theorem Explored.leave {n : α} (h : Explored nbr ok root (vis, n :: stk))
    (hn : ∀ s, nbr n s → ok s = true → s ∈ vis) : Explored nbr ok root (vis, stk) := by
  constructor
  · exact h.start
  · exact h.nodup
  · exact fun v hv => h.stacked v (.tail _ hv)
  · exact h.found
  · exact h.reach
  intro v hv hstack s hvs hok
  by_cases hvn : v = n
  · subst hvn
    exact hn s hvs hok
  · exact h.closed v hv (by simp [hvn, hstack]) s hvs hok

/-- The neighbours of one element, in any order.  Meanwhile the element itself counts as
open. -/
theorem Explored.scan {n : α} (h : Explored nbr ok root (vis, n :: stk)) (hss : ∀ s ∈ ss, nbr n s) :
    Explored nbr ok root
      ((Worklist.scan ok ss (vis, stk)).1, n :: (Worklist.scan ok ss (vis, stk)).2) := by
  induction ss generalizing vis stk with
  | nil => exact h
  | cons s ss ih =>
    have hss' : ∀ t ∈ ss, nbr n t := fun t ht => hss t (.tail _ ht)
    rw [Worklist.scan]
    split
    · next hnew =>
        have hvisit := h.visit (h.stacked n (.head _)) (hss s (.head _)) hnew.2 hnew.1
        exact ih (hvisit.of_mem_iff fun v => by simp [or_left_comm]) hss'
    · exact ih h hss'

/-- All neighbours of one element have been looked at. -/
theorem Explored.step {n : α} (h : Explored nbr ok root (vis, n :: stk))
    (hss : ∀ s, s ∈ ss ↔ nbr n s) : Explored nbr ok root (Worklist.scan ok ss (vis, stk)) :=
  (h.scan fun s hs => (hss s).mp hs).leave fun s hs hok => mem_scan ((hss s).mpr hs) hok

end DagWorker.Worklist
