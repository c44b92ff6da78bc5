import Mathlib.Data.List.Basic
import Mathlib.Order.Basic
import Mathlib.Data.Nat.Basic
import Mathlib.Tactic.Common

/-!
# A log that forgets its oldest entries

Entries are numbered from one.  A ring keeps a run of consecutive entries and the
number of the first of them; when it has grown to twice its capacity it drops all
but the newest.  `Window` says which history a ring is the end of.
-/

namespace DagWorker

/-- The retained entries and the number of the first. -/
structure Ring (α : Type) where
  items : List α := []
  start : ℕ := 1
  cap : ℕ

namespace Ring

variable {α : Type}

/-- Append an entry, dropping the oldest once there are twice as many as the
capacity. -/
def push (r : Ring α) (a : α) : Ring α :=
  let items := r.items ++ [a]
  if 2 * r.cap ≤ items.length then
    { r with items := items.drop (items.length - r.cap), start := r.start + (items.length - r.cap) }
  else { r with items := items }

theorem start_le_push (r : Ring α) (a : α) : r.start ≤ (r.push a).start := by
  unfold push
  dsimp only
  split
  · exact Nat.le_add_right _ _
  · exact le_rfl

/-- The ring holds the end of the history `entries`. -/
structure Window (entries : List α) (r : Ring α) : Prop where
  pos : 1 ≤ r.start
  le : r.start ≤ entries.length + 1
  items : r.items = entries.drop (r.start - 1)
  room : r.items.length < 2 * r.cap

namespace Window

variable {entries : List α} {r : Ring α}

theorem empty {cap : ℕ} (hcap : 0 < cap) : Window ([] : List α) { cap := cap } :=
  ⟨le_rfl, le_rfl, rfl, by simpa using hcap⟩

/-- A ring that starts after everything recorded so far. -/
theorem blank (entries : List α) {cap : ℕ} (hcap : 0 < cap) :
    Window entries { start := entries.length + 1, cap := cap } :=
  ⟨by simp, le_rfl, by simp, by simpa using hcap⟩

/-- The numbers of the retained entries end at the length of the history. -/
theorem start_add_length (h : Window entries r) :
    r.start + r.items.length = entries.length + 1 := by
  have hpos := h.pos
  have hle := h.le
  rw [h.items, List.length_drop]
  omega

/-- Reading from a retained number gives the history from there on. -/
theorem drop_items (h : Window entries r) {n : ℕ} (hn : r.start ≤ n) :
    r.items.drop (n - r.start) = entries.drop (n - 1) := by
  have hpos := h.pos
  rw [h.items, List.drop_drop]
  congr 1
  omega

theorem push (h : Window entries r) (a : α) : Window (entries ++ [a]) (r.push a) := by
  have hpos := h.pos
  have hroom := h.room
  have hlen := h.start_add_length
  have hitems : r.items ++ [a] = (entries ++ [a]).drop (r.start - 1) := by
    rw [List.drop_append_of_le_length (by omega), h.items]
  unfold Ring.push
  dsimp only
  split
  · rename_i hfull
    rw [List.length_append, List.length_singleton] at hfull ⊢
    constructor
    · exact hpos.trans (Nat.le_add_right _ _)
    · rw [List.length_append, List.length_singleton]
      dsimp only
      omega
    · dsimp only
      rw [hitems, List.drop_drop]
      congr 1
      omega
    · dsimp only
      rw [List.length_drop, List.length_append, List.length_singleton]
      omega
  · rename_i hfits
    constructor
    · exact hpos
    · rw [List.length_append, List.length_singleton]
      dsimp only
      omega
    · exact hitems
    · exact not_le.mp hfits

end Window
end Ring
end DagWorker
