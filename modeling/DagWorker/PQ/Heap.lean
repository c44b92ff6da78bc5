import Mathlib.Logic.Function.Basic
import Mathlib.Tactic.Common

/-!
# The indexed binary heap

A binary heap over dense handles with a handle-to-position index, as in `internal/pq`.  The
two slices are total functions; the index is biased by one, so that zero means absent.  The
comparison is an argument of each operation, since the arrays the source closes over change
between calls.  The results are about membership and hold for any comparison.
-/

namespace DagWorker.PQ

open Function

structure Heap where
  len : ℕ := 0
  items : ℕ → ℕ := fun _ => 0
  pos : ℕ → ℕ := fun _ => 0

namespace Heap

def empty : Heap := {}

variable (less : ℕ → ℕ → Bool) (q : Heap) (i j h : ℕ)

def contains : Bool := q.pos h ≠ 0

/-- Exchange two positions and keep the index in step. -/
def swap : Heap :=
  let items := update (update q.items i (q.items j)) j (q.items i)
  { q with
    items := items
    pos := update (update q.pos (items i) (i + 1)) (items j) (j + 1) }

/-- The loop of `up`; `fuel` bounds the number of levels climbed. -/
def upLoop (less : ℕ → ℕ → Bool) : ℕ → ℕ → Heap → Heap
  | 0, _, q => q
  | fuel + 1, j, q =>
    if 0 < j then
      let parent := (j - 1) / 2
      if less (q.items j) (q.items parent) then
        upLoop less fuel parent (q.swap parent j)
      else q
    else q

def up : Heap := upLoop less j j q

/-- The child `down` compares with: the left one unless the right is less. -/
def smallestChild : ℕ :=
  let left := 2 * i + 1
  if left + 1 < q.len ∧ less (q.items (left + 1)) (q.items left) then left + 1 else left

/-- The loop of `down`; the final position is returned with the heap. -/
def downLoop (less : ℕ → ℕ → Bool) : ℕ → ℕ → Heap → Heap × ℕ
  | 0, i, q => (q, i)
  | fuel + 1, i, q =>
    if 2 * i + 1 < q.len then
      let smallest := smallestChild less q i
      if less (q.items smallest) (q.items i) then
        downLoop less fuel smallest (q.swap i smallest)
      else (q, i)
    else (q, i)

/-- Sift the element at `i` downwards and report whether it moved. -/
def down : Heap × Bool :=
  let r := downLoop less q.len i q
  (r.1, decide (i < r.2))

/-- Restore the heap around position `i`: down, and up if it did not move. -/
def sift : Heap :=
  let r := q.down less i
  if r.2 then r.1 else r.1.up less i

/-- Restore the heap after the key of a present element changed. -/
def fix : Heap :=
  if q.contains h then q.sift less (q.pos h - 1) else q

/-- Add a handle; one already present is only moved to its place. -/
def push : Heap :=
  if q.pos h ≠ 0 then q.fix less h
  else
    up less
      { len := q.len + 1
        items := update q.items q.len h
        pos := update q.pos h (q.len + 1) } q.len

def peek : Option ℕ :=
  if q.len = 0 then none else some (q.items 0)

/-- Drop the last position, which holds `h`. -/
def dropLast : Heap :=
  { q with len := q.len - 1, pos := update q.pos h 0 }

def pop : Heap :=
  if q.len = 0 then q
  else
    let q' := (q.swap 0 (q.len - 1)).dropLast (q.items 0)
    if 0 < q'.len then (q'.down less 0).1 else q'

def remove : Heap :=
  if q.contains h then
    let i := q.pos h - 1
    let last := q.len - 1
    let q' := (q.swap i last).dropLast h
    if i < last then q'.sift less i else q'
  else q

/-! ## The position index -/

variable {q i j h}

/-- The index and the items are mutual inverses, absent handles at zero. -/
structure Consistent (q : Heap) : Prop where
  pos_items : ∀ i, i < q.len → q.pos (q.items i) = i + 1
  items_pos : ∀ h, q.pos h ≠ 0 → q.pos h ≤ q.len ∧ q.items (q.pos h - 1) = h

theorem consistent_empty : Consistent empty := by
  constructor
  · intro i hi
    exact absurd hi (Nat.not_lt_zero i)
  · intro h hh
    exact absurd rfl hh

@[simp] theorem contains_empty (h : ℕ) : empty.contains h = false := rfl

theorem Consistent.items_inj (hq : q.Consistent)
    (hi : i < q.len) (hj : j < q.len) (h : q.items i = q.items j) : i = j := by
  have h₁ := hq.pos_items i hi
  have h₂ := hq.pos_items j hj
  rw [h, h₂] at h₁
  omega

theorem Consistent.contains_items (hq : q.Consistent)
    (hi : i < q.len) : q.contains (q.items i) = true := by
  simp [contains, hq.pos_items i hi]

@[simp] theorem swap_len (q : Heap) (i j : ℕ) : (q.swap i j).len = q.len := rfl

theorem swap_items (q : Heap) (i j k : ℕ) : (q.swap i j).items k =
      if k = j then q.items i else if k = i then q.items j else q.items k := by
  simp only [swap, update_apply]

theorem swap_pos (q : Heap) (i j h : ℕ) : (q.swap i j).pos h =
      if h = q.items i then j + 1 else if h = q.items j then i + 1 else q.pos h := by
  simp only [swap, update_apply, if_true]
  by_cases hij : i = j
  · subst hij
    simp
  · simp only [if_neg hij]

theorem Consistent.swap (hq : q.Consistent)
    (hi : i < q.len) (hj : j < q.len) : (q.swap i j).Consistent := by
  have inj : ∀ k, k < q.len → ∀ l, l < q.len → q.items k = q.items l → k = l :=
    fun k hk l hl => hq.items_inj hk hl
  constructor
  · intro k hk
    rw [swap_pos, swap_items]
    by_cases hkj : k = j
    · simp [hkj]
    by_cases hki : k = i
    · subst hki
      have hne : q.items j ≠ q.items k := fun h => hkj (inj _ hj _ hk h).symm
      simp [hkj, hne]
    · have h₁ : q.items k ≠ q.items i := fun h => hki (inj _ hk _ hi h)
      have h₂ : q.items k ≠ q.items j := fun h => hkj (inj _ hk _ hj h)
      simp [hkj, hki, h₁, h₂, hq.pos_items k hk]
  · intro h
    rw [swap_pos, swap_len]
    by_cases h₁ : h = q.items i
    · subst h₁
      simp only [if_true]
      intro _
      refine ⟨by omega, ?_⟩
      simp [swap_items]
    · by_cases h₂ : h = q.items j
      · subst h₂
        simp only [if_neg h₁, if_true]
        intro _
        refine ⟨by omega, ?_⟩
        by_cases hij : i = j
        · subst hij
          exact absurd rfl h₁
        · simp [swap_items, hij]
      · simp only [if_neg h₁, if_neg h₂]
        intro hne
        obtain ⟨hle, heq⟩ := hq.items_pos h hne
        refine ⟨hle, ?_⟩
        have hk₁ : q.pos h - 1 ≠ i := fun hk => h₁ (by rw [← heq, hk])
        have hk₂ : q.pos h - 1 ≠ j := fun hk => h₂ (by rw [← heq, hk])
        simp [swap_items, hk₁, hk₂, heq]

theorem Consistent.contains_swap (hq : q.Consistent) (hi : i < q.len) (hj : j < q.len) (h : ℕ) :
    (q.swap i j).contains h = q.contains h := by
  simp only [contains, swap_pos]
  by_cases h₁ : h = q.items i
  · simp [h₁, hq.pos_items i hi]
  by_cases h₂ : h = q.items j
  · rw [if_neg h₁, if_pos h₂, h₂, hq.pos_items j hj]
    simp
  · simp [h₁, h₂]

/-! ## Sifting keeps the members -/

/-- `q'` is consistent and holds exactly the handles of `q`. -/
structure SameMembers (q q' : Heap) : Prop where
  consistent : q'.Consistent
  contains_eq : ∀ h, q'.contains h = q.contains h
  len_eq : q'.len = q.len

theorem SameMembers.refl (hq : q.Consistent) : SameMembers q q :=
  ⟨hq, fun _ => rfl, rfl⟩

theorem SameMembers.trans {q₁ q₂ q₃ : Heap}
    (h₁ : SameMembers q₁ q₂) (h₂ : SameMembers q₂ q₃) : SameMembers q₁ q₃ :=
  ⟨h₂.consistent, fun h => (h₂.contains_eq h).trans (h₁.contains_eq h),
    h₂.len_eq.trans h₁.len_eq⟩

theorem Consistent.sameMembers_swap (hq : q.Consistent)
    (hi : i < q.len) (hj : j < q.len) : SameMembers q (q.swap i j) :=
  ⟨hq.swap hi hj, hq.contains_swap hi hj, rfl⟩

theorem Consistent.sameMembers_upLoop {less : ℕ → ℕ → Bool} {fuel : ℕ}
    (hq : q.Consistent) (hj : j < q.len) : SameMembers q (upLoop less fuel j q) := by
  induction fuel generalizing q j with
  | zero => exact SameMembers.refl hq
  | succ fuel ih =>
    rw [upLoop]
    split
    · dsimp only
      split
      · have hp : (j - 1) / 2 < q.len := by omega
        have hswap := hq.sameMembers_swap hp hj
        exact hswap.trans (ih hswap.consistent hp)
      · exact SameMembers.refl hq
    · exact SameMembers.refl hq

theorem Consistent.sameMembers_up
    (hq : q.Consistent) (less : ℕ → ℕ → Bool) (hj : j < q.len) : SameMembers q (q.up less j) :=
  hq.sameMembers_upLoop hj

theorem smallestChild_lt (h : 2 * i + 1 < q.len) : smallestChild less q i < q.len := by
  rw [smallestChild]
  split
  · omega
  · exact h

section

variable (hq : q.Consistent)
include hq

theorem Consistent.sameMembers_downLoop {less : ℕ → ℕ → Bool} {fuel : ℕ} :
    SameMembers q (downLoop less fuel i q).1 := by
  induction fuel generalizing q i with
  | zero => exact SameMembers.refl hq
  | succ fuel ih =>
    rw [downLoop]
    split
    · rename_i hleft
      dsimp only
      split
      · have hswap := hq.sameMembers_swap (i := i) (by omega)
          (smallestChild_lt less hleft)
        exact hswap.trans (ih hswap.consistent)
      · exact SameMembers.refl hq
    · exact SameMembers.refl hq

theorem Consistent.sameMembers_down (less : ℕ → ℕ → Bool) (i : ℕ) :
    SameMembers q (q.down less i).1 :=
  hq.sameMembers_downLoop

theorem Consistent.sameMembers_sift (less : ℕ → ℕ → Bool) (hi : i < q.len) :
    SameMembers q (q.sift less i) := by
  have hdown := hq.sameMembers_down less i
  rw [sift]
  split
  · exact hdown
  · have hlt : i < (q.down less i).1.len := by rw [hdown.len_eq]; exact hi
    exact hdown.trans (hdown.consistent.sameMembers_up less hlt)

theorem Consistent.sameMembers_fix (less : ℕ → ℕ → Bool) (h : ℕ) :
    SameMembers q (q.fix less h) := by
  rw [fix]
  split
  · rename_i hc
    have hne : q.pos h ≠ 0 := by simpa [contains] using hc
    have hle := (hq.items_pos h hne).1
    exact hq.sameMembers_sift less (by omega)
  · exact SameMembers.refl hq

/-! ## The operations -/

theorem Consistent.push (less : ℕ → ℕ → Bool) (h : ℕ) : (q.push less h).Consistent ∧
      ∀ k, (q.push less h).contains k = (decide (k = h) || q.contains k) := by
  rw [Heap.push]
  split
  · rename_i hpos
    have hfix := hq.sameMembers_fix less h
    refine ⟨hfix.consistent, fun k => ?_⟩
    rw [hfix.contains_eq]
    by_cases hk : k = h
    · simp [hk, contains, hpos]
    · simp [hk]
  · rename_i hpos
    have hzero : q.pos h = 0 := not_not.mp hpos
    -- the handle is new, so it differs from every stored item
    have hnew : ∀ i, i < q.len → q.items i ≠ h := by
      intro i hi heq
      have := hq.pos_items i hi
      rw [heq, hzero] at this
      omega
    have hcons : Consistent
        { len := q.len + 1
          items := update q.items q.len h
          pos := update q.pos h (q.len + 1) } := by
      constructor
      · intro i hi
        dsimp only at hi ⊢
        by_cases hil : i = q.len
        · simp [hil]
        · have hlt : i < q.len := by omega
          rw [update_of_ne hil, update_of_ne (hnew i hlt), hq.pos_items i hlt]
      · intro k hk
        dsimp only at hk ⊢
        by_cases hkh : k = h
        · simp [hkh]
        rw [update_of_ne hkh] at hk ⊢
        obtain ⟨hle, heq⟩ := hq.items_pos k hk
        refine ⟨by omega, ?_⟩
        rw [update_of_ne (by omega), heq]
    have hup := hcons.sameMembers_up less (Nat.lt_succ_self q.len)
    refine ⟨hup.consistent, fun k => ?_⟩
    rw [hup.contains_eq]
    by_cases hk : k = h
    · simp [hk, contains]
    · simp [hk, contains]

theorem Consistent.contains_of_peek (hp : q.peek = some h) : q.contains h = true := by
  rw [peek] at hp
  split at hp
  · exact absurd hp (by simp)
  rename_i hlen
  simp only [Option.some.injEq] at hp
  rw [← hp]
  exact hq.contains_items (Nat.pos_of_ne_zero hlen)

/-- Dropping the last position removes exactly the handle it holds. -/
theorem Consistent.dropLast (hlen : 0 < q.len) (hlast : q.items (q.len - 1) = h) :
    (q.dropLast h).Consistent ∧
      ∀ k, (q.dropLast h).contains k = (decide (k ≠ h) && q.contains k) := by
  constructor
  · constructor
    · intro i hi
      simp only [Heap.dropLast] at hi ⊢
      have hne : q.items i ≠ h := by
        intro heq
        have := hq.items_inj (i := i) (j := q.len - 1) (by omega) (by omega)
          (by rw [heq, hlast])
        omega
      rw [update_of_ne hne, hq.pos_items i (by omega)]
    · intro k hk
      simp only [Heap.dropLast] at hk ⊢
      by_cases hkh : k = h
      · simp [hkh] at hk
      rw [update_of_ne hkh] at hk ⊢
      obtain ⟨hle, heq⟩ := hq.items_pos k hk
      refine ⟨?_, heq⟩
      have : q.pos k - 1 ≠ q.len - 1 := by
        intro h'
        exact hkh (by rw [← heq, h', hlast])
      omega
  · intro k
    by_cases hkh : k = h
    · simp [Heap.dropLast, contains, hkh]
    · simp [Heap.dropLast, contains, hkh]

theorem Consistent.pop (less : ℕ → ℕ → Bool) (hp : q.peek = some h) :
    (q.pop less).Consistent ∧ ∀ k, (q.pop less).contains k = (decide (k ≠ h) && q.contains k) := by
  rw [peek] at hp
  split at hp
  · exact absurd hp (by simp)
  rename_i hlen
  simp only [Option.some.injEq] at hp
  subst hp
  rw [Heap.pop, if_neg hlen]
  have h0 : 0 < q.len := Nat.pos_of_ne_zero hlen
  have hl : q.len - 1 < q.len := by omega
  have hswap := hq.sameMembers_swap h0 hl
  have hdrop := hswap.consistent.dropLast (h := q.items 0) h0 (by simp [swap_items])
  have hcontains : ∀ k, ((q.swap 0 (q.len - 1)).dropLast (q.items 0)).contains k =
      (decide (k ≠ q.items 0) && q.contains k) := by
    intro k
    rw [hdrop.2, hswap.contains_eq]
  dsimp only
  split
  · have hdown := hdrop.1.sameMembers_down less 0
    exact ⟨hdown.consistent, fun k => by rw [hdown.contains_eq, hcontains]⟩
  · exact ⟨hdrop.1, hcontains⟩

theorem Consistent.remove (less : ℕ → ℕ → Bool) (h : ℕ) : (q.remove less h).Consistent ∧
      ∀ k, (q.remove less h).contains k = (decide (k ≠ h) && q.contains k) := by
  rw [Heap.remove]
  split
  · rename_i hc
    have hne : q.pos h ≠ 0 := by simpa [contains] using hc
    obtain ⟨hle, heq⟩ := hq.items_pos h hne
    have hi : q.pos h - 1 < q.len := by omega
    have hl : q.len - 1 < q.len := by omega
    have hswap := hq.sameMembers_swap hi hl
    have hdrop := hswap.consistent.dropLast (h := h) (by rw [swap_len]; omega)
      (by simp [swap_items, heq])
    have hcontains : ∀ k, ((q.swap (q.pos h - 1) (q.len - 1)).dropLast h).contains k =
        (decide (k ≠ h) && q.contains k) := by
      intro k
      rw [hdrop.2, hswap.contains_eq]
    dsimp only
    split
    · rename_i hlt
      have hsift := hdrop.1.sameMembers_sift less hlt
      exact ⟨hsift.consistent, fun k => by rw [hsift.contains_eq, hcontains]⟩
    · exact ⟨hdrop.1, hcontains⟩
  · rename_i hc
    refine ⟨hq, fun k => ?_⟩
    by_cases hk : k = h
    · simp [hk, hc]
    · simp [hk]

end

theorem remove_of_not_contains (hc : q.contains h = false) : q.remove less h = q := by
  simp [Heap.remove, hc]

/-! ## Contents -/

/-- `q` is consistent and holds exactly the handles that satisfy `p`. -/
structure Holds (q : Heap) (p : ℕ → Bool) : Prop where
  consistent : q.Consistent
  contains_eq : ∀ k, q.contains k = p k

namespace Holds

variable {q : Heap} {p p' : ℕ → Bool} {h : ℕ}

theorem empty : Holds empty fun _ => false :=
  ⟨consistent_empty, contains_empty⟩

section

variable (hq : q.Holds p)
include hq

theorem congr (hp : ∀ k, p' k = p k) : q.Holds p' :=
  ⟨hq.consistent, fun k => (hq.contains_eq k).trans (hp k).symm⟩

theorem push (less : ℕ → ℕ → Bool) (h : ℕ) :
    (q.push less h).Holds fun k => decide (k = h) || p k := by
  have hpush := hq.consistent.push less h
  exact ⟨hpush.1, fun k => by rw [hpush.2, hq.contains_eq]⟩

theorem pop (less : ℕ → ℕ → Bool) (hp : q.peek = some h) :
    (q.pop less).Holds fun k => decide (k ≠ h) && p k := by
  have hpop := hq.consistent.pop less hp
  exact ⟨hpop.1, fun k => by rw [hpop.2, hq.contains_eq]⟩

theorem remove (less : ℕ → ℕ → Bool) (h : ℕ) :
    (q.remove less h).Holds fun k => decide (k ≠ h) && p k := by
  have hrem := hq.consistent.remove less h
  exact ⟨hrem.1, fun k => by rw [hrem.2, hq.contains_eq]⟩

theorem fix (less : ℕ → ℕ → Bool) (h : ℕ) : (q.fix less h).Holds p := by
  have hfix := hq.consistent.sameMembers_fix less h
  exact ⟨hfix.consistent, fun k => by rw [hfix.contains_eq, hq.contains_eq]⟩

theorem of_peek (hp : q.peek = some h) : p h = true := by
  rw [← hq.contains_eq]
  exact hq.consistent.contains_of_peek hp

end

end Holds
end Heap
end DagWorker.PQ
