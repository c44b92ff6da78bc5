import Mathlib.Data.List.AList
import Mathlib.Data.Nat.Notation

/-!
# Counting the entries of a table

A table is an association list with distinct keys.  Writing or deleting one entry changes
the number of entries with some property by what that entry contributed before and
contributes now.
-/

namespace DagWorker.Table

open List

variable {κ ν : Type} [DecidableEq κ]

/-- The number of entries whose value satisfies `p`. -/
def count (m : AList fun _ : κ => ν) (p : ν → Bool) : ℕ := m.entries.countP fun x => p x.2

variable {m : AList fun _ : κ => ν} {p : ν → Bool} {k : κ} {v old : ν}

/-- The entry of a key, and the others. -/
theorem entries_perm (h : m.lookup k = some old) :
    m.entries.Perm (⟨k, old⟩ :: m.entries.kerase k) := by
  have hmem : k ∈ m.entries.keys := by
    rw [← AList.keys, ← AList.mem_keys, ← AList.lookup_isSome, h]
    rfl
  obtain ⟨b, l₁, l₂, -, heq, herase⟩ := exists_of_kerase hmem
  have hb : m.lookup k = some b := by
    rw [← Option.mem_def, AList.mem_lookup_iff, heq]
    simp
  obtain rfl := Option.mem_unique h hb
  rw [herase, heq]
  exact perm_middle

theorem count_kerase (h : m.lookup k = some old) :
    count m p = (m.entries.kerase k).countP (fun x => p x.2) + (p old).toNat := by
  rw [count, (entries_perm h).countP_eq, countP_cons]
  cases p old <;> rfl

theorem count_insert_of_none (h : m.lookup k = none) :
    count (m.insert k v) p = count m p + (p v).toNat := by
  rw [count, AList.insert_of_notMem (AList.lookup_eq_none.mp h), countP_cons, count]
  cases p v <;> rfl

theorem count_insert_of_some (h : m.lookup k = some old) :
    count (m.insert k v) p + (p old).toNat = count m p + (p v).toNat := by
  rw [count_kerase h, count, AList.entries_insert, countP_cons]
  cases p v
  · simp
  · simp
    omega

theorem count_erase (h : m.lookup k = some old) :
    count (m.erase k) p + (p old).toNat = count m p := (count_kerase h).symm

theorem count_erase_of_none (h : m.lookup k = none) : count (m.erase k) p = count m p := by
  have hkeys : k ∉ m.entries.keys := AList.lookup_eq_none.mp h
  change (m.entries.kerase k).countP _ = _
  rw [kerase_of_notMem_keys hkeys, count]

/-- An entry that is left was there before. -/
theorem lookup_of_erase {k' : κ} (h : (m.erase k).lookup k' = some v) : m.lookup k' = some v := by
  by_cases hk : k' = k
  · subst hk
    rw [AList.lookup_erase] at h
    cases h
  · rwa [AList.lookup_erase_ne hk] at h

/-- What an entry that may be missing contributes. -/
def share (p : ν → Bool) (o : Option ν) : ℕ := o.elim 0 fun v => (p v).toNat

theorem count_insert (m : AList fun _ : κ => ν) (p : ν → Bool) (k : κ) (v : ν) :
    count (m.insert k v) p + share p (m.lookup k) = count m p + (p v).toNat := by
  cases h : m.lookup k with
  | none => exact count_insert_of_none h
  | some old => exact count_insert_of_some h

theorem count_erase_add (m : AList fun _ : κ => ν) (p : ν → Bool) (k : κ) :
    count (m.erase k) p + share p (m.lookup k) = count m p := by
  cases h : m.lookup k with
  | none => exact count_erase_of_none h
  | some old => exact count_erase h

end DagWorker.Table
