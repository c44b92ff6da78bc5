import DagWorker.Memory.Step

/-!
# Slots

The identifier index is the inverse of the identifiers of the live slots, and
the free list holds each dead slot once.
-/

namespace DagWorker.Memory.Scope

open Function

/-- A slot holds a node. -/
abbrev Alive (s : Scope) (h : ℕ) : Prop := (s.recs h).alive = true

/-- The index is the inverse of the identifiers of the live slots, and the free
list holds each dead slot once. -/
structure Indexed (s : Scope) : Prop where
  lookup_iff : ∀ id h, s.lookup id = some h ↔ s.Alive h ∧ (s.recs h).id = id
  free_nodup : s.free.Nodup
  mem_free : ∀ h, h ∈ s.free ↔ h < s.size ∧ ¬ s.Alive h
  lt_size : ∀ h, s.Alive h → h < s.size
  dead : ∀ h, ¬ s.Alive h → s.recs h = {}

namespace Indexed

variable {s s' : Scope} {h : ℕ} {r : NodeRec}

section

variable (hs : s.Indexed)
include hs

theorem lookup_id (hh : s.Alive h) : s.lookup (s.recs h).id = some h :=
  (hs.lookup_iff _ _).mpr ⟨hh, rfl⟩

theorem alive_of_lookup {id : NodeID} (hl : s.lookup id = some h) : s.Alive h :=
  ((hs.lookup_iff _ _).mp hl).1

theorem id_of_lookup {id : NodeID} (hl : s.lookup id = some h) : (s.recs h).id = id :=
  ((hs.lookup_iff _ _).mp hl).2

theorem id_inj {u v : ℕ} (hu : s.Alive u) (hv : s.Alive v) (hid : (s.recs u).id = (s.recs v).id) :
    u = v := by
  have h₁ := hs.lookup_id hu
  rw [hid, hs.lookup_id hv] at h₁
  exact (Option.some.inj h₁).symm

theorem update_rec (hidx : s'.index = s.index) (hsize : s'.size = s.size) (hfree : s'.free = s.free)
    (hrecs : s'.recs = update s.recs h r) (hh : s.Alive h) (halive : r.alive = true)
    (hid : r.id = (s.recs h).id) : s'.Indexed := by
  have hal : ∀ k, s'.Alive k ↔ s.Alive k := by
    intro k
    by_cases hk : k = h
    · subst hk
      simp [Alive, hrecs, halive, hh]
    · simp [Alive, hrecs, hk]
  have hids : ∀ k, (s'.recs k).id = (s.recs k).id := by
    intro k
    by_cases hk : k = h
    · subst hk
      simp [hrecs, hid]
    · simp [hrecs, hk]
  refine ⟨?_, ?_, ?_, ?_, ?_⟩
  · intro id k
    rw [hal, hids, ← hs.lookup_iff, lookup, lookup, hidx]
  · rw [hfree]
    exact hs.free_nodup
  · intro k
    rw [hfree, hal, hsize]
    exact hs.mem_free k
  · intro k hk
    rw [hsize]
    exact hs.lt_size k ((hal k).mp hk)
  intro k hk
  have hne : k ≠ h := by
    rintro rfl
    exact hk ((hal k).mpr hh)
  rw [hrecs, update_of_ne hne]
  exact hs.dead k fun hk' => hk ((hal k).mpr hk')

theorem congr (hidx : s'.index = s.index) (hsize : s'.size = s.size) (hfree : s'.free = s.free)
    (hrecs : s'.recs = s.recs) : s'.Indexed := by
  obtain ⟨h₁, h₂, h₃, h₄, h₅⟩ := hs
  refine ⟨?_, ?_, ?_, ?_, ?_⟩ <;> simp only [Alive, lookup, hidx, hsize, hfree, hrecs] <;>
    assumption

theorem not_alive_slot : ¬ s.Alive s.slot := by
  unfold slot
  cases hfree : s.free with
  | nil =>
    intro hh
    have := hs.lt_size _ hh
    simp at this
  | cons k rest =>
    have hk : k ∈ s.free := by simp [hfree]
    simpa using ((hs.mem_free k).mp hk).2

theorem slot_lt_created (spec : NodeSpec) (now : Int) : s.slot < (s.created spec now).size := by
  unfold slot
  cases hfree : s.free with
  | nil => simp [hfree]
  | cons k rest =>
    have hk : k ∈ s.free := by simp [hfree]
    simpa [hfree] using ((hs.mem_free k).mp hk).1

theorem create {spec : NodeSpec} {now : Int} (hnew : s.lookup spec.id = none) :
    (s.created spec now).Indexed := by
  have hslot := hs.not_alive_slot
  have hal : ∀ k, (s.created spec now).Alive k ↔ k = s.slot ∨ s.Alive k := by
    intro k
    by_cases hk : k = s.slot
    · simp [Alive, hk, newRec]
    · simp [Alive, hk]
  have hle : s.size ≤ (s.created spec now).size := by
    rw [created_size]
    split <;> omega
  refine ⟨?_, ?_, ?_, ?_, ?_⟩
  · intro id k
    rw [hal, lookup, created_index]
    by_cases hid : id = spec.id
    · subst hid
      rw [AList.lookup_insert, Option.some.injEq]
      constructor
      · rintro rfl
        simp [newRec]
      rintro ⟨hk | hk, hkid⟩
      · exact hk.symm
      have hne : k ≠ s.slot := fun h => hslot (h ▸ hk)
      rw [created_recs, update_of_ne hne] at hkid
      have := hs.lookup_id hk
      rw [hkid, hnew] at this
      cases this
    · rw [AList.lookup_insert_ne hid, show s.index.lookup id = s.lookup id from rfl,
        hs.lookup_iff]
      by_cases hk : k = s.slot
      · subst hk
        simp [newRec, hslot, Ne.symm hid]
      · simp [hk]
  · rw [created_free]
    exact hs.free_nodup.sublist (List.tail_sublist _)
  · intro k
    rw [hal, created_free, created_size]
    have hmem := hs.mem_free k
    unfold slot at hslot ⊢
    cases hfree : s.free with
    | nil =>
      rw [hfree] at hmem
      simp only [List.not_mem_nil, false_iff, not_and_or, not_not, not_lt] at hmem
      simp only [List.tail_nil, List.not_mem_nil, ite_true, List.headD_nil, false_iff,
        not_and_or, not_or, not_lt, not_not]
      rcases hmem with hge | hk
      · omega
      · exact .inr (.inr hk)
    | cons k' rest =>
      have hnd := hs.free_nodup
      rw [hfree] at hmem hnd
      rw [List.nodup_cons] at hnd
      by_cases hk : k = k'
      · subst hk
        simp [hnd.1]
      · simpa [hk] using hmem
  · intro k hk
    rcases (hal k).mp hk with rfl | hk
    · exact hs.slot_lt_created spec now
    · exact lt_of_lt_of_le (hs.lt_size k hk) hle
  · intro k hk
    rw [hal, not_or] at hk
    rw [created_recs, update_of_ne hk.1]
    exact hs.dead k hk.2

theorem delete (hh : s.Alive h) : (s.deleted h (s.recs h).id).Indexed := by
  have hal : ∀ k, (s.deleted h (s.recs h).id).Alive k ↔ k ≠ h ∧ s.Alive k := by
    intro k
    by_cases hk : k = h
    · simp [Alive, hk]
    · simp [Alive, hk]
  refine ⟨?_, ?_, ?_, ?_, ?_⟩
  · intro id k
    rw [hal, lookup, deleted_index]
    by_cases hid : id = (s.recs h).id
    · subst hid
      rw [AList.lookup_erase]
      simp only [reduceCtorEq, false_iff, not_and]
      rintro ⟨hne, hk⟩ hkid
      rw [deleted_recs, update_of_ne hne] at hkid
      exact hne (hs.id_inj hk hh hkid)
    · rw [AList.lookup_erase_ne hid, show s.index.lookup id = s.lookup id from rfl,
        hs.lookup_iff]
      by_cases hk : k = h
      · subst hk
        simp [Ne.symm hid]
      · simp [hk]
  · rw [deleted_free, List.nodup_cons]
    exact ⟨fun hmem => ((hs.mem_free h).mp hmem).2 hh, hs.free_nodup⟩
  · intro k
    rw [hal, deleted_free, deleted_size, List.mem_cons, hs.mem_free]
    by_cases hk : k = h
    · subst hk
      simp [hs.lt_size k hh]
    · simp [hk]
  · intro k hk
    exact hs.lt_size k ((hal k).mp hk).2
  · intro k hk
    rw [hal, not_and_or, not_not] at hk
    rw [deleted_recs]
    by_cases hkh : k = h
    · simp [hkh]
    · rw [update_of_ne hkh]
      exact hs.dead k (hk.resolve_left hkh)

end

end Indexed

end DagWorker.Memory.Scope
