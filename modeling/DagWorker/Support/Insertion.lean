import DagWorker.Support.Rank
import DagWorker.Support.Worklist
import Mathlib.Data.Fintype.Basic

/-!
# Inserting an edge into a ranked graph

`insertion` says what an edge from `x` to `y` does to the ranks of a finite graph: nothing
if it closes a cycle, and otherwise the ranks of the nodes between `y` and `x` are handed
out again.  An implementation keeps the graph under keys of its own (`Presents`), and
`Presents.insertion_of_affected` says that every search which finds the affected regions
leads to the ranks of `insertion`.
-/

namespace DagWorker.Rank

open Function
open Relation (ReflTransGen)

/-! ## Regions found with a stack -/

section Explored

variable {α : Type} {ord : α → ℕ} {Node : α → Prop} {Edge : α → α → Prop} {x y : α}
  {B F : List α}

/-- Two searches from the endpoints of an edge find what a redistribution of the ranks
needs. -/
theorem affected_of_explored (ht : Topological ord Node Edge) (hx : Node x) (hy : Node y)
    (hlt : ord y < ord x)
    (hF : Worklist.Explored Edge (fun s => decide (ord s < ord x)) y (F, []))
    (hFx : ∀ v ∈ F, ¬Edge v x)
    (hB : Worklist.Explored (fun w u => Edge u w) (fun p => decide (ord y < ord p)) x (B, [])) :
    Affected ord Node Edge x y B F := by
  constructor
  · exact hB.start
  · exact hF.start
  · intro b hb
    rcases hB.found b hb with rfl | ⟨-, p, -, hpb⟩
    · exact hx
    · exact (ht.nodes b p hpb).1
  · intro f hf
    rcases hF.found f hf with rfl | ⟨-, p, -, hpf⟩
    · exact hy
    · exact (ht.nodes p f hpf).2
  · intro b hb
    refine ⟨?_, ht.le_of_reach (Relation.reflTransGen_swap.mp (hB.reach b hb))⟩
    rcases hB.found b hb with rfl | ⟨hok, -⟩
    · exact hlt
    · exact of_decide_eq_true hok
  · intro f hf
    refine ⟨ht.le_of_reach (hF.reach f hf), ?_⟩
    rcases hF.found f hf with rfl | ⟨hok, -⟩
    · exact hlt
    · exact of_decide_eq_true hok
  · intro b hb w hwb hyw
    exact hB.closed b hb List.not_mem_nil w hwb (decide_eq_true hyw)
  · intro b hb
    rcases hB.found b hb with rfl | ⟨-, p, hp, hpb⟩
    · exact .inl rfl
    · exact .inr ⟨p, hp, hpb⟩
  · intro f hf w hfw
    constructor
    · intro heq
      have hwx := ht.inj w x (ht.nodes f w hfw).2 hx heq
      exact hFx f hf (hwx ▸ hfw)
    · exact fun hw => hF.closed f hf List.not_mem_nil w hfw (decide_eq_true hw)

end Explored

/-! ## Ranks under other keys -/

theorem assign_map {α β : Type} [DecidableEq α] [DecidableEq β] {key : α → β}
    (hkey : Injective key) (ord : β → ℕ) (ns : List α) (vs : List ℕ) :
    assign ord (ns.map key) vs ∘ key = assign (ord ∘ key) ns vs := by
  induction ns generalizing ord vs with
  | nil => rfl
  | cons n ns ih =>
    cases vs with
    | nil => rfl
    | cons v vs =>
      rw [List.map_cons, assign, ih, assign, update_comp_eq_of_injective ord hkey]

variable {V : Type} [Fintype V]

open Classical in
noncomputable def ascending (ord : V → ℕ) (P : V → Prop) : List V :=
  (Finset.univ.filter P).toList.insertionSort fun a b => ord a ≤ ord b

@[simp] theorem mem_ascending {ord : V → ℕ} {P : V → Prop} {v : V} : v ∈ ascending ord P ↔ P v := by
  rw [ascending, (List.perm_insertionSort _ _).mem_iff]
  simp

theorem ascending_sorted {ord : V → ℕ} (hinj : Injective ord) (P : V → Prop) :
    (ascending ord P).Pairwise fun a b => ord a < ord b := by
  have hle : (ascending ord P).Pairwise fun a b => ord a ≤ ord b :=
    List.pairwise_insertionSort (fun a b => ord a ≤ ord b) _
  have hnd : (ascending ord P).Nodup := by
    rw [ascending, (List.perm_insertionSort _ _).nodup_iff]
    exact Finset.nodup_toList _
  exact (hle.and hnd).imp fun h => lt_of_le_of_ne h.1 fun heq => h.2 (hinj heq)

/-! ## The insertion -/

open Classical in
/-- The ranks after an edge from `x` to `y`, or `none` if the edge closes a cycle. -/
noncomputable def insertion (ord : V → ℕ) (Edge : V → V → Prop) (x y : V) : Option (V → ℕ) :=
  if ReflTransGen Edge y x then none
  else if ord x < ord y then some ord
  else
    let B := ascending ord fun w => ReflTransGen Edge w x ∧ ord y < ord w
    let F := ascending ord fun w => ReflTransGen Edge y w ∧ ord w < ord x
    some (assign ord (B ++ F) (((B ++ F).map ord).insertionSort (· ≤ ·)))

/-- The nodes of a graph under keys. -/
structure Presents {K : Type} (key : V → K) (ord : V → ℕ) (Edge : V → V → Prop)
    (ordK : K → ℕ) (Node : K → Prop) (EdgeK : K → K → Prop) : Prop where
  inj : Injective key
  node : ∀ k, Node k ↔ ∃ v, key v = k
  edge : ∀ a b, EdgeK a b ↔ ∃ u v, Edge u v ∧ key u = a ∧ key v = b
  rank : ∀ v, ordK (key v) = ord v

namespace Presents

variable {K : Type} {key : V → K} {ord : V → ℕ} {Edge : V → V → Prop} {ordK : K → ℕ}
  {Node : K → Prop} {EdgeK : K → K → Prop} {x y : V}
variable (h : Presents key ord Edge ordK Node EdgeK)
include h

omit [Fintype V] in
theorem topological (hinj : Injective ord)
    (hlt : ∀ u v, Edge u v → ord u < ord v) : Topological ordK Node EdgeK := by
  constructor
  · intro a b ha hb heq
    obtain ⟨u, rfl⟩ := (h.node a).mp ha
    obtain ⟨v, rfl⟩ := (h.node b).mp hb
    rw [h.rank, h.rank] at heq
    rw [hinj heq]
  · intro a b hab
    obtain ⟨u, v, huv, rfl, rfl⟩ := (h.edge a b).mp hab
    rw [h.rank, h.rank]
    exact hlt u v huv
  · intro a b hab
    obtain ⟨u, v, huv, rfl, rfl⟩ := (h.edge a b).mp hab
    exact ⟨(h.node _).mpr ⟨u, rfl⟩, (h.node _).mpr ⟨v, rfl⟩⟩

omit [Fintype V] in
theorem reach_of_reach {u v : V}
    (huv : ReflTransGen Edge u v) : ReflTransGen EdgeK (key u) (key v) :=
  huv.lift key fun a b hab => (h.edge _ _).mpr ⟨a, b, hab, rfl, rfl⟩

omit [Fintype V] in
/-- What a key reaches is the key of a node that is reached. -/
theorem exists_reach {u : V} {k : K}
    (huk : ReflTransGen EdgeK (key u) k) : ∃ v, key v = k ∧ ReflTransGen Edge u v := by
  induction huk with
  | refl => exact ⟨u, rfl, .refl⟩
  | tail _ hstep ih =>
    obtain ⟨v, hv, hreach⟩ := ih
    obtain ⟨a, b, hab, ha, hb⟩ := (h.edge _ _).mp hstep
    obtain rfl : a = v := h.inj (ha.trans hv.symm)
    exact ⟨b, hb, hreach.tail hab⟩

omit [Fintype V] in
theorem reach_iff {u v : V} : ReflTransGen EdgeK (key u) (key v) ↔ ReflTransGen Edge u v := by
  refine ⟨fun huv => ?_, h.reach_of_reach⟩
  obtain ⟨w, hw, hreach⟩ := h.exists_reach huv
  exact h.inj hw ▸ hreach

/-- A sorted list of keys is determined by its members. -/
theorem eq_map_ascending (hinj : Injective ord)
    {P : V → Prop} {l : List K} (hl : l.Pairwise fun a b => ordK a < ordK b)
    (hmem : ∀ k, k ∈ l ↔ ∃ v, P v ∧ key v = k) : l = (ascending ord P).map key := by
  have hmap : ((ascending ord P).map key).Pairwise fun a b => ordK a < ordK b := by
    rw [List.pairwise_map]
    simp only [h.rank]
    exact ascending_sorted hinj P
  have hnodup : ∀ {l : List K}, (l.Pairwise fun a b => ordK a < ordK b) → l.Nodup :=
    fun hl => hl.imp fun hab heq => hab.ne (congrArg ordK heq)
  have hperm : l.Perm ((ascending ord P).map key) := by
    rw [List.perm_ext_iff_of_nodup (hnodup hl) (hnodup hmap)]
    intro k
    rw [hmem]
    simp
  exact hperm.eq_of_pairwise (fun a b _ _ hab hba => absurd hab hba.not_gt) hl hmap

theorem insertion_of_reach
    (hreach : ReflTransGen EdgeK (key y) (key x)) : insertion ord Edge x y = none := by
  rw [insertion, if_pos (h.reach_iff.mp hreach)]

theorem insertion_of_lt (ht : Topological ordK Node EdgeK) (hxy : ordK (key x) < ordK (key y)) :
    insertion ord Edge x y = some (ordK ∘ key) := by
  have hnot : ¬ReflTransGen Edge y x := fun hreach =>
    hxy.not_ge (ht.le_of_reach (h.reach_of_reach hreach))
  have hrank : ordK ∘ key = ord := funext h.rank
  rw [h.rank, h.rank] at hxy
  rw [insertion, if_neg hnot, if_pos hxy, hrank]

open Classical in
/-- The affected regions determine the new ranks. -/
theorem insertion_of_affected [DecidableEq K]
    (hinj : Injective ord) (ht : Topological ordK Node EdgeK) {B F : List K} {pool : List ℕ}
    (ha : Affected ordK Node EdgeK (key x) (key y) B F)
    (hF : ∀ f ∈ F, ReflTransGen EdgeK (key y) f) (hr : Redistribution ordK B F pool)
    (hyx : ordK (key y) < ordK (key x)) :
    insertion ord Edge x y = some (assign ordK (B ++ F) pool ∘ key) := by
  have hnot : ¬ReflTransGen Edge y x := fun hreach =>
    ha.not_reach ht (h.reach_of_reach hreach)
  have hBmap : B = (ascending ord fun w => ReflTransGen Edge w x ∧ ord y < ord w).map key := by
    apply h.eq_map_ascending hinj hr.sorted_left
    intro k
    constructor
    · intro hk
      obtain ⟨v, rfl⟩ := (h.node k).mp (ha.node_left k hk)
      have hbound := (ha.left_bounds _ hk).1
      rw [h.rank, h.rank] at hbound
      exact ⟨v, ⟨h.reach_iff.mp (ha.reach_of_mem_left ht hk), hbound⟩, rfl⟩
    · rintro ⟨v, ⟨hreach, hbound⟩, rfl⟩
      apply ha.mem_left_of_reach ht (h.reach_of_reach hreach)
      rw [h.rank, h.rank]
      exact hbound
  have hFmap : F = (ascending ord fun w => ReflTransGen Edge y w ∧ ord w < ord x).map key := by
    apply h.eq_map_ascending hinj hr.sorted_right
    intro k
    constructor
    · intro hk
      obtain ⟨v, rfl, hreach⟩ := h.exists_reach (hF k hk)
      have hbound := (ha.right_bounds _ hk).2
      rw [h.rank, h.rank] at hbound
      exact ⟨v, ⟨hreach, hbound⟩, rfl⟩
    · rintro ⟨v, ⟨hreach, hbound⟩, rfl⟩
      rcases ha.mem_right_of_reach ht (h.reach_of_reach hreach) with hmem | hgt
      · exact hmem
      · rw [h.rank, h.rank] at hgt
        exact absurd hgt hbound.not_gt
  have hrank : ordK ∘ key = ord := funext h.rank
  rw [h.rank, h.rank] at hyx
  rw [insertion, if_neg hnot, if_neg hyx.not_gt]
  generalize (ascending ord fun w => ReflTransGen Edge w x ∧ ord y < ord w) = Bv at hBmap ⊢
  generalize (ascending ord fun w => ReflTransGen Edge y w ∧ ord w < ord x) = Fv at hFmap ⊢
  have hpool : pool = ((Bv ++ Fv).map ord).insertionSort (· ≤ ·) := by
    have hperm : pool.Perm ((Bv ++ Fv).map ord) := by
      have := hr.pool_perm
      rwa [hBmap, hFmap, ← List.map_append, List.map_map, hrank] at this
    have hsorted : pool.Pairwise (· ≤ ·) := hr.pool_sorted.imp le_of_lt
    exact (hperm.trans (List.perm_insertionSort (· ≤ ·) _).symm).eq_of_pairwise' hsorted
      (List.pairwise_insertionSort _ _)
  rw [hBmap, hFmap, ← List.map_append, assign_map h.inj, hrank, hpool]

end Presents
end DagWorker.Rank
