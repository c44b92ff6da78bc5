import Mathlib.Data.Finset.Card
import Mathlib.Data.List.NodupEquivFin
import Mathlib.Data.List.Sort
import Mathlib.Logic.Relation

/-!
# Redistributing ranks

Two disjoint lists, each sorted by rank, are concatenated, and the ranks they occupy are
handed out again in increasing order.  The order inside either list is kept, ranks in the
first list do not grow and ranks in the second do not shrink.

`Affected` states what a search of a ranked graph has to deliver so that the new ranks
increase along every edge.  Nothing here depends on how the search is done.
-/

namespace DagWorker.Rank

open Function

variable {α : Type}
variable {i : ℕ} {b : α} {ord : α → ℕ} {l : List α} {vs : List ℕ}

/-! ## Sublists of an increasing list -/

/-- The `i`-th element of a sublist is at least the `i`-th of the list. -/
theorem le_of_sublist {P Q : List ℕ} (hP : P.Pairwise (· < ·)) (hQP : Q.Sublist P) {p q : ℕ}
    (hp : P[i]? = some p) (hq : Q[i]? = some q) : p ≤ q := by
  obtain ⟨f, hf⟩ := List.sublist_iff_exists_orderEmbedding_getElem?_eq.mp hQP
  have hfq : P[f i]? = some q := (hf i).symm.trans hq
  obtain ⟨hi, rfl⟩ := List.getElem?_eq_some_iff.mp hp
  obtain ⟨hfi, rfl⟩ := List.getElem?_eq_some_iff.mp hfq
  have hle : i ≤ f i := (Nat.le_add_right _ _).trans (StrictMono.add_le_nat f.strictMono i 0)
  rcases Nat.eq_or_lt_of_le hle with heq | hlt
  · exact le_of_eq (by congr 1)
  · exact (List.pairwise_iff_getElem.mp hP i (f i) hi hfi hlt).le

/-- Counted from the end, the elements of a sublist are at most those of the
list. -/
theorem ge_of_sublist {P Q : List ℕ} (hP : P.Pairwise (· < ·)) (hQP : Q.Sublist P) {d p q : ℕ}
    (hlen : P.length = d + Q.length) (hp : P[d + i]? = some p) (hq : Q[i]? = some q) : q ≤ p := by
  obtain ⟨f, hf⟩ := List.sublist_iff_exists_orderEmbedding_getElem?_eq.mp hQP
  have hfq : P[f i]? = some q := (hf i).symm.trans hq
  obtain ⟨hi, rfl⟩ := List.getElem?_eq_some_iff.mp hp
  obtain ⟨hfi, rfl⟩ := List.getElem?_eq_some_iff.mp hfq
  -- the last element of the sublist still lies inside the list
  have hlast : f (Q.length - 1) < P.length := by
    have hsome : (Q[Q.length - 1]?).isSome := by
      rw [List.getElem?_eq_getElem (by omega)]
      rfl
    rw [hf] at hsome
    exact (List.getElem?_eq_some_iff.mp (Option.some_get hsome).symm).1
  have hstep := StrictMono.add_le_nat f.strictMono (Q.length - 1 - i) i
  rw [show Q.length - 1 - i + i = Q.length - 1 by omega] at hstep
  have hle : f i ≤ d + i := by omega
  rcases Nat.eq_or_lt_of_le hle with heq | hlt
  · exact le_of_eq (by congr 1)
  · exact (List.pairwise_iff_getElem.mp hP (f i) (d + i) hfi hi hlt).le

theorem left_getElem? {B : List α} (F : List α) (hb : B[i]? = some b) : (B ++ F)[i]? = some b := by
  obtain ⟨hi, -⟩ := List.getElem?_eq_some_iff.mp hb
  rw [List.getElem?_append_left hi, hb]

theorem right_getElem? (B : List α) {F : List α} {f : α} (hf : F[i]? = some f) :
    (B ++ F)[B.length + i]? = some f := by
  rw [List.getElem?_append_right (Nat.le_add_right _ _), Nat.add_sub_cancel_left, hf]

/-- In a list sorted by rank, smaller ranks come first. -/
theorem index_lt_of_sorted (hl : l.Pairwise fun a b => ord a < ord b) {j : ℕ} {a : α}
    (ha : l[i]? = some a) (hb : l[j]? = some b) (hab : ord a < ord b) : i < j := by
  obtain ⟨hi, rfl⟩ := List.getElem?_eq_some_iff.mp ha
  obtain ⟨hj, rfl⟩ := List.getElem?_eq_some_iff.mp hb
  by_contra hle
  rcases Nat.eq_or_lt_of_le (not_lt.mp hle) with rfl | hlt
  · exact lt_irrefl _ hab
  · exact lt_asymm hab (List.pairwise_iff_getElem.mp hl j i hj hi hlt)

/-! ## Handing out ranks -/

section Assign

variable [DecidableEq α]

def assign (ord : α → ℕ) : List α → List ℕ → α → ℕ
  | n :: ns, v :: vs => assign (update ord n v) ns vs
  | _, _ => ord

theorem assign_of_notMem {ord : α → ℕ} {ns : List α} {n : α} (hn : n ∉ ns) :
    assign ord ns vs n = ord n := by
  induction ns generalizing ord vs with
  | nil => rfl
  | cons m ns ih =>
    rw [List.mem_cons, not_or] at hn
    cases vs with
    | nil => rfl
    | cons v vs => rw [assign, ih hn.2, update_of_ne hn.1]

theorem assign_getElem? {ord : α → ℕ} {ns : List α} {n : α} {v : ℕ} (hnd : ns.Nodup)
    (hn : ns[i]? = some n) (hv : vs[i]? = some v) : assign ord ns vs n = v := by
  induction ns generalizing ord vs i with
  | nil => simp at hn
  | cons m ns ih =>
    rw [List.nodup_cons] at hnd
    cases vs with
    | nil => simp at hv
    | cons w vs =>
      rw [assign]
      cases i with
      | zero =>
        simp only [List.getElem?_cons_zero, Option.some.injEq] at hn hv
        subst hn hv
        rw [assign_of_notMem hnd.1, update_self]
      | succ i =>
        exact ih hnd.2 hn hv

end Assign

/-! ## Redistribution -/

/-- The data of a redistribution: two disjoint lists sorted by rank, and the
ranks they occupy in increasing order. -/
structure Redistribution (ord : α → ℕ) (B F : List α) (pool : List ℕ) : Prop where
  nodup : (B ++ F).Nodup
  sorted_left : B.Pairwise fun a b => ord a < ord b
  sorted_right : F.Pairwise fun a b => ord a < ord b
  pool_perm : pool.Perm ((B ++ F).map ord)
  pool_sorted : pool.Pairwise (· < ·)

namespace Redistribution

variable {ord : α → ℕ} {B F : List α} {pool : List ℕ} (hr : Redistribution ord B F pool)
include hr

theorem length_pool : pool.length = (B ++ F).length := by
  rw [hr.pool_perm.length_eq, List.length_map]

/-- The old ranks of either list form a sublist of the pool. -/
theorem map_sublist (hl : l.Sublist (B ++ F)) (hsorted : l.Pairwise fun a b => ord a < ord b) :
    (l.map ord).Sublist pool := by
  refine List.sublist_of_subperm_of_pairwise (r := (· ≤ ·)) ?_ ?_ ?_
  · exact ((hl.map ord).subperm).trans hr.pool_perm.symm.subperm
  · exact (List.pairwise_map.mpr hsorted).imp le_of_lt
  · exact hr.pool_sorted.imp le_of_lt

variable [DecidableEq α]

/-- The new rank of the element in position `i`. -/
theorem rank_getElem? {n : α} (hn : (B ++ F)[i]? = some n) :
    pool[i]? = some (assign ord (B ++ F) pool n) := by
  obtain ⟨hi, -⟩ := List.getElem?_eq_some_iff.mp hn
  have hlt : i < pool.length := hr.length_pool ▸ hi
  rw [List.getElem?_eq_getElem hlt,
    assign_getElem? hr.nodup hn (List.getElem?_eq_getElem hlt)]

theorem rank_lt {j : ℕ} {m n : α} (hm : (B ++ F)[i]? = some m) (hn : (B ++ F)[j]? = some n)
    (hij : i < j) : assign ord (B ++ F) pool m < assign ord (B ++ F) pool n := by
  obtain ⟨hi, hvi⟩ := List.getElem?_eq_some_iff.mp (hr.rank_getElem? hm)
  obtain ⟨hj, hvj⟩ := List.getElem?_eq_some_iff.mp (hr.rank_getElem? hn)
  rw [← hvi, ← hvj]
  exact List.pairwise_iff_getElem.mp hr.pool_sorted i j hi hj hij

theorem rank_mem {n : α} (hn : n ∈ B ++ F) : assign ord (B ++ F) pool n ∈ pool := by
  obtain ⟨i, hi⟩ := List.mem_iff_getElem?.mp hn
  exact List.mem_of_getElem? (hr.rank_getElem? hi)

/-- The ranks handed out are the old ranks of the listed elements. -/
theorem exists_rank {n : α} (hn : n ∈ B ++ F) :
    ∃ m ∈ B ++ F, assign ord (B ++ F) pool n = ord m := by
  have hmem := hr.pool_perm.mem_iff.mp (hr.rank_mem hn)
  obtain ⟨m, hm, heq⟩ := List.mem_map.mp hmem
  exact ⟨m, hm, heq.symm⟩

theorem rank_inj {m n : α} (hm : m ∈ B ++ F) (hn : n ∈ B ++ F)
    (heq : assign ord (B ++ F) pool m = assign ord (B ++ F) pool n) : m = n := by
  obtain ⟨i, hi⟩ := List.mem_iff_getElem?.mp hm
  obtain ⟨j, hj⟩ := List.mem_iff_getElem?.mp hn
  rcases Nat.lt_trichotomy i j with hij | rfl | hij
  · exact absurd heq (hr.rank_lt hi hj hij).ne
  · exact Option.mem_unique hi hj
  · exact absurd heq.symm (hr.rank_lt hj hi hij).ne

/-- Every element of the first list now precedes every element of the second. -/
theorem left_lt_right {b f : α} (hb : b ∈ B) (hf : f ∈ F) :
    assign ord (B ++ F) pool b < assign ord (B ++ F) pool f := by
  obtain ⟨i, hi⟩ := List.mem_iff_getElem?.mp hb
  obtain ⟨j, hj⟩ := List.mem_iff_getElem?.mp hf
  obtain ⟨hlt, -⟩ := List.getElem?_eq_some_iff.mp hi
  exact hr.rank_lt (left_getElem? F hi) (right_getElem? B hj) (by omega)

theorem left_mono {a b : α} (ha : a ∈ B) (hb : b ∈ B) (hab : ord a < ord b) :
    assign ord (B ++ F) pool a < assign ord (B ++ F) pool b := by
  obtain ⟨i, hi⟩ := List.mem_iff_getElem?.mp ha
  obtain ⟨j, hj⟩ := List.mem_iff_getElem?.mp hb
  have hij := index_lt_of_sorted hr.sorted_left hi hj hab
  exact hr.rank_lt (left_getElem? F hi) (left_getElem? F hj) hij

theorem right_mono {a b : α} (ha : a ∈ F) (hb : b ∈ F) (hab : ord a < ord b) :
    assign ord (B ++ F) pool a < assign ord (B ++ F) pool b := by
  obtain ⟨i, hi⟩ := List.mem_iff_getElem?.mp ha
  obtain ⟨j, hj⟩ := List.mem_iff_getElem?.mp hb
  have hij := index_lt_of_sorted hr.sorted_right hi hj hab
  exact hr.rank_lt (right_getElem? B hi) (right_getElem? B hj) (by omega)

theorem left_le {b : α} (hb : b ∈ B) : assign ord (B ++ F) pool b ≤ ord b := by
  obtain ⟨i, hi⟩ := List.mem_iff_getElem?.mp hb
  have hsub := hr.map_sublist (List.sublist_append_left B F) hr.sorted_left
  exact le_of_sublist hr.pool_sorted hsub (hr.rank_getElem? (left_getElem? F hi))
    (by simp [hi])

theorem le_right {f : α} (hf : f ∈ F) : ord f ≤ assign ord (B ++ F) pool f := by
  obtain ⟨i, hi⟩ := List.mem_iff_getElem?.mp hf
  have hsub := hr.map_sublist (List.sublist_append_right B F) hr.sorted_right
  have hlen : pool.length = B.length + (F.map ord).length := by
    rw [hr.length_pool, List.length_append, List.length_map]
  exact ge_of_sublist hr.pool_sorted hsub hlen (hr.rank_getElem? (right_getElem? B hi))
    (by simp [hi])

end Redistribution

/-! ## Ranked graphs -/

/-- Ranks that are distinct on the nodes of a graph and increase along its
edges. -/
structure Topological (ord : α → ℕ) (Node : α → Prop) (Edge : α → α → Prop) : Prop where
  inj : ∀ u v, Node u → Node v → ord u = ord v → u = v
  lt : ∀ u v, Edge u v → ord u < ord v
  nodes : ∀ u v, Edge u v → Node u ∧ Node v

theorem Topological.acyclic {ord : α → ℕ} {Node : α → Prop} {Edge : α → α → Prop}
    (h : Topological ord Node Edge) (u : α) : ¬Relation.TransGen Edge u u := by
  intro hcycle
  have hlt : Relation.TransGen (· < ·) (ord u) (ord u) := hcycle.lift ord h.lt
  rw [Relation.transGen_eq_self] at hlt
  exact lt_irrefl _ hlt

/-- The two regions between the endpoints of a new edge from `x` to `y`: `F` is
what `y` reaches below `x`, without meeting `x`, and `B` is what reaches `x`
above `y`. -/
structure Affected (ord : α → ℕ) (Node : α → Prop) (Edge : α → α → Prop) (x y : α)
    (B F : List α) : Prop where
  mem_left : x ∈ B
  mem_right : y ∈ F
  node_left : ∀ b ∈ B, Node b
  node_right : ∀ f ∈ F, Node f
  left_bounds : ∀ b ∈ B, ord y < ord b ∧ ord b ≤ ord x
  right_bounds : ∀ f ∈ F, ord y ≤ ord f ∧ ord f < ord x
  left_closed : ∀ b ∈ B, ∀ w, Edge w b → ord y < ord w → w ∈ B
  left_chain : ∀ b ∈ B, b = x ∨ ∃ c ∈ B, Edge b c
  right_closed : ∀ f ∈ F, ∀ w, Edge f w → ord w ≠ ord x ∧ (ord w < ord x → w ∈ F)

def byRank (ord : α → ℕ) (l : List α) : List α := l.insertionSort fun a b => ord a ≤ ord b

theorem byRank_perm (ord : α → ℕ) (l : List α) : (byRank ord l).Perm l :=
  List.perm_insertionSort _ _

theorem byRank_congr {ord' : α → ℕ} (h : ∀ w ∈ l, ord w = ord' w) : byRank ord l = byRank ord' l := by
  have hsort := List.map_insertionSort (fun a b => ord a ≤ ord b) (fun a b => ord' a ≤ ord' b) id l
    fun a ha b hb => by rw [h a ha, h b hb, id, id]
  rwa [List.map_id, List.map_id] at hsort

theorem byRank_sorted {Node : α → Prop} {Edge : α → α → Prop} (ht : Topological ord Node Edge)
    (hnd : l.Nodup) (hnode : ∀ w ∈ l, Node w) :
    (byRank ord l).Pairwise fun a b => ord a < ord b := by
  have hperm := byRank_perm ord l
  have hle : (byRank ord l).Pairwise fun a b => ord a ≤ ord b :=
    List.pairwise_insertionSort (fun a b => ord a ≤ ord b) l
  refine (hle.and (hperm.nodup_iff.mpr hnd)).imp_of_mem ?_
  intro a b ha hb hab
  refine lt_of_le_of_ne hab.1 fun heq => hab.2 ?_
  exact ht.inj a b (hnode a (hperm.mem_iff.mp ha)) (hnode b (hperm.mem_iff.mp hb)) heq

namespace Affected

variable {ord : α → ℕ} {Node : α → Prop} {Edge : α → α → Prop} {x y : α} {B F : List α}
  {pool : List ℕ}

/-- The order in which the regions are listed does not matter. -/
theorem perm {B' F' : List α} (h : Affected ord Node Edge x y B F) (hB : B'.Perm B)
    (hF : F'.Perm F) : Affected ord Node Edge x y B' F' := by
  obtain ⟨h₁, h₂, h₃, h₄, h₅, h₆, h₇, h₈, h₉⟩ := h
  constructor <;> simp only [hB.mem_iff, hF.mem_iff] <;> assumption

theorem node {n : α} (ha : Affected ord Node Edge x y B F) (hn : n ∈ B ++ F) : Node n := by
  rcases List.mem_append.mp hn with hn | hn
  · exact ha.node_left n hn
  · exact ha.node_right n hn

/-- The regions are disjoint: a common element would lie on a path from `y` to
`x`, and following it the forward region would run into `x`. -/
theorem disjoint (ha : Affected ord Node Edge x y B F) (ht : Topological ord Node Edge)
    (hb : b ∈ B) : b ∉ F := by
  -- induction on the distance in rank to `x`
  induction hd : ord x - ord b using Nat.strong_induction_on generalizing b with
  | h d ih =>
    intro hbF
    rcases ha.left_chain b hb with rfl | ⟨c, hc, hbc⟩
    · exact lt_irrefl _ (ha.right_bounds b hbF).2
    have hlt := ht.lt b c hbc
    have hcx := (ha.left_bounds c hc).2
    obtain ⟨hne, hmem⟩ := ha.right_closed b hbF c hbc
    exact ih (ord x - ord c) (by omega) hc rfl (hmem (lt_of_le_of_ne hcx hne))

/-- Sorting the regions by rank, and the ranks they occupy, gives a redistribution. -/
theorem redistribution (ha : Affected ord Node Edge x y B F) (ht : Topological ord Node Edge)
    (hB : B.Nodup) (hF : F.Nodup) :
    Redistribution ord (byRank ord B) (byRank ord F)
      (((byRank ord B ++ byRank ord F).map ord).insertionSort (· ≤ ·)) := by
  have hperm : (byRank ord B ++ byRank ord F).Perm (B ++ F) :=
    (byRank_perm ord B).append (byRank_perm ord F)
  have hnode : ∀ w ∈ byRank ord B ++ byRank ord F, Node w := fun w hw =>
    ha.node (hperm.mem_iff.mp hw)
  have hnd : (byRank ord B ++ byRank ord F).Nodup := by
    rw [hperm.nodup_iff, List.nodup_append]
    refine ⟨hB, hF, ?_⟩
    rintro a hab b hb rfl
    exact ha.disjoint ht hab hb
  have hpool : (((byRank ord B ++ byRank ord F).map ord).insertionSort (· ≤ ·)).Perm
      ((byRank ord B ++ byRank ord F).map ord) := List.perm_insertionSort _ _
  refine ⟨hnd, byRank_sorted ht hB ha.node_left, byRank_sorted ht hF ha.node_right, hpool, ?_⟩
  have hle := List.pairwise_insertionSort (· ≤ ·) ((byRank ord B ++ byRank ord F).map ord)
  have hndmap : ((byRank ord B ++ byRank ord F).map ord).Nodup :=
    List.Nodup.map_on (fun a ha b hb heq => ht.inj a b (hnode a ha) (hnode b hb) heq) hnd
  exact (hle.and (hpool.nodup_iff.mpr hndmap)).imp fun h => lt_of_le_of_ne h.1 h.2

variable [DecidableEq α] (ha : Affected ord Node Edge x y B F)
  (ht : Topological ord Node Edge) (hr : Redistribution ord B F pool)
include ha ht hr

omit ht in
/-- Every rank handed out lies between the ranks of the endpoints. -/
theorem rank_bounds {n : α} (hn : n ∈ B ++ F) :
    ord y ≤ assign ord (B ++ F) pool n ∧ assign ord (B ++ F) pool n ≤ ord x := by
  obtain ⟨m, hm, heq⟩ := hr.exists_rank hn
  rw [heq]
  rcases List.mem_append.mp hm with hm | hm
  · exact ⟨(ha.left_bounds m hm).1.le, (ha.left_bounds m hm).2⟩
  · exact ⟨(ha.right_bounds m hm).1, (ha.right_bounds m hm).2.le⟩

/-- The redistributed ranks increase along every old edge. -/
theorem edge_lt {u v : α} (huv : Edge u v) :
    assign ord (B ++ F) pool u < assign ord (B ++ F) pool v := by
  have hlt := ht.lt u v huv
  by_cases huB : u ∈ B
  · by_cases hvB : v ∈ B
    · exact hr.left_mono huB hvB hlt
    by_cases hvF : v ∈ F
    · exact hr.left_lt_right huB hvF
    · rw [assign_of_notMem (n := v) (by simp [hvB, hvF])]
      exact lt_of_le_of_lt (hr.left_le huB) hlt
  · by_cases huF : u ∈ F
    · obtain ⟨hne, hmem⟩ := ha.right_closed u huF v huv
      by_cases hvF : v ∈ F
      · exact hr.right_mono huF hvF hlt
      have hvx : ord x < ord v :=
        lt_of_le_of_ne (not_lt.mp fun h => hvF (hmem h)) (Ne.symm hne)
      have hvB : v ∉ B := fun h => absurd (ha.left_bounds v h).2 (not_le.mpr hvx)
      rw [assign_of_notMem (n := v) (by simp [hvB, hvF])]
      exact lt_of_le_of_lt (ha.rank_bounds hr (by simp [huF])).2 hvx
    · have hu : assign ord (B ++ F) pool u = ord u :=
        assign_of_notMem (by simp [huB, huF])
      rw [hu]
      by_cases hvB : v ∈ B
      · have hle : ord u ≤ ord y := not_lt.mp fun h => huB (ha.left_closed v hvB u huv h)
        have hne : ord u ≠ ord y := fun heq =>
          huF (ht.inj u y (ht.nodes u v huv).1 (ha.node_right y ha.mem_right) heq ▸ ha.mem_right)
        exact lt_of_lt_of_le (lt_of_le_of_ne hle hne)
          (ha.rank_bounds hr (by simp [hvB])).1
      · by_cases hvF : v ∈ F
        · exact lt_of_lt_of_le hlt (hr.le_right hvF)
        · rw [assign_of_notMem (n := v) (by simp [hvB, hvF])]
          exact hlt

omit ht in
theorem new_edge_lt : assign ord (B ++ F) pool x < assign ord (B ++ F) pool y :=
  hr.left_lt_right ha.mem_left ha.mem_right

theorem rank_inj {u v : α} (hu : Node u) (hv : Node v)
    (heq : assign ord (B ++ F) pool u = assign ord (B ++ F) pool v) : u = v := by
  -- a rank handed out belonged to a listed element
  have hmixed : ∀ {m n : α}, m ∈ B ++ F → n ∉ B ++ F → Node n →
      assign ord (B ++ F) pool m ≠ assign ord (B ++ F) pool n := by
    intro m n hm hn hnode h
    obtain ⟨k, hk, hkeq⟩ := hr.exists_rank hm
    rw [assign_of_notMem hn, hkeq] at h
    exact hn (ht.inj k n (ha.node hk) hnode h ▸ hk)
  by_cases hu' : u ∈ B ++ F
  · by_cases hv' : v ∈ B ++ F
    · exact hr.rank_inj hu' hv' heq
    · exact absurd heq (hmixed hu' hv' hv)
  by_cases hv' : v ∈ B ++ F
  · exact absurd heq.symm (hmixed hv' hu' hu)
  · rw [assign_of_notMem hu', assign_of_notMem hv'] at heq
    exact ht.inj u v hu hv heq

omit ht in
/-- A bound on the ranks of the nodes remains one. -/
theorem rank_le {m : ℕ} (hle : ∀ n, Node n → ord n ≤ m) {u : α} (hu : Node u) :
    assign ord (B ++ F) pool u ≤ m := by
  by_cases hmem : u ∈ B ++ F
  · exact (ha.rank_bounds hr hmem).2.trans (hle x (ha.node_left x ha.mem_left))
  · rw [assign_of_notMem hmem]
    exact hle u hu

end Affected

/-! ## Reachability -/

section Reach

open Relation (ReflTransGen)

variable {ord : α → ℕ} {Node : α → Prop} {Edge : α → α → Prop} {x y : α} {B F : List α}
  {pool : List ℕ}

theorem Topological.le_of_reach (ht : Topological ord Node Edge) {u v : α}
    (huv : ReflTransGen Edge u v) : ord u ≤ ord v := by
  induction huv with
  | refl => exact le_rfl
  | tail _ hstep ih => exact ih.trans (ht.lt _ _ hstep).le

namespace Affected

section

variable (ha : Affected ord Node Edge x y B F)
include ha

/-- What `y` reaches is in the forward region or beyond `x`. -/
theorem mem_right_of_reach (ht : Topological ord Node Edge) {w : α} (hw : ReflTransGen Edge y w) :
    w ∈ F ∨ ord x < ord w := by
  induction hw with
  | refl => exact .inl ha.mem_right
  | tail _ hstep ih =>
    rcases ih with hmem | hgt
    · obtain ⟨hne, hbelow⟩ := ha.right_closed _ hmem _ hstep
      rcases lt_or_gt_of_ne hne with hlt | hgt
      · exact .inl (hbelow hlt)
      · exact .inr hgt
    · exact .inr (hgt.trans (ht.lt _ _ hstep))

/-- A forward region exists only if the new edge closes no cycle. -/
theorem not_reach (ht : Topological ord Node Edge) : ¬ReflTransGen Edge y x := by
  intro hreach
  rcases ha.mem_right_of_reach ht hreach with hmem | hlt
  · exact lt_irrefl _ (ha.right_bounds x hmem).2
  · exact lt_irrefl _ hlt

theorem reach_of_mem_left (ht : Topological ord Node Edge) (hb : b ∈ B) :
    ReflTransGen Edge b x := by
  -- induction on the distance in rank to `x`
  induction hd : ord x - ord b using Nat.strong_induction_on generalizing b with
  | h d ih =>
    rcases ha.left_chain b hb with rfl | ⟨c, hc, hbc⟩
    · exact .refl
    · have hlt := ht.lt b c hbc
      have hcx := (ha.left_bounds c hc).2
      exact .head hbc (ih (ord x - ord c) (by omega) hc rfl)

theorem mem_left_of_reach (ht : Topological ord Node Edge) {w : α} (hw : ReflTransGen Edge w x)
    (hlt : ord y < ord w) : w ∈ B := by
  induction hw using ReflTransGen.head_induction_on with
  | refl => exact ha.mem_left
  | head hstep _ ih => exact ha.left_closed _ (ih (hlt.trans (ht.lt _ _ hstep))) _ hstep hlt

end

end Affected

/-! ## What an accepted edge does to the ranks -/

/-- New ranks for the nodes `N` of a graph that allow for an edge from `x` to `y`. -/
structure Accepts (ord ord' : α → ℕ) (N : Finset α) (Edge : α → α → Prop) (x y : α) :
    Prop where
  inj : ∀ u ∈ N, ∀ v ∈ N, ord' u = ord' v → u = v
  edge : ∀ u v, Edge u v → ord' u < ord' v
  new_edge : ord' x < ord' y
  values : N.val.map ord' = N.val.map ord
  moved : ∀ n, ord' n ≠ ord n → n ∈ N ∧ ord y ≤ ord n ∧ ord n ≤ ord x

theorem Topological.accepts {N : Finset α} (ht : Topological ord (· ∈ N) Edge)
    (hlt : ord x < ord y) : Accepts ord ord N Edge x y :=
  ⟨fun u hu v hv => ht.inj u v hu hv, ht.lt, hlt, rfl, fun _ h => absurd rfl h⟩

variable [DecidableEq α]

/-- Redistributed ranks take the same values. -/
theorem Affected.map_assign {N : Finset α} (ha : Affected ord (· ∈ N) Edge x y B F)
    (ht : Topological ord (· ∈ N) Edge) (hr : Redistribution ord B F pool) :
    N.val.map (assign ord (B ++ F) pool) = N.val.map ord := by
  have hinj : Set.InjOn (assign ord (B ++ F) pool) N :=
    fun u hu v hv heq => ha.rank_inj ht hr hu hv heq
  have hinj₀ : Set.InjOn ord N := fun u hu v hv heq => ht.inj u v hu hv heq
  have hsub : N.image (assign ord (B ++ F) pool) ⊆ N.image ord := by
    intro r hrank
    obtain ⟨n, hn, rfl⟩ := Finset.mem_image.mp hrank
    by_cases hmem : n ∈ B ++ F
    · obtain ⟨m, hm, heq⟩ := hr.exists_rank hmem
      rw [heq]
      exact Finset.mem_image_of_mem _ (ha.node hm)
    · rw [assign_of_notMem hmem]
      exact Finset.mem_image_of_mem _ hn
  have himage : N.image (assign ord (B ++ F) pool) = N.image ord := by
    apply Finset.eq_of_subset_of_card_le hsub
    rw [Finset.card_image_of_injOn hinj, Finset.card_image_of_injOn hinj₀]
  rw [← Finset.image_val_of_injOn hinj, ← Finset.image_val_of_injOn hinj₀, himage]

theorem Affected.accepts {N : Finset α} (ha : Affected ord (· ∈ N) Edge x y B F)
    (ht : Topological ord (· ∈ N) Edge) (hr : Redistribution ord B F pool) :
    Accepts ord (assign ord (B ++ F) pool) N Edge x y := by
  constructor
  · exact fun u hu v hv heq => ha.rank_inj ht hr hu hv heq
  · exact fun u v huv => ha.edge_lt ht hr huv
  · exact ha.new_edge_lt hr
  · exact ha.map_assign ht hr
  intro n hne
  have hmem : n ∈ B ++ F := by
    by_contra hnot
    exact hne (assign_of_notMem hnot)
  rcases List.mem_append.mp hmem with hB | hF
  · exact ⟨ha.node_left n hB, (ha.left_bounds n hB).1.le, (ha.left_bounds n hB).2⟩
  · exact ⟨ha.node_right n hF, (ha.right_bounds n hF).1, (ha.right_bounds n hF).2.le⟩

end Reach
end DagWorker.Rank
