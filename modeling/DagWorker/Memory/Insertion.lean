import DagWorker.Memory.Order
import DagWorker.Support.Insertion
import Mathlib.Data.List.Chain

/-!
# Exact edge insertion

`addEdgeOrder` reports a cycle exactly when the edge would close one, and the path it
reports is made of edges of the graph.  Otherwise the new ranks are the old values,
handed out again between the endpoints of the edge, as `Rank.insertion` has them.
-/

namespace DagWorker.Memory.Scope

open Function
open Relation (ReflTransGen)

variable {path : List ℕ}

/-! ## Reading a path back -/

/-- `path` leads from `u` to `v` along edges. -/
structure Leads (Edge : ℕ → ℕ → Prop) (u v : ℕ) (path : List ℕ) : Prop where
  head : path.head? = some u
  last : path.getLast? = some v
  chain : path.IsChain Edge

theorem Leads.reach {Edge : ℕ → ℕ → Prop} {u v : ℕ} (h : Leads Edge u v path) :
    ReflTransGen Edge u v := by
  obtain ⟨hhead, hlast, hchain⟩ := h
  cases path with
  | nil => simp at hhead
  | cons w path =>
    obtain rfl : w = u := by simpa using hhead
    apply List.relationReflTransGen_of_exists_isChain_cons path hchain
    exact Option.some.inj hlast

/-- Every node of `seen` is the root or has a parent in `seen` with an edge to it. -/
def Rooted (Edge : ℕ → ℕ → Prop) (root : ℕ) (parent : ℕ → Option ℕ) (seen : List ℕ) : Prop :=
  ∀ w ∈ seen, w = root ∨ ∃ p ∈ seen, parent w = some p ∧ Edge p w

variable {Edge : ℕ → ℕ → Prop} {ord : ℕ → ℕ} {root : ℕ} {parent : ℕ → Option ℕ}
  {seen : List ℕ}

/-- Walking the parents back from a node of `seen` puts a path in front of `rev`.  The ranks
decrease, so the number of nodes seen is enough fuel. -/
theorem traceLoop_leads (hlt : ∀ u v, Edge u v → ord u < ord v)
    (hroot : Rooted Edge root parent seen) {fuel n : ℕ} (hn : n ∈ seen) (rev : List ℕ)
    (hfuel : (seen.toFinset.filter (ord · ≤ ord n)).card ≤ fuel)
    (hchain : (n :: rev).IsChain Edge) :
    ∃ path, traceLoop parent root fuel n rev = path ++ rev ∧ path.head? = some root ∧
      (path ++ rev).IsChain Edge := by
  have hmem : ∀ k ∈ seen, k ∈ seen.toFinset.filter (ord · ≤ ord k) := fun k hk =>
    Finset.mem_filter.mpr ⟨List.mem_toFinset.mpr hk, le_rfl⟩
  induction fuel generalizing n rev with
  | zero =>
    have hempty := Finset.card_eq_zero.mp (Nat.le_zero.mp hfuel)
    exact absurd (hempty ▸ hmem n hn) (Finset.notMem_empty n)
  | succ fuel ih =>
    rw [traceLoop]
    split
    · rename_i heq
      exact ⟨[n], rfl, by simp [heq], hchain⟩
    rename_i hne
    obtain ⟨p, hp, hparent, hedge⟩ := (hroot n hn).resolve_left hne
    have hless := hlt p n hedge
    have hsub : seen.toFinset.filter (ord · ≤ ord p) ⊂
        seen.toFinset.filter (ord · ≤ ord n) := by
      apply (Finset.ssubset_iff_of_subset _).mpr ⟨n, hmem n hn, _⟩
      · exact Finset.monotone_filter_right _ fun _ _ hle => hle.trans hless.le
      · exact fun h => hless.not_ge (Finset.mem_filter.mp h).2
    have hcard := Finset.card_lt_card hsub
    obtain ⟨path, heq, hhead, hpath⟩ := ih hp (n :: rev) (by omega)
      (List.isChain_cons_cons.mpr ⟨hedge, hchain⟩)
    rw [hparent]
    refine ⟨path ++ [n], by simp [heq], ?_, by simpa using hpath⟩
    rw [List.head?_append, hhead]
    rfl

theorem traceLoop_new (hlt : ∀ u v, Edge u v → ord u < ord v)
    (hroot : Rooted Edge root parent seen) {n w : ℕ} (hn : n ∈ seen) (hedge : Edge n w)
    (hw : w ∉ seen) (hne : w ≠ root) :
    Leads Edge root w
      (traceLoop (update parent w (some n)) root (seen.length + 1) w []) := by
  have hroot' : Rooted Edge root (update parent w (some n)) seen := by
    intro k hk
    have hkw : k ≠ w := fun heq => hw (heq ▸ hk)
    rw [update_of_ne hkw]
    exact hroot k hk
  have hfuel : (seen.toFinset.filter (ord · ≤ ord n)).card ≤ seen.length :=
    (Finset.card_filter_le _ _).trans (List.toFinset_card_le seen)
  obtain ⟨path, heq, hhead, hchain⟩ := traceLoop_leads hlt hroot' hn [w] hfuel
    (List.isChain_pair.mpr hedge)
  rw [traceLoop, if_neg hne, update_self]
  simp only [heq]
  exact ⟨by simp [hhead], by simp, hchain⟩

/-! ## The forward search -/

section Forward

variable {s : Scope} {x y ub : ℕ}

/-- What a part of the forward search for `x` does: it either ends with a path from `y`,
or goes on and keeps the parents of all nodes seen. -/
structure Traces (s : Scope) (x y ub : ℕ) (st : Search) (r : Search × Bool) : Prop where
  found : r.2 = true → ∃ path, r.1.cycle = some path ∧ Leads s.Arc y x path
  rooted : r.2 = false → Rooted s.Arc y r.1.parent r.1.seen
  below : r.2 = false → ∀ w ∈ r.1.seen, s.ord w < ub
  mono : r.2 = false → ∀ w ∈ st.seen, w ∈ r.1.seen
  cycle : r.2 = false → r.1.cycle = st.cycle

theorem forwardLoop_traces (hlt : ∀ u v, s.Arc u v → s.ord u < s.ord v)
    (hub : ∀ u v, s.Arc u v → s.ord v = ub → v = x) (hy : s.ord y < ub)
    {walk : ℕ → Search → Search × Bool} {n : ℕ} {ws : List ℕ} {st : Search}
    (hwalk : ∀ w ∈ ws, ∀ a : Search, w ∉ a.seen → s.ord w < ub →
      Rooted s.Arc y a.parent (w :: a.seen) → (∀ k ∈ a.seen, s.ord k < ub) →
      s.Traces x y ub a (walk w a))
    (hws : ∀ w ∈ ws, s.Arc n w) (hn : n ∈ st.seen)
    (hroot : Rooted s.Arc y st.parent st.seen) (hbelow : ∀ k ∈ st.seen, s.ord k < ub) :
    s.Traces x y ub st (forwardLoop s y ub walk n ws st) := by
  induction ws generalizing st with
  | nil =>
    simp only [forwardLoop]
    exact ⟨by simp, fun _ => hroot, fun _ => hbelow, fun _ w hw => hw, fun _ => rfl⟩
  | cons w ws ih =>
    have hnw := hws w (.head _)
    have hwalk' := fun k hk => hwalk k (List.mem_cons_of_mem w hk)
    have hws' := fun k hk => hws k (List.mem_cons_of_mem w hk)
    rw [forwardLoop]
    split
    · rename_i heq
      have hseen : w ∉ st.seen := fun hmem => (hbelow w hmem).ne heq
      have hne : w ≠ y := fun hwy => hy.ne (hwy ▸ heq)
      obtain rfl := hub n w hnw heq
      exact ⟨fun _ => ⟨_, rfl, traceLoop_new hlt hroot hn hnw hseen hne⟩, by simp, by simp,
        by simp, by simp⟩
    · split
      · rename_i hvisit
        obtain ⟨hseen, hlow⟩ := hvisit
        have hroot' : Rooted s.Arc y (update st.parent w (some n)) (w :: st.seen) := by
          intro k hk
          by_cases hkw : k = w
          · subst hkw
            exact .inr ⟨n, List.mem_cons_of_mem k hn, update_self .., hnw⟩
          rw [update_of_ne hkw]
          rcases hroot k ((List.mem_cons.mp hk).resolve_left hkw) with hroot | ⟨p, hp, h⟩
          · exact .inl hroot
          · exact .inr ⟨p, List.mem_cons_of_mem w hp, h⟩
        have hcall := hwalk w (.head _)
          { st with parent := update st.parent w (some n) } hseen hlow hroot' hbelow
        split
        · rename_i st₁ heq
          rw [heq] at hcall
          exact ⟨hcall.found, by simp, by simp, by simp, by simp⟩
        rename_i st₁ heq
        rw [heq] at hcall
        have hmono := hcall.mono rfl
        have hrest := ih hwalk' hws' (hmono n hn) (hcall.rooted rfl) (hcall.below rfl)
        exact ⟨hrest.found, hrest.rooted, hrest.below,
          fun h k hk => hrest.mono h k (hmono k hk),
          fun h => (hrest.cycle h).trans (hcall.cycle rfl)⟩
      · exact ih hwalk' hws' hn hroot hbelow

theorem forwardWalk_traces (hlt : ∀ u v, s.Arc u v → s.ord u < s.ord v)
    (hub : ∀ u v, s.Arc u v → s.ord v = ub → v = x) (hy : s.ord y < ub) {fuel n : ℕ}
    (st : Search) (hfuel : ub - s.ord n ≤ fuel) (hn : s.ord n < ub)
    (hroot : Rooted s.Arc y st.parent (n :: st.seen)) (hbelow : ∀ k ∈ st.seen, s.ord k < ub) :
    s.Traces x y ub st (forwardWalk s y ub fuel n st) := by
  induction fuel generalizing n st with
  | zero => omega
  | succ fuel ih =>
    have hloop : s.Traces x y ub (st.enter n)
        (forwardLoop s y ub (forwardWalk s y ub fuel) n (s.succ n) (st.enter n)) := by
      apply forwardLoop_traces hlt hub hy _ (fun _ hw => hw) (.head _) hroot
      · intro k hk
        rcases List.mem_cons.mp hk with rfl | hk
        · exact hn
        · exact hbelow k hk
      · intro w hw a _ hlow hroota hbelowa
        have := hlt n w hw
        exact ih a (by omega) hlow hroota hbelowa
    exact ⟨hloop.found, hloop.rooted, hloop.below,
      fun h k hk => hloop.mono h k (List.mem_cons_of_mem n hk), hloop.cycle⟩

theorem forwardSearch_leads {Node : ℕ → Prop} (hg : s.Ordered Node) (hx : Node x)
    (hlt : s.ord y < s.ord x) (hpath : (s.forwardSearch y (s.ord x)).cycle = some path) :
    Leads s.Arc y x path := by
  have hwalk := forwardWalk_traces (x := x) hg.topological.lt
    (fun u v huv heq => hg.topological.inj v x (hg.topological.nodes u v huv).2 hx heq) hlt {}
    le_rfl hlt (fun w hw => .inl (by simpa using hw)) (by simp)
  cases hdone : (forwardWalk s y (s.ord x) (s.ord x - s.ord y) y {}).2 with
  | true =>
    obtain ⟨path', hcycle, hleads⟩ := hwalk.found hdone
    obtain rfl := Option.mem_unique hpath hcycle
    exact hleads
  | false => exact absurd (hpath.symm.trans (hwalk.cycle hdone)) (by simp)

end Forward

/-! ## The insertion -/

/-- `addEdgeOrder` reports a cycle if and only if `y` reaches `x`, with a path of edges from
`y` to `x`; otherwise it hands out the old rank values again so that every edge and the
edge from `x` to `y` increase. -/
theorem addEdgeOrder_exact {s : Scope} {N : Finset ℕ} {x y : ℕ} (hg : s.Ordered (· ∈ N))
    (hx : x ∈ N) (hy : y ∈ N) (hne : x ≠ y) :
    ((s.addEdgeOrder x y).1.cyclePath.isSome ↔ ReflTransGen s.Arc y x) ∧
      (∀ path, (s.addEdgeOrder x y).1.cyclePath = some path →
        Leads s.Arc y x path ∧ (s.addEdgeOrder x y).2 = s) ∧
      ((s.addEdgeOrder x y).1.cyclePath = none →
        ∃ ord', (s.addEdgeOrder x y).2 = { s with ord := ord' } ∧
          Rank.Accepts s.ord ord' N s.Arc x y) := by
  have ht := hg.topological
  rcases s.addEdgeOrder_inv x y with ⟨hlt, heq⟩ | ⟨hle, res, path, hcycle, heq, hpath⟩ |
    ⟨hle, hnone, res, hpath, heq⟩
  · have hnot : ¬ReflTransGen s.Arc y x := fun hreach => hlt.not_ge (ht.le_of_reach hreach)
    rw [heq]
    exact ⟨by simpa using hnot, by simp, fun _ => ⟨s.ord, rfl, ht.accepts hlt⟩⟩
  · have hlt : s.ord y < s.ord x :=
      lt_of_le_of_ne (not_lt.mp hle) fun heq => hne (ht.inj y x hy hx heq).symm
    have hleads := forwardSearch_leads hg hx hlt hcycle
    rw [heq, hpath]
    refine ⟨by simpa using hleads.reach, ?_, by simp⟩
    intro path' hsome
    obtain rfl : path = path' := Option.some.inj hsome
    exact ⟨hleads, rfl⟩
  · have hlt : s.ord y < s.ord x :=
      lt_of_le_of_ne (not_lt.mp hle) fun heq => hne (ht.inj y x hy hx heq).symm
    have haff := affected_of_searches hg hx hy hlt hnone
    have hred := redistribution_of_searches hg hx hy hlt hnone
    rw [heq, hpath]
    exact ⟨by simpa using haff.not_reach ht, by simp,
      fun _ => ⟨_, rfl, haff.accepts ht hred⟩⟩

/-- Three nodes in order, with an edge from the first to the second. -/
def threeNodes : Scope :=
  { name := "", cfg := {}, logCap := 0, ord := id, succ := update (fun _ => []) 1 [2],
    pred := update (fun _ => []) 2 [⟨1, false⟩] }

theorem threeNodes_ordered : threeNodes.Ordered (· ∈ ({1, 2, 3} : Finset ℕ)) := by
  have harc : ∀ u v, threeNodes.Arc u v → u = 1 ∧ v = 2 := by
    intro u v huv
    by_cases hu : u = 1 <;> simp_all [Arc, threeNodes, update]
  constructor
  · constructor
    · exact fun u v _ _ heq => heq
    · intro u v huv
      obtain ⟨rfl, rfl⟩ := harc u v huv
      decide
    · intro u v huv
      obtain ⟨rfl, rfl⟩ := harc u v huv
      decide
  · intro u v
    by_cases hu : u = 1 <;> by_cases hv : v = 2 <;> simp [threeNodes, sources, update, hu, hv]

/-- The edge back from the second node closes a cycle, and the edge from the third node to
the first moves all three. -/
theorem threeNodes_exact :
    ((threeNodes.addEdgeOrder 2 1).1.cyclePath = some [1, 2] ∧
      ReflTransGen threeNodes.Arc 1 2) ∧
    (¬ReflTransGen threeNodes.Arc 1 3 ∧ (threeNodes.addEdgeOrder 3 1).2.ord 3 = 1) := by
  obtain ⟨hcycle, -, -⟩ := addEdgeOrder_exact threeNodes_ordered (x := 2) (y := 1)
    (by decide) (by decide) (by decide)
  obtain ⟨haccept, -, -⟩ := addEdgeOrder_exact threeNodes_ordered (x := 3) (y := 1)
    (by decide) (by decide) (by decide)
  have hpath : (threeNodes.addEdgeOrder 2 1).1.cyclePath = some [1, 2] := by decide +kernel
  have hnone : (threeNodes.addEdgeOrder 3 1).1.cyclePath = none := by decide +kernel
  refine ⟨⟨hpath, hcycle.mp (by simp [hpath])⟩, ?_, by decide +kernel⟩
  intro hreach
  have hsome := haccept.mpr hreach
  simp [hnone] at hsome

/-! ## The ranks of a finite graph -/

/-- A graph in the slots of a scope. -/
structure Stores {V : Type} (s : Scope) (slot : V → ℕ) (ord : V → ℕ) (Edge : V → V → Prop) :
    Prop where
  presents : Rank.Presents slot ord Edge s.ord (fun k => ∃ v, slot v = k) s.Arc
  mem_succ : ∀ u v, v ∈ s.succ u ↔ u ∈ s.sources v

/-- `addEdgeOrder` computes the insertion of an edge, in whatever order the edges of the
scope are listed. -/
theorem addEdgeOrder_insertion {V : Type} [Fintype V] {s : Scope} {slot ord : V → ℕ}
    {Edge : V → V → Prop} (hs : s.Stores slot ord Edge) (hinj : Injective ord)
    (hlt : ∀ u v, Edge u v → ord u < ord v) {x y : V} (hne : x ≠ y) :
    Rank.insertion ord Edge x y =
      if (s.addEdgeOrder (slot x) (slot y)).1.cyclePath.isSome then none
      else some ((s.addEdgeOrder (slot x) (slot y)).2.ord ∘ slot) := by
  have hp := hs.presents
  have ht := hp.topological hinj hlt
  have hg : s.Ordered fun k => ∃ v, slot v = k := ⟨ht, hs.mem_succ⟩
  have hless : ¬s.ord (slot x) < s.ord (slot y) → s.ord (slot y) < s.ord (slot x) := by
    intro hle
    apply lt_of_le_of_ne (not_lt.mp hle)
    rw [hp.rank, hp.rank]
    exact fun heq => hne (hinj heq).symm
  rcases s.addEdgeOrder_inv (slot x) (slot y) with ⟨hxy, heq⟩ |
    ⟨hle, res, path, hcycle, heq, hpath⟩ | ⟨hle, hnone, res, hpath, heq⟩
  · rw [heq]
    exact hp.insertion_of_lt ht hxy
  · rw [heq, hpath]
    exact hp.insertion_of_reach (forwardSearch_leads hg ⟨x, rfl⟩ (hless hle) hcycle).reach
  have hyx := hless hle
  have haff := affected_of_searches hg ⟨x, rfl⟩ ⟨y, rfl⟩ hyx hnone
  have hred := redistribution_of_searches hg ⟨x, rfl⟩ ⟨y, rfl⟩ hyx hnone
  rw [heq, hpath]
  apply hp.insertion_of_affected hinj ht haff _ hred hyx
  intro f hf
  exact (forwardSearch_explored hg hyx hnone).explored.reach f ((s.byOrd_perm _).mem_iff.mp hf)

end DagWorker.Memory.Scope
