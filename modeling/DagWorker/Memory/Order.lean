import DagWorker.Memory.Edges
import DagWorker.Support.Insertion

/-!
# Topological order

The ranks of a scope are distinct and increase along every edge.  The two
searches of `addEdgeOrder` find the regions between the endpoints of a proposed
edge, and handing out their ranks again keeps the order valid.
-/

namespace DagWorker.Memory.Scope

open Function
open Relation (ReflTransGen)

variable {st : Search} {n w : ℕ} {walk : ℕ → Search → Search × Bool} {ws : List ℕ}

/-- Ranks are distinct on the nodes, within the counter, and increase along every
edge. -/
abbrev Ranked (s : Scope) : Prop := s.Reranks s.ord

/-- The edge relation of a scope. -/
abbrev Arc (s : Scope) : ℕ → ℕ → Prop := fun u v => v ∈ s.succ u

/-- A graph on the nodes `Node`: ranks are distinct and increase along every edge, and the
lists of predecessors mirror those of successors. -/
structure Ordered (s : Scope) (Node : ℕ → Prop) : Prop where
  topological : Rank.Topological s.ord Node s.Arc
  mem_succ : ∀ u v, v ∈ s.succ u ↔ u ∈ s.sources v

theorem Ranked.ordered {s : Scope} (hr : s.Ranked) (hm : s.Mirrored) : s.Ordered s.Alive :=
  ⟨⟨hr.inj, hr.edge, fun _ _ huv => ⟨hm.alive_of_mem_succ huv, hm.alive_target huv⟩⟩, hm.mem_succ⟩

/-! ## The searches -/

section Explored

variable {nbr : ℕ → ℕ → Prop} {ok : ℕ → Bool} {bad : ℕ → Prop} {root : ℕ} {stk : List ℕ}

/-- What a search has achieved while the calls for `stk` are open.  No node it is done with
has a neighbour it stops at. -/
structure Search.Explored (nbr : ℕ → ℕ → Prop) (ok : ℕ → Bool) (bad : ℕ → Prop) (root : ℕ)
    (stk : List ℕ) (st : Search) : Prop where
  region_eq : st.region = st.seen.reverse
  explored : Worklist.Explored nbr ok root (st.region, stk)
  clear : ∀ v ∈ st.seen, v ∉ stk → ∀ w, nbr v w → ¬bad w

/-- A call for `n` that started from `a` ends in `b`, and is done with `n`. -/
def Closes (nbr : ℕ → ℕ → Prop) (ok : ℕ → Bool) (bad : ℕ → Prop) (root n : ℕ) (a b : Search) :
    Prop :=
  ∀ stk, (a.enter n).Explored nbr ok bad root (n :: stk) →
    b.Explored nbr ok bad root stk ∧ ∀ v ∈ (a.enter n).seen, v ∈ b.seen

namespace Search.Explored

theorem initial : (({} : Search).enter root).Explored nbr ok bad root [root] :=
  ⟨rfl, .initial nbr ok root, fun _ hv hnot => absurd hv hnot⟩

theorem mem_region (h : st.Explored nbr ok bad root stk) : w ∈ st.region ↔ w ∈ st.seen := by
  rw [h.region_eq, List.mem_reverse]

/-- A call for a new neighbour of the node whose call is the last one open. -/
theorem call {a b : Search} (h : st.Explored nbr ok bad root (n :: stk)) (hnw : nbr n w)
    (hok : ok w = true) (hnew : w ∉ st.seen) (hwalk : Closes nbr ok bad root w a b)
    (hseen : a.seen = st.seen) (hregion : a.region = st.region) :
    b.Explored nbr ok bad root (n :: stk) ∧ (∀ v ∈ st.seen, v ∈ b.seen) ∧ w ∈ b.seen := by
  have henter : (a.enter w).Explored nbr ok bad root (w :: n :: stk) := by
    rw [Search.enter, hseen, hregion]
    refine ⟨by simp [h.region_eq], ?_, fun v hv hnot => ?_⟩
    · exact h.explored.visit (h.explored.stacked n (.head _)) hnw hok
        fun hmem => hnew (h.mem_region.mp hmem)
    · rw [List.mem_cons, not_or] at hnot
      exact h.clear v ((List.mem_cons.mp hv).resolve_left hnot.1) hnot.2
  obtain ⟨hb, hmono⟩ := hwalk _ henter
  rw [Search.enter, hseen] at hmono
  exact ⟨hb, fun v hv => hmono v (.tail _ hv), hmono w (.head _)⟩

theorem leave (h : st.Explored nbr ok bad root (n :: stk))
    (hn : ∀ w, nbr n w → ¬bad w ∧ (ok w = true → w ∈ st.seen)) :
    st.Explored nbr ok bad root stk := by
  refine ⟨h.region_eq, h.explored.leave fun w hw hok => h.mem_region.mpr ((hn w hw).2 hok), ?_⟩
  intro v hv hstk w hvw
  by_cases hvn : v = n
  · subst hvn
    exact (hn w hvw).1
  · exact h.clear v hv (by simp [hvn, hstk]) w hvw

end Search.Explored
end Explored

section Forward

variable {s : Scope} {Node : ℕ → Prop} {y ub : ℕ}

/-- The loop over the successors of a node, given what a recursive call does. -/
theorem forwardLoop_explored {st' : Search} {stk : List ℕ} (hws : ∀ w ∈ ws, s.Arc n w)
    (hwalk : ∀ w ∈ ws, s.ord w < ub → ∀ a b, walk w a = (b, false) →
      Closes s.Arc (fun w => decide (s.ord w < ub)) (s.ord · = ub) y w a b)
    (h : st.Explored s.Arc (fun w => decide (s.ord w < ub)) (s.ord · = ub) y (n :: stk))
    (hrun : forwardLoop s y ub walk n ws st = (st', false)) :
    st'.Explored s.Arc (fun w => decide (s.ord w < ub)) (s.ord · = ub) y (n :: stk) ∧
      (∀ v ∈ st.seen, v ∈ st'.seen) ∧
      ∀ w ∈ ws, s.ord w ≠ ub ∧ (s.ord w < ub → w ∈ st'.seen) := by
  induction ws generalizing st with
  | nil =>
    simp only [forwardLoop, Prod.mk.injEq, and_true] at hrun
    subst hrun
    exact ⟨h, fun _ hv => hv, by simp⟩
  | cons w ws ih =>
    have hws' := fun k hk => hws k (List.mem_cons_of_mem w hk)
    have hwalk' := fun k hk => hwalk k (List.mem_cons_of_mem w hk)
    rw [forwardLoop] at hrun
    split at hrun
    · simp at hrun
    rename_i hub
    split at hrun
    · rename_i hw
      split at hrun
      · simp at hrun
      -- the recursive call returned without a cycle
      rename_i st₁ hcall
      obtain ⟨h₁, hmono₁, hmem⟩ := h.call (hws w (.head _)) (decide_eq_true hw.2) hw.1
        (hwalk w (.head _) hw.2 _ st₁ hcall) rfl rfl
      obtain ⟨h', hmono, hdone⟩ := ih hws' hwalk' h₁ hrun
      refine ⟨h', fun v hv => hmono v (hmono₁ v hv), ?_⟩
      exact List.forall_mem_cons.mpr ⟨⟨hub, fun _ => hmono w hmem⟩, hdone⟩
    · rename_i hw
      obtain ⟨h', hmono, hdone⟩ := ih hws' hwalk' h hrun
      refine ⟨h', hmono, List.forall_mem_cons.mpr ⟨⟨hub, fun hlt => hmono w ?_⟩, hdone⟩⟩
      by_contra hseen
      exact hw ⟨hseen, hlt⟩

/-- The fuel is the distance in rank to the bound, which shrinks along every edge. -/
theorem forwardWalk_closes (hlt : ∀ u v, s.Arc u v → s.ord u < s.ord v) {fuel : ℕ}
    {st' : Search} (hn : s.ord n < ub) (hfuel : ub - s.ord n ≤ fuel)
    (hrun : forwardWalk s y ub fuel n st = (st', false)) :
    Closes s.Arc (fun w => decide (s.ord w < ub)) (s.ord · = ub) y n st st' := by
  induction fuel generalizing n st st' with
  | zero => omega
  | succ fuel ih =>
    intro stk h
    obtain ⟨h', hmono, hdone⟩ := forwardLoop_explored (fun _ hw => hw)
      (fun w hw hwlt a b hcall => ih hwlt (by have := hlt n w hw; omega) hcall) h hrun
    refine ⟨h'.leave fun w hw => ?_, hmono⟩
    exact ⟨(hdone w hw).1, fun hok => (hdone w hw).2 (of_decide_eq_true hok)⟩

/-- A search that reports no cycle has returned normally everywhere. -/
theorem forwardLoop_cycle (hwalk : ∀ w a, (walk w a).2 = true → (walk w a).1.cycle.isSome) :
    (forwardLoop s y ub walk n ws st).2 = true →
      (forwardLoop s y ub walk n ws st).1.cycle.isSome := by
  induction ws generalizing st with
  | nil => simp [forwardLoop]
  | cons v ws ih =>
    rw [forwardLoop]
    split
    · simp
    split
    · have := hwalk v { st with parent := update st.parent v (some n) }
      split
      · rename_i hcall
        simpa [hcall] using this
      · exact ih
    · exact ih

theorem forwardWalk_cycle {fuel : ℕ} :
    (forwardWalk s y ub fuel n st).2 = true → (forwardWalk s y ub fuel n st).1.cycle.isSome := by
  induction fuel generalizing n st with
  | zero => simp [forwardWalk]
  | succ fuel ih => exact forwardLoop_cycle fun _ _ => ih

/-- A forward search that found no cycle closes what it reaches below the bound. -/
theorem forwardSearch_explored (hg : s.Ordered Node) (hlt : s.ord y < ub)
    (hnone : (s.forwardSearch y ub).cycle = none) :
    (s.forwardSearch y ub).Explored s.Arc (fun w => decide (s.ord w < ub)) (s.ord · = ub) y [] := by
  have hfalse : (forwardWalk s y ub (ub - s.ord y) y {}).2 = false := by
    by_contra htrue
    have := forwardWalk_cycle (by simpa using htrue)
    rw [show (forwardWalk s y ub (ub - s.ord y) y {}).1.cycle = none from hnone] at this
    cases this
  have hrun : forwardWalk s y ub (ub - s.ord y) y {} = (s.forwardSearch y ub, false) :=
    Prod.ext rfl hfalse
  exact (forwardWalk_closes hg.topological.lt hlt le_rfl hrun [] .initial).1

end Forward

section Backward

variable {s : Scope} {Node : ℕ → Prop} {x lb : ℕ}

theorem backwardLoop_explored {walk : ℕ → Search → Search} {es : List PredEdge} {stk : List ℕ}
    (hes : ∀ e ∈ es, s.Arc e.source n)
    (hwalk : ∀ e ∈ es, lb < s.ord e.source → ∀ a, Closes (fun w u => s.Arc u w)
      (fun p => decide (lb < s.ord p)) (fun _ => False) x e.source a (walk e.source a))
    (h : st.Explored (fun w u => s.Arc u w) (fun p => decide (lb < s.ord p)) (fun _ => False) x
      (n :: stk)) :
    (backwardLoop s lb walk es st).Explored (fun w u => s.Arc u w)
        (fun p => decide (lb < s.ord p)) (fun _ => False) x (n :: stk) ∧
      (∀ v ∈ st.seen, v ∈ (backwardLoop s lb walk es st).seen) ∧
      ∀ e ∈ es, lb < s.ord e.source → e.source ∈ (backwardLoop s lb walk es st).seen := by
  induction es generalizing st with
  | nil => exact ⟨h, fun _ hv => hv, by simp⟩
  | cons e es ih =>
    have hes' := fun e' he' => hes e' (List.mem_cons_of_mem e he')
    have hwalk' := fun e' he' => hwalk e' (List.mem_cons_of_mem e he')
    rw [backwardLoop]
    split
    · rename_i he
      obtain ⟨h₁, hmono₁, hmem⟩ := h.call (hes e (.head _)) (decide_eq_true he.2) he.1
        (hwalk e (.head _) he.2 st) rfl rfl
      obtain ⟨h', hmono, hdone⟩ := ih hes' hwalk' h₁
      refine ⟨h', fun v hv => hmono v (hmono₁ v hv), ?_⟩
      exact List.forall_mem_cons.mpr ⟨fun _ => hmono _ hmem, hdone⟩
    · rename_i he
      obtain ⟨h', hmono, hdone⟩ := ih hes' hwalk' h
      refine ⟨h', hmono, List.forall_mem_cons.mpr ⟨fun hlt => hmono _ ?_, hdone⟩⟩
      by_contra hseen
      exact he ⟨hseen, hlt⟩

theorem backwardWalk_closes (hg : s.Ordered Node) {fuel : ℕ} (hn : lb < s.ord n)
    (hfuel : s.ord n - lb ≤ fuel) :
    Closes (fun w u => s.Arc u w) (fun p => decide (lb < s.ord p)) (fun _ => False) x n st
      (backwardWalk s lb fuel n st) := by
  induction fuel generalizing n st with
  | zero => omega
  | succ fuel ih =>
    intro stk h
    have hedge : ∀ e ∈ s.pred n, s.Arc e.source n := fun e he =>
      (hg.mem_succ _ _).mpr (List.mem_map.mpr ⟨e, he, rfl⟩)
    obtain ⟨h', hmono, hdone⟩ := backwardLoop_explored hedge
      (fun e he hlt a => ih hlt (by have := hg.topological.lt _ _ (hedge e he); omega)) h
    refine ⟨h'.leave fun u hu => ⟨not_false, fun hok => ?_⟩, hmono⟩
    obtain ⟨e, he, rfl⟩ := List.mem_map.mp ((hg.mem_succ u n).mp hu)
    exact hdone e he (of_decide_eq_true hok)

theorem backwardSearch_explored (hg : s.Ordered Node) (hlt : lb < s.ord x) :
    (s.backwardSearch x lb).Explored (fun w u => s.Arc u w) (fun p => decide (lb < s.ord p))
      (fun _ => False) x [] :=
  (backwardWalk_closes hg hlt le_rfl [] .initial).1

end Backward

/-! ## Inserting an edge -/

section Insert

variable {s : Scope} {Node : ℕ → Prop} {x y : ℕ}

theorem byOrd_perm (s : Scope) (xs : List ℕ) : (s.byOrd xs).Perm xs :=
  List.perm_insertionSort _ _

/-- What the two searches find is what a redistribution of the ranks needs. -/
theorem regions_affected (hg : s.Ordered Node) (hx : Node x) (hy : Node y)
    (hlt : s.ord y < s.ord x)
    (hnone : (s.forwardSearch y (s.ord x)).cycle = none) :
    Rank.Affected s.ord Node s.Arc x y (s.backwardSearch x (s.ord y)).region
      (s.forwardSearch y (s.ord x)).region := by
  have hF := forwardSearch_explored hg hlt hnone
  refine Rank.affected_of_explored hg.topological hx hy hlt hF.explored (fun v hv hvx => ?_)
    (backwardSearch_explored hg hlt).explored
  exact hF.clear v (hF.mem_region.mp hv) List.not_mem_nil x hvx rfl

theorem affected_of_searches (hg : s.Ordered Node) (hx : Node x) (hy : Node y)
    (hlt : s.ord y < s.ord x)
    (hnone : (s.forwardSearch y (s.ord x)).cycle = none) :
    Rank.Affected s.ord Node s.Arc x y
      (s.byOrd (s.backwardSearch x (s.ord y)).region)
      (s.byOrd (s.forwardSearch y (s.ord x)).region) :=
  (regions_affected hg hx hy hlt hnone).perm (s.byOrd_perm _) (s.byOrd_perm _)

theorem redistribution_of_searches (hg : s.Ordered Node) (hx : Node x) (hy : Node y)
    (hlt : s.ord y < s.ord x)
    (hnone : (s.forwardSearch y (s.ord x)).cycle = none) :
    let B := s.byOrd (s.backwardSearch x (s.ord y)).region
    let F := s.byOrd (s.forwardSearch y (s.ord x)).region
    Rank.Redistribution s.ord B F (((B ++ F).map s.ord).insertionSort (· ≤ ·)) :=
  (regions_affected hg hx hy hlt hnone).redistribution hg.topological
    (backwardSearch_explored hg hlt).explored.nodup
    (forwardSearch_explored hg hlt hnone).explored.nodup

theorem addEdgeOrder_inv (s : Scope) (x y : ℕ) :
    (s.ord x < s.ord y ∧ s.addEdgeOrder x y = ({ fastPath := true }, s)) ∨
    (¬s.ord x < s.ord y ∧ ∃ res path, (s.forwardSearch y (s.ord x)).cycle = some path ∧
      s.addEdgeOrder x y = (res, s) ∧ res.cyclePath = some path) ∨
    (¬s.ord x < s.ord y ∧ (s.forwardSearch y (s.ord x)).cycle = none ∧
      ∃ res, res.cyclePath = none ∧ s.addEdgeOrder x y =
        (res, s.reorder (s.backwardSearch x (s.ord y)).region
          (s.forwardSearch y (s.ord x)).region)) := by
  by_cases hlt : s.ord x < s.ord y
  · exact .inl ⟨hlt, by rw [addEdgeOrder, if_pos hlt]⟩
  rw [addEdgeOrder, if_neg hlt]
  dsimp only
  cases (s.forwardSearch y (s.ord x)).cycle with
  | some path => exact .inr (.inl ⟨hlt, ⟨_, _, some path⟩, path, rfl, rfl, rfl⟩)
  | none => exact .inr (.inr ⟨hlt, rfl, ⟨_, _, none⟩, rfl, rfl⟩)

/-- `addEdgeOrder` either reports a cycle and changes nothing, or leaves valid
ranks under which the proposed edge increases. -/
theorem addEdgeOrder_cases (hr : s.Ranked) (hm : s.Mirrored) (hx : s.Alive x)
    (hy : s.Alive y) (hne : x ≠ y) :
    (∃ res path, s.addEdgeOrder x y = (res, s) ∧ res.cyclePath = some path) ∨
      ∃ res ord, s.addEdgeOrder x y = (res, { s with ord := ord }) ∧ res.cyclePath = none ∧
        s.Reranks ord ∧ ord x < ord y := by
  rcases s.addEdgeOrder_inv x y with ⟨hlt, heq⟩ | ⟨-, res, path, -, heq, hpath⟩ |
    ⟨hle, hnone, res, hpath, heq⟩
  · exact .inr ⟨_, s.ord, heq, rfl, hr, hlt⟩
  · exact .inl ⟨res, path, heq, hpath⟩
  have hlt : s.ord y < s.ord x :=
    lt_of_le_of_ne (not_lt.mp hle) fun heq => hne (hr.inj y x hy hx heq).symm
  have hg := hr.ordered hm
  have haff := affected_of_searches hg hx hy hlt hnone
  have hred := redistribution_of_searches hg hx hy hlt hnone
  refine .inr ⟨res, _, heq, hpath, ⟨?_, ?_, ?_⟩, haff.new_edge_lt hred⟩
  · exact fun u v hu hv heq => haff.rank_inj hg.topological hred hu hv heq
  · exact fun u hu => haff.rank_le hred hr.le hu
  · exact fun u v huv => haff.edge_lt hg.topological hred huv

end Insert
/-! ## Other transitions -/

namespace Ranked

variable {s s' : Scope} {h : ℕ}

/-- A change that keeps the ranks and adds neither nodes nor edges. -/
theorem mono (hr : s.Ranked) (hord : s'.ord = s.ord) (hnext : s'.nextOrd = s.nextOrd)
    (halive : ∀ k, s'.Alive k → s.Alive k) (hsucc : ∀ u v, v ∈ s'.succ u → v ∈ s.succ u) :
    s'.Ranked := by
  refine ⟨?_, ?_, ?_⟩
  · intro u v hu hv heq
    rw [hord] at heq
    exact hr.inj u v (halive u hu) (halive v hv) heq
  · intro u hu
    rw [hord, hnext]
    exact hr.le u (halive u hu)
  · intro u v huv
    rw [hord]
    exact hr.edge u v (hsucc u v huv)

theorem create (hr : s.Ranked) (hs : s.Indexed) (hm : s.Mirrored) (spec : NodeSpec)
    (now : Int) : (s.created spec now).Ranked := by
  have hslot := hs.not_alive_slot
  have halive : ∀ k, k ≠ s.slot → ((s.created spec now).Alive k ↔ s.Alive k) := by
    intro k hk
    simp [Alive, hk]
  refine ⟨?_, ?_, ?_⟩
  · intro u v hu hv heq
    by_cases hus : u = s.slot
    · by_cases hvs : v = s.slot
      · rw [hus, hvs]
      · have := hr.le v ((halive v hvs).mp hv)
        simp [hus, hvs] at heq
        omega
    · by_cases hvs : v = s.slot
      · have := hr.le u ((halive u hus).mp hu)
        simp [hus, hvs] at heq
        omega
      · simp only [created_ord, update_of_ne hus, update_of_ne hvs] at heq
        exact hr.inj u v ((halive u hus).mp hu) ((halive v hvs).mp hv) heq
  · intro u hu
    by_cases hus : u = s.slot
    · simp [hus]
    · have := hr.le u ((halive u hus).mp hu)
      simp only [created_ord, update_of_ne hus, created_nextOrd]
      omega
  · intro u v huv
    rw [created_succ, ← hm.dead_succ _ hslot, update_eq_self] at huv
    have hu : u ≠ s.slot := fun heq => hslot (heq ▸ hm.alive_of_mem_succ huv)
    have hv : v ≠ s.slot := fun heq => hslot (heq ▸ hm.alive_target huv)
    rw [created_ord, update_of_ne hu, update_of_ne hv]
    exact hr.edge u v huv

theorem link (hr : s.Ranked) {u v : ℕ} (huv : s.ord u < s.ord v) : (s.linked u v).Ranked := by
  have halive : ∀ k, (s.linked u v).Alive k ↔ s.Alive k := by
    intro k
    by_cases hk : k = v <;> simp [Alive, hk]
  refine ⟨?_, ?_, ?_⟩
  · intro a b ha hb heq
    exact hr.inj a b ((halive a).mp ha) ((halive b).mp hb) heq
  · intro a ha
    exact hr.le a ((halive a).mp ha)
  intro a b hab
  by_cases ha : a = u
  · subst ha
    simp only [linked_succ, update_self, List.mem_append, List.mem_singleton] at hab
    rcases hab with hab | rfl
    · exact hr.edge a b hab
    · exact huv
  · rw [linked_succ, update_of_ne ha] at hab
    exact hr.edge a b hab

end Ranked
end DagWorker.Memory.Scope
