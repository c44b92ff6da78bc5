import DagWorker.Redis.Quiet
import DagWorker.Support.Insertion

/-!
# Edge insertion in the scripts

`addEdgeOrder` of the prelude searches breadth first and takes the members of a set in any
order.  On a finite graph it computes the insertion of an edge.
-/

namespace DagWorker.Redis.State

open Function
open Relation (ReflTransGen)

variable {id : NodeID} {ws queue visited : List NodeID}

abbrev Arc (s : State) : NodeID → NodeID → Prop := fun a b => b ∈ s.succ a

variable {s : State} {x y : NodeID} (lb ub : ℕ)

theorem ordOf_eq {n : NodeHash} (hn : s.node id = some n) : s.ordOf id = n.ord := by
  simp [ordOf, hn]

/-! ## One node -/

theorem scanSuccs_cycle (hnode : ∀ w ∈ ws, (s.node w).isSome) (hx : x ∈ ws)
    (visited found : List NodeID) : s.scanSuccs x ub ws visited found = .cycle := by
  induction ws generalizing visited found with
  | nil => cases hx
  | cons w ws ih =>
    have hnode' := fun k hk => hnode k (List.mem_cons_of_mem w hk)
    rw [scanSuccs]
    split
    · rfl
    rename_i hne
    have hx' : x ∈ ws := (List.mem_cons.mp hx).resolve_left (Ne.symm hne)
    obtain ⟨n, hn⟩ := Option.isSome_iff_exists.mp (hnode w (.head _))
    split
    · exact ih hnode' hx' visited found
    rw [hn]
    dsimp only
    split
    · exact ih hnode' hx' _ _
    · exact ih hnode' hx' _ _

/-- An inner loop that keeps the nodes with `p` it has not seen is a scan of the list. -/
theorem scan_region {f : List NodeID → List NodeID → List NodeID → Search} {p : NodeID → Bool}
    {ok : NodeID → Prop} (hnil : ∀ visited found, f [] visited found = .region found)
    (hcons : ∀ w ws visited found, ok w → f (w :: ws) visited found =
      if w ∈ visited then f ws visited found
      else if p w then f ws (visited ++ [w]) (found ++ [w]) else f ws visited found)
    (hws : ∀ w ∈ ws, ok w) (visited found stk : List NodeID) :
    ∃ new, f ws visited found = .region (found ++ new) ∧
      Worklist.scan p ws (visited, stk) = (visited ++ new, new.reverse ++ stk) := by
  induction ws generalizing visited found stk with
  | nil => exact ⟨[], by simp [hnil], by simp [Worklist.scan]⟩
  | cons w ws ih =>
    have hws' := fun k hk => hws k (List.mem_cons_of_mem w hk)
    rw [hcons w ws visited found (hws w (.head _)), Worklist.scan]
    by_cases hseen : w ∈ visited
    · rw [if_pos hseen, if_neg fun h => h.1 hseen]
      exact ih hws' visited found stk
    rw [if_neg hseen]
    by_cases hp : p w = true
    · rw [if_pos hp, if_pos ⟨hseen, hp⟩]
      obtain ⟨new, hscan, hlists⟩ := ih hws' (visited ++ [w]) (found ++ [w]) (w :: stk)
      exact ⟨w :: new, by simp [hscan], by simp [hlists]⟩
    · rw [if_neg hp, if_neg fun h => hp h.2]
      exact ih hws' visited found stk

theorem scanSuccs_region (hnode : ∀ w ∈ ws, (s.node w).isSome) (hx : x ∉ ws)
    (visited found stk : List NodeID) :
    ∃ new, s.scanSuccs x ub ws visited found = .region (found ++ new) ∧
      Worklist.scan (fun w => decide (s.ordOf w < ub)) ws (visited, stk) =
        (visited ++ new, new.reverse ++ stk) := by
  have hok : ∀ w ∈ ws, (s.node w).isSome ∧ w ≠ x := fun w hw =>
    ⟨hnode w hw, fun heq => hx (heq ▸ hw)⟩
  refine scan_region (fun _ _ => by rw [scanSuccs]) ?_ hok visited found stk
  intro w ws visited found hw
  obtain ⟨n, hn⟩ := Option.isSome_iff_exists.mp hw.1
  simp only [scanSuccs, if_neg hw.2, hn, ordOf_eq hn, decide_eq_true_eq]

theorem scanPreds_region (hnode : ∀ w ∈ ws, (s.node w).isSome) (visited found stk : List NodeID) :
    ∃ new, s.scanPreds lb ws visited found = .region (found ++ new) ∧
      Worklist.scan (fun w => decide (lb < s.ordOf w)) ws (visited, stk) =
        (visited ++ new, new.reverse ++ stk) := by
  refine scan_region (fun _ _ => by rw [scanPreds]) ?_ hnode visited found stk
  intro w ws visited found hw
  obtain ⟨n, hn⟩ := Option.isSome_iff_exists.mp hw
  simp only [scanPreds, hn, ordOf_eq hn, decide_eq_true_eq]

/-! ## The searches -/

def Node (s : State) (id : NodeID) : Prop := (s.node id).isSome

theorem Node.mem_keys (h : s.Node id) : id ∈ s.nodes.keys := by
  rwa [Node, node, AList.lookup_isSome, AList.mem_keys] at h

theorem length_keys (s : State) : s.nodes.keys.length = s.nodes.entries.length := by
  simp [AList.keys, List.keys]

/-- The forward search ends with the region of `y`, or with a cycle when `y` reaches `x`. -/
theorem searchForward_all (hnodes : ∀ u v, s.Arc u v → s.Node v) (hy : s.Node y) {fuel : ℕ}
    (hst : Worklist.Explored s.Arc (fun w => decide (s.ordOf w < ub)) y (visited, queue))
    (hx : ∀ v ∈ visited, v ∉ queue → ¬s.Arc v x)
    (hfuel : s.nodes.keys.length + queue.length < fuel + visited.length) :
    (s.searchForward x ub fuel queue visited).All fun r =>
      r = .cycle ∧ ReflTransGen s.Arc y x ∨
      ∃ F, r = .region F ∧ (∀ v ∈ F, ¬s.Arc v x) ∧
        Worklist.Explored s.Arc (fun w => decide (s.ordOf w < ub)) y (F, []) := by
  induction fuel generalizing queue visited with
  | zero =>
    have := hst.length_le hy.mem_keys fun u v huv => (hnodes u v huv).mem_keys
    omega
  | succ fuel ih =>
    cases queue with
    | nil => exact .inr ⟨visited, rfl, fun v hv => hx v hv List.not_mem_nil, hst⟩
    | cons n queue =>
      rw [searchForward]
      rw [Prog.all_bind, Prog.all_getRange]
      intro succs hsuccs
      have hmem : ∀ w, w ∈ succs ↔ s.Arc n w := fun w => hsuccs.mem_iff
      have hnode : ∀ w ∈ succs, (s.node w).isSome := fun w hw =>
        hnodes n w ((hmem w).mp hw)
      have hn : n ∈ visited := hst.stacked n (.head _)
      by_cases hxs : x ∈ succs
      · have hreach := (hst.reach n hn).tail ((hmem x).mp hxs)
        rw [scanSuccs_cycle ub hnode hxs]
        exact .inl ⟨rfl, hreach⟩
      obtain ⟨new, hscan, hlists⟩ := scanSuccs_region ub hnode hxs visited [] queue
      have hstep := hst.step hmem
      rw [hlists] at hstep
      rw [hscan]
      apply ih
      · exact hstep.of_mem_iff fun v => by simp [or_comm]
      · intro v hv hnot
        rw [List.mem_append, not_or] at hnot
        have hold : v ∈ visited := (List.mem_append.mp hv).resolve_right hnot.2
        by_cases hvn : v = n
        · subst hvn
          exact fun harc => hxs ((hmem x).mpr harc)
        · exact hx v hold (by simp [hvn, hnot.1])
      · simp only [List.length_cons, List.length_append] at hfuel ⊢
        omega

theorem searchBackward_all (hnodes : ∀ u v, s.Arc u v → s.Node u)
    (hpred : ∀ a b, s.Arc a b ↔ a ∈ (s.pred b).keys) (hx : s.Node x) {fuel : ℕ}
    (hst : Worklist.Explored (fun w u => s.Arc u w) (fun p => decide (lb < s.ordOf p)) x
      (visited, queue)) (hfuel : s.nodes.keys.length + queue.length < fuel + visited.length) :
    (s.searchBackward lb fuel queue visited).All fun r => ∃ B, r = .region B ∧
      Worklist.Explored (fun w u => s.Arc u w) (fun p => decide (lb < s.ordOf p)) x (B, []) := by
  induction fuel generalizing queue visited with
  | zero =>
    have := hst.length_le hx.mem_keys fun u v huv => (hnodes v u huv).mem_keys
    omega
  | succ fuel ih =>
    cases queue with
    | nil => exact ⟨visited, rfl, hst⟩
    | cons n queue =>
      rw [searchBackward]
      rw [Prog.all_bind, Prog.all_getRange]
      intro preds hpreds
      have hmem : ∀ w, w ∈ preds ↔ s.Arc w n := fun w =>
        hpreds.mem_iff.trans (hpred w n).symm
      have hnode : ∀ w ∈ preds, (s.node w).isSome := fun w hw =>
        hnodes w n ((hmem w).mp hw)
      obtain ⟨new, hscan, hlists⟩ := scanPreds_region lb hnode visited [] queue
      have hstep := hst.step hmem
      rw [hlists] at hstep
      rw [hscan]
      apply ih
      · exact hstep.of_mem_iff fun v => by simp [or_comm]
      · simp only [List.length_cons, List.length_append] at hfuel ⊢
        omega

/-! ## Handing out ranks -/

theorem ordOf_modNode (hid : s.Node id) (r : ℕ) :
    (s.modNode id fun n => { n with ord := r }).ordOf = update s.ordOf id r := by
  obtain ⟨n, hn⟩ := Option.isSome_iff_exists.mp hid
  funext k
  rw [ordOf, node_modNode]
  by_cases hk : k = id
  · subst hk
    simp [hn]
  · rw [if_neg hk, update_of_ne hk, ordOf]

theorem ordOf_assignOrds {ids : List NodeID} (hids : ∀ id ∈ ids, s.Node id) (pool : List ℕ) :
    (assignOrds (ids.zip pool) s).ordOf = Rank.assign s.ordOf ids pool := by
  induction ids generalizing s pool with
  | nil => rfl
  | cons id ids ih =>
    cases pool with
    | nil => rfl
    | cons r pool =>
      rw [List.zip_cons_cons, assignOrds, ih, ordOf_modNode (hids id (.head _)),
        Rank.assign]
      intro k hk
      rw [Node, node_modNode]
      split
      · rw [Option.isSome_map]
        exact hids id (.head _)
      · exact hids k (List.mem_cons_of_mem id hk)

/-! ## The insertion -/

/-- A graph under the keys of a scope. -/
structure Stores {V : Type} (s : State) (name : V → NodeID) (ord : V → ℕ)
    (Edge : V → V → Prop) : Prop where
  presents : Rank.Presents name ord Edge s.ordOf s.Node s.Arc
  mem_succ : ∀ a b, s.Arc a b ↔ a ∈ (s.pred b).keys

/-- `addEdgeOrder` computes the insertion of an edge, in whatever order sets and hashes are
listed. -/
theorem addEdgeOrder_insertion {V : Type} [Fintype V] {name : V → NodeID} {ord : V → ℕ}
    {Edge : V → V → Prop} (hs : s.Stores name ord Edge) (hinj : Injective ord)
    (hlt : ∀ u v, Edge u v → ord u < ord v) {x y : V} (hne : x ≠ y) :
    (s.addEdgeOrder (name x) (name y)).All fun r => r.1 ≠ .crash ∧
      (r.1 = .cycle → Rank.insertion ord Edge x y = none) ∧
      (r.1 ≠ .cycle → Rank.insertion ord Edge x y = some (r.2.ordOf ∘ name)) := by
  have hp := hs.presents
  have ht := hp.topological hinj hlt
  have hnode : ∀ v, s.Node (name v) := fun v => (hp.node _).mpr ⟨v, rfl⟩
  have hfuel : s.nodes.keys.length + [x].length < s.searchFuel + [x].length := by
    rw [searchFuel, length_keys]
    simp
  rw [addEdgeOrder]
  split
  · rename_i hxy
    exact ⟨by simp, by simp, fun _ => hp.insertion_of_lt ht hxy⟩
  rename_i hle
  have hyx : s.ordOf (name y) < s.ordOf (name x) := by
    apply lt_of_le_of_ne (not_lt.mp hle)
    rw [hp.rank, hp.rank]
    exact fun heq => hne (hinj heq).symm
  have hforward := searchForward_all (x := name x) (s.ordOf (name x))
    (fun u v huv => (ht.nodes u v huv).2)
    (hnode y) (.initial s.Arc _ (name y)) (fun v hv hnot => absurd hv hnot) hfuel
  apply hforward.bind
  rintro r (⟨rfl, hreach⟩ | ⟨F, rfl, hFx, hF⟩)
  · exact ⟨by simp, fun _ => hp.insertion_of_reach hreach, by simp⟩
  have hbackward := searchBackward_all (s.ordOf (name y))
    (fun u v huv => (ht.nodes u v huv).1) hs.mem_succ (hnode x)
    (.initial (fun w u => s.Arc u w) _ (name x)) hfuel
  apply hbackward.bind
  rintro r ⟨B, rfl, hB⟩
  have ha := Rank.affected_of_explored ht (hnode x) (hnode y) hyx hF hFx hB
  have ha' := ha.perm (Rank.byRank_perm s.ordOf B) (Rank.byRank_perm s.ordOf F)
  have hred := ha.redistribution ht hB.nodup hF.nodup
  refine ⟨by simp, by simp, fun _ => ?_⟩
  rw [hp.insertion_of_affected hinj ht ha' _ hred hyx]
  · congr 2
    symm
    apply ordOf_assignOrds
    intro id hid
    rcases List.mem_append.mp hid with hid | hid
    · exact ha'.node_left id hid
    · exact ha'.node_right id hid
  · exact fun f hf => hF.reach f ((Rank.byRank_perm s.ordOf F).mem_iff.mp hf)

end DagWorker.Redis.State
