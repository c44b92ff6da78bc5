import DagWorker.Postgres.Rows

/-!
# One termination

A termination either stops at the node it was asked for, having told its
successors, or it reaches one of them: readies it, or terminates it in turn.
-/

namespace DagWorker.Postgres.Engine

variable {w : ℕ} {ids : List ℕ} {e' e : Engine}

/-- Telling the successor changes its tally and nothing else. -/
def Quietly (status : Status) (reason : Reason) (succ : NodeRow) : Prop :=
  Listening succ → (told status reason succ).deps.unsatisfiable succ.trigger = false ∧
    ((told status reason succ).deps.ready succ.trigger = true → succ.phase = .ready)

section Loop

variable {srv : Server} {u : ℕ} {status : Status} {reason : Reason} {e : Engine}
  {queue : List TerminateItem} {effects : List Effect} {succs : List (ℕ × NodeRow)}

/-- The successors `ids` of `u` have been told, and nothing else happened. -/
structure Tells (u : ℕ) (status : Status) (reason : Reason) (ids : List ℕ) (e e' : Engine) :
    Prop where
  row_told : ∀ x ∈ ids, e.edges.lookup (u, x) = some false →
    e'.rows.lookup x = (e.rows.lookup x).map (told status reason)
  row_same : ∀ x, (x ∈ ids → e.edges.lookup (u, x) ≠ some false) →
    e'.rows.lookup x = e.rows.lookup x
  edge_told : ∀ x ∈ ids, e.edges.lookup (u, x) = some false →
    e'.edges.lookup (u, x) = some true
  edge_same : ∀ k, (k.1 = u → k.2 ∈ ids → e.edges.lookup k ≠ some false) →
    e'.edges.lookup k = e.edges.lookup k

theorem Tells.refl : Tells u status reason [] e e :=
  ⟨by simp, fun _ _ => rfl, by simp, fun _ _ => rfl⟩

/-- A successor without an open edge is not told. -/
theorem Tells.skip (hopen : e.edges.lookup (u, w) ≠ some false)
    (h : Tells u status reason ids e e') : Tells u status reason (w :: ids) e e' := by
  refine ⟨fun x hx hx' => ?_, fun x hx => h.row_same x fun hm => hx (.tail _ hm),
    fun x hx hx' => ?_, fun k hk => h.edge_same k fun hu hm => hk hu (.tail _ hm)⟩
  · rcases List.mem_cons.mp hx with rfl | hx
    · exact absurd hx' hopen
    · exact h.row_told x hx hx'
  · rcases List.mem_cons.mp hx with rfl | hx
    · exact absurd hx' hopen
    · exact h.edge_told x hx hx'

theorem Tells.cons (hnd : w ∉ ids) (hopen : e.edges.lookup (u, w) = some false)
    (h : Tells u status reason ids (e.resolved u w status reason) e') :
    Tells u status reason (w :: ids) e e' := by
  have hrow : ∀ x, x ≠ w → (e.resolved u w status reason).rows.lookup x = e.rows.lookup x :=
    fun x hx => by rw [resolved_lookup, if_neg hx]
  have hedge : ∀ k, k ≠ (u, w) →
      (e.resolved u w status reason).edges.lookup k = e.edges.lookup k :=
    fun k hk => by rw [resolved_edges, if_neg hk]
  have hne : ∀ x, x ≠ w → (u, x) ≠ (u, w) := fun x hx heq => hx (Prod.mk.inj heq).2
  have hself : (e.resolved u w status reason).edges.lookup (u, w) = some true := by
    rw [resolved_edges, if_pos rfl]
  refine ⟨fun x hx hx' => ?_, fun x hx => ?_, fun x hx hx' => ?_, fun k hk => ?_⟩
  · by_cases hxw : x = w
    · rw [hxw, h.row_same w (fun hm => absurd hm hnd), resolved_lookup, if_pos rfl]
    · rw [h.row_told x ((List.mem_cons.mp hx).resolve_left hxw)
        ((hedge _ (hne x hxw)).trans hx'), hrow x hxw]
  · have hxw : x ≠ w := fun h' => hx (h' ▸ List.mem_cons_self) (h' ▸ hopen)
    rw [h.row_same x (fun hm => by
      rw [hedge _ (hne x hxw)]
      exact hx (.tail _ hm)), hrow x hxw]
  · by_cases hxw : x = w
    · rw [hxw, h.edge_same (u, w) (fun _ hm => absurd hm hnd)]
      exact hself
    · exact h.edge_told x ((List.mem_cons.mp hx).resolve_left hxw)
        ((hedge _ (hne x hxw)).trans hx')
  · have hkw : k ≠ (u, w) := by
      rintro rfl
      exact hk rfl (.head _) hopen
    rw [h.edge_same k (fun hu hm => by
      rw [hedge k hkw]
      exact hk hu (.tail _ hm)), hedge k hkw]

/-- A successor has been reached: an effect names it, or it is first in the queue
and not terminated. -/
def Reached (x : ℕ × NodeRow) (st : Engine × List TerminateItem × List Effect) : Prop :=
  (∃ ef ∈ st.2.2, ef.nodeID = x.2.nodeID) ∨
    ∃ it q r, st.2.1 = it :: q ∧ it.id = x.1 ∧ st.1.rows.lookup x.1 = some r ∧
      Listening r ∧ r.nodeID = x.2.nodeID

theorem cascadeLoop_react {succ : NodeRow} (hopen : e.edges.lookup (u, w) = some false)
    (hrow : e.rows.lookup w = some succ) (hfresh : w ∉ succs.map Prod.fst)
    (hreact : ¬ Quietly status reason succ) :
    Reached (w, succ) (cascadeLoop srv u status reason ((w, succ) :: succs) e [] effects) := by
  rw [Quietly, Classical.not_imp] at hreact
  obtain ⟨hlisten, hreact⟩ := hreact
  rw [cascadeLoop, cascadeOne_of_open hopen hrow, if_neg (not_quiet_of_listening hlisten)]
  by_cases hunsat : (told status reason succ).deps.unsatisfiable succ.trigger = true
  · rw [if_pos hunsat]
    have hrest : ∀ queue, Touches (· ≠ w) (e.resolved u w status reason) effects
        (cascadeLoop srv u status reason succs (e.resolved u w status reason) queue effects).1 _ ∧
          _ := fun queue => cascadeLoop_touches fun x hx _ heq =>
      hfresh (List.mem_map.mpr ⟨x, hx, heq⟩)
    obtain ⟨htouches, more, hmore, -⟩ := hrest _
    refine .inr ⟨_, more, told status reason succ, hmore, rfl, ?_, hlisten, rfl⟩
    rw [htouches.row w (not_not.mpr rfl), resolved_lookup, if_pos rfl, hrow]
    rfl
  · rw [not_and_or, Classical.not_imp, Bool.not_eq_false] at hreact
    obtain ⟨hready, hphase⟩ := hreact.resolve_left hunsat
    rw [if_neg hunsat, if_pos hready, if_pos hphase]
    refine .inl ⟨((e.resolved u w status reason).makeReady srv w succ).1, ?_, rfl⟩
    apply cascadeLoop_appended.subset
    exact List.mem_append_right _ (List.mem_singleton.mpr rfl)

/-- Either no successor reacts, and all have been told, or the first that does has been
reached. -/
theorem cascadeLoop_cases (hnd : (succs.map Prod.fst).Nodup)
    (hrows : ∀ x ∈ succs, e.rows.lookup x.1 = some x.2) :
    ((∀ x ∈ succs, e.edges.lookup (u, x.1) = some false → Quietly status reason x.2) ∧
      ∃ e', cascadeLoop srv u status reason succs e [] effects = (e', [], effects) ∧
        Tells u status reason (succs.map Prod.fst) e e') ∨
      ∃ x ∈ succs, e.edges.lookup (u, x.1) = some false ∧ ¬ Quietly status reason x.2 ∧
        Reached x (cascadeLoop srv u status reason succs e [] effects) := by
  induction succs generalizing e effects with
  | nil => exact .inl ⟨by simp, e, rfl, Tells.refl⟩
  | cons y succs ih =>
    obtain ⟨w, succ⟩ := y
    rw [List.map_cons, List.nodup_cons] at hnd
    have hw := hrows (w, succ) (.head _)
    have hne : ∀ x ∈ succs, x.1 ≠ w := fun x hx h => hnd.1 (List.mem_map.mpr ⟨x, hx, h⟩)
    by_cases hopen : e.edges.lookup (u, w) = some false
    · by_cases hquiet : Quietly status reason succ
      · have hedge : ∀ x ∈ succs, (e.resolved u w status reason).edges.lookup (u, x.1) =
            e.edges.lookup (u, x.1) := fun x hx => by
          rw [resolved_edges, if_neg fun heq => hne x hx (Prod.mk.inj heq).2]
        rw [cascadeLoop, cascadeOne_quiet hopen hw hquiet]
        rcases ih (e := e.resolved u w status reason) hnd.2 (fun x hx => by
            rw [resolved_lookup, if_neg (hne x hx)]
            exact hrows x (.tail _ hx)) with
          ⟨hall, e', heq, htells⟩ | ⟨x, hx, hxo, hreact, hreach⟩
        · refine .inl ⟨List.forall_mem_cons.mpr ⟨fun _ => hquiet, fun x hx hxo => ?_⟩, e', heq,
            htells.cons hnd.1 hopen⟩
          exact hall x hx ((hedge x hx).trans hxo)
        · exact .inr ⟨x, .tail _ hx, (hedge x hx).symm.trans hxo, hreact, hreach⟩
      · exact .inr ⟨(w, succ), .head _, hopen, hquiet,
          cascadeLoop_react hopen hw hnd.1 hquiet⟩
    · rw [cascadeLoop, cascadeOne_of_not_open hopen]
      rcases ih hnd.2 (fun x hx => hrows x (.tail _ hx)) with
        ⟨hall, e', heq, htells⟩ | ⟨x, hx, hreach⟩
      · exact .inl ⟨List.forall_mem_cons.mpr ⟨fun h => absurd h hopen, hall⟩, e', heq,
          htells.skip hopen⟩
      · exact .inr ⟨x, .tail _ hx, hreach⟩

end Loop

/-! ## Terminating a node -/

theorem mem_successorsForUpdate {u : ℕ} {x : ℕ × NodeRow} :
    x ∈ e.successorsForUpdate u ↔
      (e.edges.lookup (u, x.1)).isSome ∧ e.rows.lookup x.1 = some x.2 := by
  rw [successorsForUpdate, List.mem_filterMap]
  constructor
  · rintro ⟨w, hw, hx⟩
    obtain ⟨r, hr, rfl⟩ := Option.map_eq_some_iff.mp hx
    exact ⟨(mem_targets e).mp hw, hr⟩
  · rintro ⟨hedge, hrow⟩
    exact ⟨x.1, (mem_targets e).mpr hedge, by rw [hrow]; rfl⟩

theorem successorsForUpdate_nodup (e : Engine) (u : ℕ) :
    ((e.successorsForUpdate u).map Prod.fst).Nodup := by
  have hsub : ∀ l : List ℕ, ((l.filterMap fun w => (e.rows.lookup w).map fun r => (w, r)).map
      Prod.fst).Sublist l := by
    intro l
    induction l with
    | nil => simp
    | cons w l ih =>
      cases hrow : e.rows.lookup w with
      | none =>
        rw [List.filterMap_cons_none (by simp [hrow])]
        exact ih.cons w
      | some r =>
        rw [List.filterMap_cons_some (b := (w, r)) (by simp [hrow]), List.map_cons]
        exact ih.cons_cons w
  exact (targets_nodup e u).sublist (hsub _)

/-- Every edge leads to a row. -/
def Targeted (e : Engine) : Prop :=
  ∀ u w b, e.edges.lookup (u, w) = some b → (e.rows.lookup w).isSome

/-- What a termination that stops at its node leaves. -/
structure Ends (v : ℕ) (status : Status) (reason : Reason) (e e' : Engine) : Prop where
  row : ∀ x r, e.rows.lookup x = some r → ∃ r', e'.rows.lookup x = some r' ∧
    r'.nodeID = r.nodeID ∧ r'.trigger = r.trigger ∧
    r'.deps = (if e.edges.lookup (v, x) = some false then (told status reason r).deps
      else r.deps) ∧
    (x = v → r'.phase = .done) ∧ (x ≠ v → r' = { r with deps := r'.deps })
  edge : ∀ k, e'.edges.lookup k =
    if k.1 = v ∧ e.edges.lookup k = some false then some true else e.edges.lookup k

section Terminate

variable {e : Engine} {srv : Server} {v : ℕ} {r : NodeRow} {status : Status} {reason : Reason}
  {message : String}

theorem terminate_eq (hrow : e.rows.lookup v = some r) (hphase : r.phase ≠ .done) :
    e.terminate srv v status reason message =
      let fin := e.finish srv ⟨v, status, reason, message⟩ r
      let st := cascadeLoop srv v status reason (fin.2.successorsForUpdate v) fin.2 [] [fin.1]
      terminateLoop srv e.openEdges st.2.1 st.1 st.2.2 := by
  rw [terminate, terminateLoop]
  simp only [loadForUpdate, hrow, if_neg hphase]
  rfl

theorem terminateLoop_nil (fuel : ℕ) (e : Engine) (effects : List Effect) :
    terminateLoop srv fuel [] e effects = (e, effects) := by
  cases fuel <;> rfl

/-- Finishing the node leaves the other rows as they are. -/
theorem finish_row (hrow : e.rows.lookup v = some r) {x : ℕ} {s : NodeRow}
    (hs : e.rows.lookup x = some s) :
    ∃ s', (e.finish srv ⟨v, status, reason, message⟩ r).2.rows.lookup x = some s' ∧
      s'.nodeID = s.nodeID ∧ s'.trigger = s.trigger ∧ s'.deps = s.deps ∧
      (x = v → s'.phase = .done) ∧ (x ≠ v → s' = s) := by
  rw [finish_lookup]
  by_cases hxv : x = v
  · subst hxv
    obtain rfl := Option.mem_unique hrow hs
    rw [if_pos rfl, hrow]
    exact ⟨_, rfl, rfl, rfl, rfl, fun _ => rfl, fun h => absurd rfl h⟩
  · rw [if_neg hxv]
    exact ⟨s, hs, rfl, rfl, rfl, fun h => absurd h hxv, fun _ => rfl⟩

/-- The rows and edges after a loop in which no successor reacted. -/
theorem ends_of_tells (hrow : e.rows.lookup v = some r)
    (hids : ∀ x, e.edges.lookup (v, x) = some false → x ∈ ids)
    (h : Tells v status reason ids (e.finish srv ⟨v, status, reason, message⟩ r).2 e') :
    Ends v status reason e e' := by
  have hedges := finish_edges e srv ⟨v, status, reason, message⟩ r
  refine ⟨fun x s hs => ?_, ?_⟩
  · obtain ⟨s', hs', hnode, htrigger, hdeps, hdone, hsame⟩ := finish_row hrow hs
    by_cases hopen : e.edges.lookup (v, x) = some false
    · refine ⟨told status reason s', ?_, hnode, htrigger, ?_, hdone, fun hne => ?_⟩
      · rw [h.row_told x (hids x hopen) (by rw [hedges, hopen]), hs']
        rfl
      · rw [if_pos hopen, told, told, hdeps]
      · rw [hsame hne]
        rfl
    · refine ⟨s', ?_, hnode, htrigger, ?_, hdone, fun hne => ?_⟩
      · rw [h.row_same x (fun _ => by rwa [hedges]), hs']
      · rw [if_neg hopen, hdeps]
      · rw [hsame hne]
  · rintro ⟨a, x⟩
    by_cases hk : a = v ∧ e.edges.lookup (a, x) = some false
    · obtain ⟨rfl, hopen⟩ := hk
      rw [if_pos ⟨rfl, hopen⟩]
      exact h.edge_told x (hids x hopen) (by rw [hedges, hopen])
    · rw [if_neg hk, ← hedges]
      exact h.edge_same (a, x) fun ha _ hopen => hk ⟨ha, by rwa [← hedges]⟩

/-- A successor that has been reached is named in an effect once the loop goes on. -/
theorem emits_of_reached {x : ℕ × NodeRow} {st : Engine × List TerminateItem × List Effect}
    (h : Reached x st) (fuel : ℕ) :
    ∃ ef ∈ (terminateLoop srv (fuel + 1) st.2.1 st.1 st.2.2).2, ef.nodeID = x.2.nodeID := by
  rcases h with ⟨ef, hef, hid⟩ | ⟨it, q, r, hq, hit, hr, hlisten, hid⟩
  · exact ⟨ef, terminateLoop_appended.subset hef, hid⟩
  have hdone : r.phase ≠ .done := by
    rcases hlisten with h | h <;> rw [h] <;> simp
  rw [hq, terminateLoop, loadForUpdate, hit, hr]
  simp only [if_neg hdone]
  refine ⟨(st.1.finish srv it r).1, ?_, hid⟩
  apply (cascadeLoop_appended.trans terminateLoop_appended).subset
  exact List.mem_append_right _ (List.mem_singleton.mpr rfl)

/-- A termination stops at its node, or it reaches a successor and emits an effect that
names it. -/
theorem terminate_cases (htarget : e.Targeted) (hrow : e.rows.lookup v = some r)
    (hphase : r.phase ≠ .done) :
    ((∀ x s, x ≠ v → e.rows.lookup x = some s → e.edges.lookup (v, x) = some false →
        Quietly status reason s) ∧
      ∃ e' ef, e.terminate srv v status reason message = (e', [ef]) ∧ ef.nodeID = r.nodeID ∧
        Ends v status reason e e') ∨
      ∃ x s, x ≠ v ∧ e.rows.lookup x = some s ∧ e.edges.lookup (v, x) = some false ∧
        ¬ Quietly status reason s ∧
        ∃ ef ∈ (e.terminate srv v status reason message).2, ef.nodeID = s.nodeID := by
  rw [terminate_eq hrow hphase]
  set fin := e.finish srv ⟨v, status, reason, message⟩ r with hfin
  have hedges : fin.2.edges = e.edges := finish_edges ..
  have hrows : ∀ x, x ≠ v → fin.2.rows.lookup x = e.rows.lookup x := fun x hx => by
    rw [hfin, finish_lookup, if_neg hx]
  -- every open edge leads to a successor that is told
  have hsucc : ∀ x s, fin.2.rows.lookup x = some s → e.edges.lookup (v, x) = some false →
      (x, s) ∈ fin.2.successorsForUpdate v := fun x s hs hopen =>
    mem_successorsForUpdate.mpr ⟨by rw [hedges, hopen]; rfl, hs⟩
  have hloop : _ ∨ ∃ y ∈ fin.2.successorsForUpdate v, _ ∧ _ ∧
      Reached y (cascadeLoop srv v status reason (fin.2.successorsForUpdate v) fin.2 [] [fin.1]) :=
    cascadeLoop_cases (successorsForUpdate_nodup fin.2 v)
      fun x hx => (mem_successorsForUpdate.mp hx).2
  rcases hloop with ⟨hquiet, e', heq, htells⟩ | ⟨y, hy, hopen, hreact, hreached⟩
  · have hids : ∀ x, e.edges.lookup (v, x) = some false →
        x ∈ (fin.2.successorsForUpdate v).map Prod.fst := by
      intro x hopen
      obtain ⟨s, hs⟩ := Option.isSome_iff_exists.mp (htarget v x false hopen)
      obtain ⟨s', hs', -⟩ := finish_row hrow hs
      exact List.mem_map.mpr ⟨(x, s'), hsucc x s' hs' hopen, rfl⟩
    refine .inl ⟨fun x s hxv hs hopen => ?_, e', fin.1, ?_, rfl, ends_of_tells hrow hids htells⟩
    · exact hquiet (x, s) (hsucc x s ((hrows x hxv).trans hs) hopen) (by rwa [hedges])
    · simp only [heq]
      exact terminateLoop_nil _ _ _
  · have hy' := (mem_successorsForUpdate.mp hy).2
    rw [hedges] at hopen
    -- the node itself has terminated, so it is another one that was reached
    have hyv : y.1 ≠ v := by
      intro h
      rw [h, hfin, finish_lookup, if_pos rfl, hrow, Option.map_some, Option.some.injEq] at hy'
      have hlisten := (Classical.not_imp.mp hreact).1
      rw [← hy'] at hlisten
      rcases hlisten with h | h <;> cases h
    obtain ⟨fuel, hfuel⟩ : ∃ fuel, e.openEdges = fuel + 1 := by
      refine Nat.exists_eq_succ_of_ne_zero (Nat.pos_iff_ne_zero.mp ?_)
      rw [openEdges, List.countP_pos_iff]
      exact ⟨⟨(v, y.1), false⟩, AList.mem_lookup_iff.mp hopen, by simp⟩
    refine .inr ⟨y.1, y.2, hyv, (hrows y.1 hyv).symm.trans hy', hopen, hreact, ?_⟩
    rw [hfuel]
    exact emits_of_reached hreached fuel

end Terminate

/-! ## Loading -/

/-- Every loaded row is in the table of snapshots. -/
theorem snapshotsOf_loadMany (hnd : ids.Nodup) {id : ℕ} (hid : id ∈ ids) :
    (snapshotsOf (e.loadManyForUpdate ids)).lookup id = e.rows.lookup id := by
  have hfold : ∀ (ids : List ℕ) (m : GoMap ℕ NodeRow), ids.Nodup →
      ((e.loadManyForUpdate ids).foldl (fun m x => m.insert x.1 x.2) m).lookup id =
        if id ∈ ids ∧ (e.rows.lookup id).isSome then e.rows.lookup id else m.lookup id := by
    intro ids
    induction ids with
    | nil => simp [loadManyForUpdate]
    | cons i ids ih =>
      intro m hnd
      obtain ⟨hi, hnd⟩ := List.nodup_cons.mp hnd
      cases hr : e.rows.lookup i with
      | none =>
        have hload : e.loadManyForUpdate (i :: ids) = e.loadManyForUpdate ids := by
          simp [loadManyForUpdate, hr]
        rw [hload, ih m hnd]
        by_cases hii : id = i
        · subst hii
          simp [hr]
        · simp [hii]
      | some r =>
        have hload : e.loadManyForUpdate (i :: ids) = (i, r) :: e.loadManyForUpdate ids := by
          simp [loadManyForUpdate, hr]
        rw [hload, List.foldl_cons, ih _ hnd]
        by_cases hii : id = i
        · subst hii
          simp [hi, hr]
        · simp [hii, AList.lookup_insert_ne hii]
  rw [snapshotsOf, hfold ids ∅ hnd]
  cases hr : e.rows.lookup id <;> simp [hid]

end DagWorker.Postgres.Engine
