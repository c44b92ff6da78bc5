import DagWorker.Graph.Cascade
import DagWorker.Memory.Cascade

/-!
# The in-memory cascade as a cascade on a net

The nodes and edges of a scope, seen by their identifiers, are a net in the sense of
`Graph.Net`.  Every run of `terminate` is a run of the abstract cascade on it, whatever the
clock says and in whatever order the successor lists are stored.
-/

namespace DagWorker.Memory.Scope

open Function
open DagWorker.Graph (Cell Net)
open DepCounts (Outcome)

variable {es : List PredEdge} {out : List Effect}
variable {status : Status} {reason : Reason}

/-! ## The net of a scope -/

def cellOf (r : NodeRec) : Cell :=
  { phase := r.phase
    status := r.status
    reason := r.reason
    message := r.message
    attempt := r.attempt
    trigger := r.trigger
    deps := r.deps }

/-- The counter of the scope behind one of the net. -/
def counterOf : DagWorker.Graph.Bucket → Bucket
  | .blocked => .blocked
  | .scheduled => .scheduled
  | .ready => .ready
  | .inProgress => .inProgress
  | .succeeded => .succeeded
  | .failed => .failed

/-- What a scope says about its graph. -/
def net (s : Scope) : Net NodeID where
  cell id := (s.lookup id).map fun h => cellOf (s.recs h)
  edge a b := (s.lookup a).bind fun u => (s.lookup b).bind fun w =>
    ((s.pred w).find? fun e => e.source = u).map PredEdge.satisfied
  count b := counter s.stats (counterOf b)
  total := s.stats.total

/-- The slots and the two halves of the edges are in order. -/
structure Laid (s : Scope) : Prop where
  indexed : s.Indexed
  mirrored : s.Mirrored

theorem bucket_cellOf (r : NodeRec) (b : DagWorker.Graph.Bucket) :
    (cellOf r).bucket = b ↔ counterOf b = bucket r := by
  by_cases hs : r.status = .success <;> cases hp : r.phase <;> cases b <;>
    simp [Cell.bucket, cellOf, bucket, counterOf, hs, hp]

theorem count_movedStats (s : Scope) (h : ℕ) (r : NodeRec) (b : DagWorker.Graph.Bucket) :
    counter (s.movedStats h r) (counterOf b) =
      counter s.stats (counterOf b) - (if (cellOf (s.recs h)).bucket = b then 1 else 0) +
        (if (cellOf r).bucket = b then 1 else 0) := by
  rw [movedStats, counter_addCounter, counter_addCounter]
  simp only [bucket_cellOf]
  split_ifs <;> omega

section Lookup

variable {s s' : Scope} {u w h : ℕ} {r : NodeRec}

theorem Laid.cell (hl : s.Laid) (hh : s.Alive h) :
    s.net.cell (s.recs h).id = some (cellOf (s.recs h)) := by
  simp [net, hl.indexed.lookup_id hh]

theorem Laid.exists_of_cell (hl : s.Laid) {id : NodeID} {c : Cell}
    (hc : s.net.cell id = some c) :
    ∃ h, s.Alive h ∧ (s.recs h).id = id ∧ c = cellOf (s.recs h) := by
  obtain ⟨h, hh, rfl⟩ := Option.map_eq_some_iff.mp hc
  exact ⟨h, hl.indexed.alive_of_lookup hh, hl.indexed.id_of_lookup hh, rfl⟩

/-- The edges of the net are the entries of the predecessor lists. -/
theorem Laid.edge_iff (hl : s.Laid) (a b : NodeID) (x : Bool) :
    s.net.edge a b = some x ↔
      ∃ u w, s.lookup a = some u ∧ s.lookup b = some w ∧ ⟨u, x⟩ ∈ s.pred w := by
  simp only [net, Option.bind_eq_some_iff, Option.map_eq_some_iff]
  constructor
  · rintro ⟨u, hu, w, hw, e, hfind, rfl⟩
    have hsrc : e.source = u := by simpa using List.find?_some hfind
    refine ⟨u, w, hu, hw, ?_⟩
    rw [← hsrc]
    exact List.mem_of_find?_eq_some hfind
  · rintro ⟨u, w, hu, hw, hmem⟩
    refine ⟨u, hu, w, hw, ⟨u, x⟩, ?_, rfl⟩
    obtain ⟨e, hfind⟩ : ∃ e, (s.pred w).find? (fun e => e.source = u) = some e := by
      rw [← Option.isSome_iff_exists, List.find?_isSome]
      exact ⟨_, hmem, by simp⟩
    have hsrc : e.source = u := by simpa using List.find?_some hfind
    have heq : e = ⟨u, x⟩ := by
      apply List.inj_on_of_nodup_map (hl.mirrored.sources_nodup w)
        (List.mem_of_find?_eq_some hfind) hmem
      simp [hsrc]
    rw [← heq]
    exact hfind

theorem Laid.edge_alive_iff (hl : s.Laid) (hu : s.Alive u) (hw : s.Alive w) (x : Bool) :
    s.net.edge (s.recs u).id (s.recs w).id = some x ↔ ⟨u, x⟩ ∈ s.pred w := by
  rw [hl.edge_iff]
  simp [hl.indexed.lookup_id hu, hl.indexed.lookup_id hw]

theorem Laid.mem_succ_of_edge (hl : s.Laid) (hu : s.Alive u) {b : NodeID} {x : Bool}
    (hedge : s.net.edge (s.recs u).id b = some x) : ∃ w ∈ s.succ u, (s.recs w).id = b := by
  obtain ⟨u', w, hu', hw, hmem⟩ := (hl.edge_iff _ _ _).mp hedge
  obtain rfl : u = u' := by
    rw [hl.indexed.lookup_id hu] at hu'
    exact Option.some.inj hu'
  refine ⟨w, ?_, hl.indexed.id_of_lookup hw⟩
  rw [hl.mirrored.mem_succ]
  exact List.mem_map.mpr ⟨_, hmem, rfl⟩

end Lookup

/-! ## One transition on the net -/

section Transitions

variable {s s' : Scope} {u w h : ℕ} {r : NodeRec}

/-- A change of one live record that keeps its identifier. -/
theorem Laid.update_rec (hl : s.Laid) (hgraph : s'.graph = s.graph)
    (hrecs : s'.recs = update s.recs h r) (hh : s.Alive h) (halive : r.alive = true)
    (hid : r.id = (s.recs h).id) : s'.Laid where
  indexed := hl.indexed.update_rec (congrArg Graph.index hgraph) (congrArg Graph.size hgraph)
    (congrArg Graph.free hgraph) hrecs hh halive hid
  mirrored := by
    have hpred : s'.pred = s.pred := congrArg Graph.pred hgraph
    apply hl.mirrored.congr (congrArg Graph.succ hgraph)
    · intro v
      rw [sources, sources, hpred]
    intro k
    by_cases hk : k = h
    · subst hk
      rw [hrecs, update_self, halive, hh]
    · rw [hrecs, update_of_ne hk]

theorem cell_update (hl : s.Laid) (hindex : s'.index = s.index)
    (hrecs : s'.recs = update s.recs h r) (hh : s.Alive h) :
    s'.net.cell = update s.net.cell (s.recs h).id (some (cellOf r)) := by
  funext id
  by_cases hid : id = (s.recs h).id
  · subst hid
    have hlook := hl.indexed.lookup_id hh
    rw [lookup] at hlook
    simp [net, lookup, hindex, hlook, hrecs]
  · rw [update_of_ne hid]
    simp only [net, lookup, hindex]
    rcases hlook : s.index.lookup id with _ | k
    · rfl
    have hk : k ≠ h := by
      rintro rfl
      exact hid (hl.indexed.id_of_lookup hlook).symm
    simp [hrecs, hk]

/-- The node in slot `h` moves from one phase to another, and has the record `r` then. -/
structure MovesTo (s : Scope) (h : ℕ) (r : NodeRec) (s' : Scope) : Prop where
  graph : s'.graph = s.graph
  recs : s'.recs = update s.recs h r
  stats : s'.stats = s.movedStats h r
  same : Descends (s.recs h) r

theorem makeReady_moves (hp : (s.recs h).phase = .blocked) :
    MovesTo s h { s.recs h with phase := .ready, status := .new } (s.makeReady h) :=
  ⟨makeReady_graph s h, makeReady_recs s h, makeReady_stats s h, rfl, rfl, rfl,
    by simp [drifts, hp]⟩

theorem makeBlocked_moves (hp : (s.recs h).phase = .ready) :
    MovesTo s h { s.recs h with phase := .blocked, status := .new } (s.makeBlocked h) :=
  ⟨makeBlocked_graph s h, makeBlocked_recs s h, makeBlocked_stats s h, rfl, rfl, rfl,
    by simp [drifts, hp]⟩

theorem finish_moves (s : Scope) (it : Item) (now : Int) :
    MovesTo s it.h (finishedRec (s.recs it.h) it now) (s.finish it now) :=
  ⟨finish_graph s it now, finish_recs s it now, finish_stats s it now, rfl, rfl, rfl,
    by simp [drifts, finishedRec]⟩

theorem Laid.move (hl : s.Laid) (hh : s.Alive h) (hm : MovesTo s h r s') : s'.Laid :=
  hl.update_rec hm.graph hm.recs hh (hm.same.alive.trans hh) hm.same.id

theorem MovesTo.alive_iff (hm : MovesTo s h r s') (k : ℕ) : s'.Alive k ↔ s.Alive k := by
  rw [Alive, Alive, hm.recs]
  by_cases hk : k = h
  · rw [hk, update_self, hm.same.alive]
  · rw [update_of_ne hk]

theorem Laid.net_move (hl : s.Laid) (hh : s.Alive h) (hm : MovesTo s h r s') :
    s'.net = s.net.put (s.recs h).id (cellOf (s.recs h)) (cellOf r) := by
  have hindex : s'.index = s.index := congrArg Graph.index hm.graph
  have hcell := cell_update hl hindex hm.recs hh
  have hedge : s'.net.edge = s.net.edge := by
    simp only [net, lookup, hindex, show s'.pred = s.pred from congrArg Graph.pred hm.graph]
  have hcount : ∀ b, s'.net.count b = counter s'.stats (counterOf b) := fun _ => rfl
  have htotal : s'.net.total = s.net.total := by
    simp [net, hm.stats, movedStats]
  rw [Net.put, ← hcell, ← hedge]
  cases hnet : s'.net
  simp only [hnet] at htotal hcount
  simp only [Net.mk.injEq, true_and]
  refine ⟨?_, htotal⟩
  funext b
  rw [hcount, hm.stats, count_movedStats]
  rfl

theorem Laid.net_event (hl : s.Laid) (hh : s.Alive h) (kind : EventKind) (fromStatus : Status)
    (t : Int) : (s.recordAt h kind fromStatus t).2.net = s.net := by
  have hrecs := recordAt_recs s h kind fromStatus t
  have hgraph := recordAt_graph s h kind fromStatus t
  have hcell := cell_update hl (congrArg Graph.index hgraph) hrecs hh
  have hsame : s.net.cell (s.recs h).id =
      some (cellOf { s.recs h with seq := (s.recs h).seq + 1 }) := hl.cell hh
  rw [← hsame, update_eq_self] at hcell
  obtain ⟨log, start, heq⟩ := s.recordAt_eq h kind fromStatus t
  rw [heq] at hcell ⊢
  rw [Net.mk.injEq]
  exact ⟨hcell, rfl, rfl, rfl⟩

theorem Laid.mark (hl : s.Laid) (o : Outcome)
    (hsome : flipFirst u (s.pred w) = some es) : (s.marked w es o).Laid where
  indexed := hl.indexed.update_rec rfl rfl rfl (marked_recs s w es o)
    (alive_of_flip hl.mirrored hsome) (alive_of_flip hl.mirrored hsome) rfl
  mirrored := hl.mirrored.mark o hsome

theorem Laid.edge_mark (hl : s.Laid) (hu : s.Alive u) (o : Outcome)
    (hsome : flipFirst u (s.pred w) = some es) (a b : NodeID) :
    (s.marked w es o).net.edge a b =
      if a = (s.recs u).id ∧ b = (s.recs w).id then some true else s.net.edge a b := by
  have hl' := hl.mark o hsome
  have hw := alive_of_flip hl.mirrored hsome
  obtain ⟨l₁, l₂, hold, rfl⟩ := flipFirst_eq_some hsome
  split
  · next hab =>
    obtain ⟨rfl, rfl⟩ := hab
    rw [hl'.edge_iff]
    refine ⟨u, w, hl.indexed.lookup_id hu, hl.indexed.lookup_id hw, ?_⟩
    simp
  · next hab =>
    apply Option.ext
    intro x
    rw [hl'.edge_iff, hl.edge_iff]
    -- the entry that has changed belongs to the other pair
    apply exists_congr
    intro u'
    apply exists_congr
    intro w'
    simp only [lookup, marked_index, marked_pred, and_congr_right_iff]
    intro hu' hw'
    by_cases hww : w' = w
    · subst hww
      have hne : u' ≠ u := by
        rintro rfl
        exact hab ⟨(hl.indexed.id_of_lookup hu').symm, (hl.indexed.id_of_lookup hw').symm⟩
      simp [hold, hne]
    · rw [update_of_ne hww]

theorem Laid.net_mark (hl : s.Laid) (hu : s.Alive u) (o : Outcome)
    (hsome : flipFirst u (s.pred w) = some es) :
    (s.marked w es o).net =
      (s.net.put (s.recs w).id (cellOf (s.recs w)) ((cellOf (s.recs w)).resolve o)).flag
        (s.recs u).id (s.recs w).id := by
  have hw := alive_of_flip hl.mirrored hsome
  have hcell := cell_update hl (marked_index s w es o) (marked_recs s w es o) hw
  have hedge : (s.marked w es o).net.edge = _ := funext₂ (hl.edge_mark hu o hsome)
  have hflag := funext₂ fun a b =>
    Net.flag_edge (s.net.put (s.recs w).id (cellOf (s.recs w))
      ((cellOf (s.recs w)).resolve o)) (s.recs u).id (s.recs w).id a b
  rw [Net.mk.injEq]
  refine ⟨hcell, hedge.trans hflag.symm, ?_, rfl⟩
  rw [Net.flag_count, Net.put_resolve_count]
  rfl

end Transitions

/-! ## The fan-out of one node -/

/-- A queue of terminations by identifiers. -/
def pending (s : Scope) (q : List Item) : List (NodeID × DagWorker.Graph.Verdict) :=
  q.map fun it => ((s.recs it.h).id, ⟨it.status, it.reason, it.msg⟩)

/-- What a cascade keeps. -/
structure Stays (s s' : Scope) : Prop where
  laid : s'.Laid
  cascades : Cascades s s'
  flags : s'.stats.isSealed = s.stats.isSealed ∧ s'.stats.complete = s.stats.complete

/-- A part of a cascade, from the state `s` with the terminations `q` pending to `s'` with
`q'`. -/
structure Carries (s : Scope) (q : List Item) (s' : Scope) (q' : List Item) : Prop
    extends Stays s s' where
  alive : ∀ it ∈ q', s'.Alive it.h
  measure : q'.length + s'.openEdges ≤ q.length + s.openEdges

namespace Carries

variable {s s₁ s₂ : Scope} {q q₁ q₂ : List Item}

theorem refl (hl : s.Laid) (hq : ∀ it ∈ q, s.Alive it.h) : Carries s q s q :=
  ⟨⟨hl, Cascades.refl s, ⟨rfl, rfl⟩⟩, hq, le_refl _⟩

theorem trans (h₁ : Carries s q s₁ q₁) (h₂ : Carries s₁ q₁ s₂ q₂) : Carries s q s₂ q₂ :=
  ⟨⟨h₂.laid, h₁.cascades.trans h₂.cascades,
    ⟨h₂.flags.1.trans h₁.flags.1, h₂.flags.2.trans h₁.flags.2⟩⟩, h₂.alive,
    h₂.measure.trans h₁.measure⟩

theorem cons (h : Carries s q s₁ q₁) (it : Item) : Carries s (it :: q) s₁ q₁ := by
  refine { h with measure := ?_ }
  have := h.measure
  rw [List.length_cons]
  omega

/-- The queue names the same nodes in both states. -/
theorem pending_eq (h : Carries s q s₁ q₁) (q : List Item) : s₁.pending q = s.pending q := by
  simp only [pending, h.cascades.id]

theorem alive_iff (h : Carries s q s₁ q₁) (k : ℕ) : s₁.Alive k ↔ s.Alive k := by
  rw [Alive, Alive, h.cascades.alive]

end Carries

theorem flags_movedStats (s : Scope) (h : ℕ) (r : NodeRec) :
    (s.movedStats h r).isSealed = s.stats.isSealed ∧
      (s.movedStats h r).complete = s.stats.complete := by
  rw [movedStats]
  cases bucket (s.recs h) <;> cases bucket r <;> simp [addCounter]

section Moved

variable {s s₁ : Scope} {h : ℕ} {r : NodeRec} {q : List Item}

theorem Stays.move (hl : s.Laid) (hh : s.Alive h) (hlive : (s.recs h).phase ≠ .done)
    (hm : MovesTo s h r s₁) : Stays s s₁ where
  laid := hl.move hh hm
  cascades := Cascades.of_update (congrArg Graph.frame hm.graph) hm.recs hm.same
    fun hdone => absurd hdone hlive
  flags := by
    rw [hm.stats]
    exact flags_movedStats s h r

/-- A node that has not terminated moves, and the event is recorded. -/
theorem Carries.move (hl : s.Laid) (hq : ∀ it ∈ q, s.Alive it.h) (hh : s.Alive h)
    (hlive : (s.recs h).phase ≠ .done) (hm : MovesTo s h r s₁) (kind : EventKind)
    (fromStatus : Status) (t : Int) :
    Carries s q (s₁.recordAt h kind fromStatus t).2 q := by
  have hstays := Stays.move hl hh hlive hm
  have hh₁ : s₁.Alive h := (hm.alive_iff h).mpr hh
  have hcasc := hstays.cascades.trans (Cascades.event s₁ h kind fromStatus t)
  obtain ⟨log, start, heq⟩ := s₁.recordAt_eq h kind fromStatus t
  refine ⟨⟨?_, hcasc, ?_⟩, ?_, ?_⟩
  · exact hstays.laid.update_rec (recordAt_graph _ _ _ _ t) (recordAt_recs _ _ _ _ t) hh₁ hh₁ rfl
  · rw [heq]
    exact hstays.flags
  · intro it hit
    rw [Alive, hcasc.alive]
    exact hq it hit
  · rw [openEdges_congr (recordAt_graph s₁ h kind fromStatus t), openEdges_congr hm.graph]

theorem Laid.net_moved (hl : s.Laid) (hh : s.Alive h) (hm : MovesTo s h r s₁) (kind : EventKind)
    (fromStatus : Status) (t : Int) :
    (s₁.recordAt h kind fromStatus t).2.net =
      s.net.put (s.recs h).id (cellOf (s.recs h)) (cellOf r) := by
  rw [(hl.move hh hm).net_event ((hm.alive_iff h).mpr hh)]
  exact hl.net_move hh hm

end Moved

section FanOut

variable {s : Scope} {u w : ℕ} {q : List Item}

theorem Carries.mark (hl : s.Laid) (hq : ∀ it ∈ q, s.Alive it.h)
    (o : Outcome) (hsome : flipFirst u (s.pred w) = some es) :
    Carries s q (s.marked w es o) q where
  laid := hl.mark o hsome
  cascades := Cascades.mark s w es o
  flags := ⟨rfl, rfl⟩
  alive it hit := by
    rw [Alive, (Cascades.mark s w es o).alive]
    exact hq it hit
  measure := by
    have := openEdges_mark hl.indexed hl.mirrored hsome o
    omega

/-- An edge is marked, and the termination of its target is pending. -/
theorem Carries.enqueue (hl : s.Laid) (hq : ∀ it ∈ q, s.Alive it.h)
    (o : Outcome) (hsome : flipFirst u (s.pred w) = some es) {it : Item} (hit : it.h = w) :
    Carries s q (s.marked w es o) (q ++ [it]) where
  laid := hl.mark o hsome
  cascades := Cascades.mark s w es o
  flags := ⟨rfl, rfl⟩
  alive it' hit' := by
    rw [Alive, (Cascades.mark s w es o).alive]
    rcases List.mem_append.mp hit' with hmem | hmem
    · exact hq it' hmem
    · rw [List.mem_singleton.mp hmem, hit]
      exact alive_of_flip hl.mirrored hsome
  measure := by
    have := openEdges_mark hl.indexed hl.mirrored hsome o
    rw [List.length_append, List.length_singleton]
    omega

theorem fanOut_net {ws : List ℕ} (hl : s.Laid) (hu : s.Alive u) (hws : ∀ w ∈ ws, s.Alive w)
    (hq : ∀ it ∈ q, s.Alive it.h) :
    (fanOut u status reason ws s q out).All fun r =>
      Carries s q r.1 r.2.1 ∧
      (r.1.net, r.1.pending r.2.1) =
        Net.fanOut terminalMessage (s.recs u).id (.ofTerminal status reason)
          (ws.map fun w => (s.recs w).id) (s.net, s.pending q) := by
  induction ws generalizing s q out with
  | nil => exact ⟨Carries.refl hl hq, rfl⟩
  | cons w ws ih =>
    have hw := hws w (List.mem_cons_self ..)
    -- after one visit, the rest of the list follows from the induction hypothesis
    have hrest : ∀ {s₁ : Scope} {q₁ : List Item} {out₁ : List Effect}, Carries s q s₁ q₁ →
        (s₁.net, s₁.pending q₁) = Net.visit terminalMessage (s.recs u).id
          (.ofTerminal status reason) (s.net, s.pending q) (s.recs w).id →
        (fanOut u status reason ws s₁ q₁ out₁).All fun r =>
          Carries s q r.1 r.2.1 ∧
          (r.1.net, r.1.pending r.2.1) =
            Net.fanOut terminalMessage (s.recs u).id (.ofTerminal status reason)
              ((w :: ws).map fun w => (s.recs w).id) (s.net, s.pending q) := by
      intro s₁ q₁ out₁ hc hvisit
      have hws₁ : ∀ k ∈ ws, s₁.Alive k := fun k hk =>
        (hc.alive_iff k).mpr (hws k (List.mem_cons_of_mem w hk))
      refine (ih hc.laid ((hc.alive_iff u).mpr hu) hws₁ hc.alive).mono ?_
      rintro r ⟨hc', heq⟩
      refine ⟨hc.trans hc', ?_⟩
      rw [heq, hvisit, List.map_cons, Net.fanOut, Net.fanOut, List.foldl_cons]
      simp only [hc.cascades.id]
    rw [fanOut]
    cases hf : flipFirst u (s.pred w) with
    | none =>
      rw [markSatisfied_of_none s _ _ hf]
      refine hrest (Carries.refl hl hq) (Net.visit_of_ne _ _ _ ?_).symm
      rw [Ne, hl.edge_alive_iff hu hw]
      intro hmem
      simpa using flipFirst_eq_none hf _ hmem rfl
    | some es =>
      have hopen : s.net.edge (s.recs u).id (s.recs w).id = some false := by
        obtain ⟨l₁, l₂, hold, -⟩ := flipFirst_eq_some hf
        rw [hl.edge_alive_iff hu hw, hold]
        simp
      rw [markSatisfied_of_some s _ _ hf]
      set o := Outcome.ofTerminal status reason with ho
      set c := (cellOf (s.recs w)).resolve o with hc
      have hcell := hl.cell hw
      have hmark := Carries.mark hl hq o hf
      have hnet := hl.net_mark hu o hf
      have hrec : cellOf ((s.marked w es o).recs w) = c := by
        simp [marked_recs, hc, cellOf, Cell.resolve]
      have hphase : ((s.marked w es o).recs w).phase = c.phase := congrArg Cell.phase hrec
      have hdeps : ((s.marked w es o).recs w).deps = c.deps := congrArg Cell.deps hrec
      have htrigger : ((s.marked w es o).recs w).trigger = c.trigger :=
        congrArg Cell.trigger hrec
      dsimp only
      rw [hphase, hdeps, htrigger]
      refine DepCounts.told_cases (C := Prog.All _) ?_ ?_ ?_
      · intro hunsat hwait
        refine hrest hmark ?_
        rw [Net.visit_told hopen hcell (Cell.not_doomed hunsat) (Cell.promote_of_told hwait),
          hmark.pending_eq, hnet]
      · intro hwaits hlost
        refine hrest (Carries.enqueue hl hq o hf rfl) ?_
        rw [Net.visit_lost hopen hcell ⟨hwaits, hlost⟩, hnet, hmark.pending_eq]
        simp only [pending, List.map_append, List.map_cons, List.map_nil]
        rfl
      · intro hblocked hunsat hready t
        have hw₁ : (s.marked w es o).Alive w := (hmark.alive_iff w).mpr hw
        have hlive : ((s.marked w es o).recs w).phase ≠ .done := by
          rw [hphase, hblocked]
          simp
        have hreleased : cellOf
            { (s.marked w es o).recs w with phase := .ready, status := .new } = c.release := by
          rw [← hrec]
          rfl
        have hmoves := makeReady_moves (hphase.trans hblocked)
        have hrel := Carries.move hmark.laid hmark.alive hw₁ hlive hmoves .ready .new t
        refine hrest (hmark.trans hrel) ?_
        rw [Net.visit_released hopen hcell (Cell.not_doomed fun _ => hunsat) hblocked hready,
          (hmark.trans hrel).pending_eq, hmark.laid.net_moved hw₁ hmoves, hreleased, hnet, hrec,
          hmark.cascades.id]

end FanOut

/-! ## The whole cascade -/

section Loop

variable {s : Scope} {q : List Item} {it : Item}

theorem terminateLoop_net {fuel : ℕ} (hl : s.Laid)
    (hq : ∀ it ∈ q, s.Alive it.h) (hfuel : q.length + s.openEdges ≤ fuel) :
    (terminateLoop fuel q s out).All fun r =>
      Carries s q r.1 [] ∧ Net.Drains terminalMessage s.net (s.pending q) r.1.net := by
  induction fuel generalizing s q out with
  | zero =>
    obtain rfl : q = [] := List.eq_nil_of_length_eq_zero (by omega)
    exact ⟨Carries.refl hl hq, .nil⟩
  | succ fuel ih =>
    cases q with
    | nil => exact ⟨Carries.refl hl hq, .nil⟩
    | cons it q =>
      have hh : s.Alive it.h := hq it (List.mem_cons_self ..)
      have hq' : ∀ it' ∈ q, s.Alive it'.h := fun it' h => hq it' (List.mem_cons_of_mem it h)
      have hcell := hl.cell hh
      rw [List.length_cons] at hfuel
      rw [terminateLoop]
      split
      · rename_i hskip
        have hdone : (s.recs it.h).phase = .done := by
          rcases hskip with hdead | hdone
          · rw [Alive, hdead] at hh
            cases hh
          · exact hdone
        refine (ih hl hq' (by omega)).mono ?_
        rintro r ⟨hc, hd⟩
        refine ⟨hc.cons it, .skip ?_ hd⟩
        intro c hc
        obtain rfl := Option.mem_unique hcell hc
        exact hdone
      · rename_i hopen
        have hlive : (s.recs it.h).phase ≠ .done := fun h => hopen (.inr h)
        simp only [record, Prog.all_bind, Prog.all_getNow, Prog.pure_eq_ret, Prog.all_ret]
        intro now t
        have hmoves := finish_moves s it now
        have hfin := Carries.move hl hq' hh hlive hmoves .transition (s.recs it.h).status t
        have hnet := hl.net_moved hh hmoves .transition (s.recs it.h).status t
        set s₁ := ((s.finish it now).recordAt it.h .transition (s.recs it.h).status t).2
        have hws : ∀ w ∈ s₁.succ it.h, s₁.Alive w := fun w hw =>
          hfin.laid.mirrored.alive_target hw
        refine (fanOut_net hfin.laid ((hfin.alive_iff _).mpr hh) hws hfin.alive).mono ?_
        rintro ⟨s₂, q₂, out₂⟩ ⟨hfan, heq⟩
        have hcarry := hfin.trans hfan
        refine (ih hfan.laid hfan.alive ?_).mono ?_
        · have := hcarry.measure
          omega
        rintro r ⟨hc, hd⟩
        refine ⟨(hcarry.trans hc).cons it, ?_⟩
        have htold : ∀ b, s.net.edge (s.recs it.h).id b = some false →
            b ∈ (s₁.succ it.h).map fun w => (s₁.recs w).id := by
          intro b hedge
          obtain ⟨w, hw, rfl⟩ := hl.mem_succ_of_edge hh hedge
          rw [hfin.cascades.succ]
          exact List.mem_map.mpr ⟨w, hw, hfin.cascades.id w⟩
        rw [hfin.cascades.id, hfin.pending_eq, hnet] at heq
        obtain ⟨h₁, h₂⟩ := Prod.mk.inj heq
        rw [h₁, h₂] at hd
        exact .step hcell hlive (List.mem_cons_self ..) htold hd

theorem terminate_net {root : ℕ} {msg : String} (hl : s.Laid) (hroot : s.Alive root) :
    (s.terminate root status reason msg out).All fun r =>
      Stays s r.1 ∧
      Net.Drains terminalMessage s.net [((s.recs root).id, ⟨status, reason, msg⟩)] r.1.net := by
  have hq : ∀ it ∈ [({ h := root, status, reason, msg } : Item)], s.Alive it.h := by
    simpa using hroot
  refine (terminateLoop_net hl hq (le_of_eq ?_)).mono ?_
  · rw [List.length_singleton, Nat.add_comm]
  · rintro r ⟨hc, hd⟩
    exact ⟨hc.toStays, hd⟩

theorem settle_net {h : ℕ} (hl : s.Laid) (hh : s.Alive h) :
    (s.settle h out).All fun r =>
      Stays s r.1 ∧ Net.Settles terminalMessage s.net (s.recs h).id r.1.net := by
  have hcell := hl.cell hh
  have hsame : Stays s s := ⟨hl, Cascades.refl s, rfl, rfl⟩
  rw [settle]
  dsimp only
  refine DepCounts.settle_cases (C := Prog.All _) ?_ ?_ ?_ ?_
  · intro hunsat hwait hready
    exact ⟨hsame, .idle hcell (Cell.not_doomed hunsat) (Cell.settle_of_idle hwait hready)⟩
  · intro hwaits hlost
    refine (terminate_net hl hh).mono ?_
    rintro r ⟨hk, hd⟩
    exact ⟨hk, .lost hcell ⟨hwaits, hlost⟩ hd⟩
  · intro hblocked hunsat hready t
    have hset : Net.Settles terminalMessage s.net (s.recs h).id _ :=
      .quiet hcell (Cell.not_doomed fun _ => hunsat)
    have hmoves := makeReady_moves hblocked
    have hrel := Carries.move (q := []) hl (by simp) hh (by simp [hblocked]) hmoves .ready .new t
    refine ⟨hrel.toStays, ?_⟩
    rw [Cell.settle_of_blocked hblocked, Cell.promote_of_ready hblocked hready] at hset
    rw [hl.net_moved hh hmoves]
    exact hset
  · intro hheld hunsat hready
    have hset : Net.Settles terminalMessage s.net (s.recs h).id _ :=
      .quiet hcell (Cell.not_doomed fun _ => hunsat)
    refine ⟨Stays.move hl hh (by simp [hheld]) (makeBlocked_moves hheld), ?_⟩
    rw [Cell.settle_of_not_ready hheld hready] at hset
    rw [hl.net_move hh (makeBlocked_moves hheld)]
    exact hset

end Loop
end DagWorker.Memory.Scope
