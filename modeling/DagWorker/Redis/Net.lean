import DagWorker.Graph.Cascade
import DagWorker.Redis.Edits

/-!
# The Lua cascade as a cascade on a net

Every run of the Lua `terminate` is a run of the abstract cascade on the net of the keys, in
whatever order the server lists the members of a set.  The table of verdicts holds one entry
per node, the latest, where the queue may hold several.
-/

namespace DagWorker.Redis

open Function
open DagWorker.Graph (Cell Net Verdict)
open DepCounts (Outcome)

variable {u w : NodeID} {verdicts : Verdicts} {q : List (NodeID × Verdict)} {s : State}
variable (trigger : TriggerRule) (d : DepCounts)

/-! ## The trigger rules -/

theorem depsReady_eq : depsReady trigger d = d.ready trigger := by
  cases trigger <;> rfl

theorem depsUnsatisfiable_eq : depsUnsatisfiable trigger d = d.unsatisfiable trigger := by
  cases trigger <;> rfl

theorem depsTerminalReason_eq : depsTerminalReason d = d.terminalReason := rfl

/-! ## The net of a scope -/

def NodeHash.cell (n : NodeHash) : Cell :=
  { phase := n.phase
    status := n.status
    reason := n.reason
    message := n.message
    attempt := n.attempt
    trigger := n.trigger
    deps := n.deps }

def Stats.count (st : Stats) : DagWorker.Graph.Bucket → Int
  | .blocked => st.blocked
  | .scheduled => st.scheduled
  | .ready => st.ready
  | .inProgress => st.inProgress
  | .succeeded => st.succeeded
  | .failed => st.failed

theorem Stats.count_adjust (st : Stats) (c : Cell) (delta : Int) (b : DagWorker.Graph.Bucket) :
    (st.adjust c.phase c.status delta).count b =
      st.count b + if c.bucket = b then delta else 0 := by
  by_cases hs : c.status = .success <;> cases hp : c.phase <;> cases b <;>
    simp [Stats.adjust, Stats.count, Cell.bucket, hs, hp]

theorem Stats.total_adjust (st : Stats) (p : Phase) (o : Status) (delta : Int) :
    (st.adjust p o delta).total = st.total := by
  cases p <;> simp only [Stats.adjust]
  split <;> rfl

namespace State

/-- What the keys of a scope say about its graph. -/
def net (s : State) : Net NodeID where
  cell id := (s.node id).map NodeHash.cell
  edge u w := (s.pred w).lookup u
  count := s.stats.count
  total := s.stats.total

/-! ## One transition on the net -/

section Transitions

variable {s s' : State} {id : NodeID} {n n' : NodeHash}

theorem cell_of_node (hn : s.node id = some n) : s.net.cell id = some n.cell := by
  simp [net, hn]

theorem cell_update (hnode : ∀ x, s'.node x = if x = id then some n' else s.node x) :
    s'.net.cell = update s.net.cell id (some n'.cell) := by
  funext x
  by_cases hx : x = id
  · subst hx
    simp [net, hnode]
  · simp [net, hnode, hx]

theorem net_put (hnode : ∀ x, s'.node x = if x = id then some n' else s.node x)
    (hpred : s'.pred = s.pred)
    (hstats : s'.stats = (s.stats.adjust n.phase n.status (-1)).adjust n'.phase n'.status 1) :
    s'.net = s.net.put id n.cell n'.cell := by
  have hcell := cell_update hnode
  rw [Net.mk.injEq]
  refine ⟨hcell, ?_, ?_, ?_⟩
  · simp only [net, hpred]
    rfl
  · funext b
    have h₁ := s.stats.count_adjust n.cell (-1) b
    have h₂ := (s.stats.adjust n.phase n.status (-1)).count_adjust n'.cell 1 b
    have hcount : s'.stats.count b = s.stats.count b + (if n.cell.bucket = b then -1 else 0) +
        (if n'.cell.bucket = b then 1 else 0) := by
      rw [hstats, ← h₁]
      exact h₂
    change s'.stats.count b = s.stats.count b - (if n.cell.bucket = b then 1 else 0) +
      (if n'.cell.bucket = b then 1 else 0)
    rw [hcount]
    split_ifs <;> omega
  · change s'.stats.total = s.stats.total
    rw [hstats, Stats.total_adjust, Stats.total_adjust]

/-! ## The hash of a node after a transition -/

@[simp] theorem node_adjustBucket (s : State) (p : Phase) (o : Status) (d : Int) :
    (s.adjustBucket p o d).node = s.node := rfl

@[simp] theorem node_zremReady (s : State) (kind : String) (id : NodeID) :
    (s.zremReady kind id).node = s.node := rfl

@[simp] theorem node_zremSched (s : State) (id : NodeID) : (s.zremSched id).node = s.node := rfl

@[simp] theorem node_zremLeases (s : State) (id : NodeID) : (s.zremLeases id).node = s.node := rfl

@[simp] theorem node_setPred (s : State) (id source : NodeID) (b : Bool) :
    (s.setPred id source b).node = s.node := rfl

theorem node_recordEvent (s : State) (id : NodeID) (kind : EventKind) (o o' : Status)
    (reason : Reason) (message : String) (attempt : ℕ) (nodeKind : String) (atMs : Int)
    (x : NodeID) :
    (s.recordEvent id kind o o' reason message attempt nodeKind atMs).node x =
      if x = id then (s.node id).map (fun n => { n with seq := n.seq + 1 }) else s.node x :=
  s.node_modNode id _ x

def finished (n : NodeHash) (v : Verdict) (nowMs : Int) : NodeHash :=
  { n with
    phase := .done
    status := v.status
    reason := v.reason
    message := v.message
    deadline := 0
    readyAt := 0
    updatedAt := nowMs
    seq := n.seq + 1 }

theorem node_finish (hn : s.node id = some n) (v : Verdict) (nowMs : Int) (x : NodeID) :
    (s.finish id n v.status v.reason v.message nowMs).node x =
      if x = id then some (finished n v nowMs) else s.node x := by
  simp only [finish, node_recordEvent, node_adjustBucket, node_modNode, node_zremLeases,
    node_zremSched, node_zremReady, hn, if_true, Option.map_some]
  by_cases hx : x = id
  · simp [hx, finished]
  · simp [hx]

theorem net_finish (hn : s.node id = some n) (v : Verdict) (nowMs : Int) :
    (s.finish id n v.status v.reason v.message nowMs).net =
      s.net.put id n.cell (n.cell.finish v) := by
  apply net_put (node_finish hn v nowMs)
  · simp [finish, recordEvent, adjustBucket, zremReady, zremSched, zremLeases]
  · simp [finish, recordEvent, adjustBucket, zremReady, zremSched, zremLeases, finished]

def released (n : NodeHash) (fifo : ℕ) : NodeHash :=
  { n with phase := .ready, status := .new, fifo := fifo, readyAt := 0, seq := n.seq + 1 }

/-- A node becomes claimable, and the event is recorded. -/
def release (s : State) (id : NodeID) (n : NodeHash) (nowMs : Int) : State :=
  (s.makeReady id n.kind n.priority n.phase n.status).recordEvent id .ready .new .new .none "" 0
    n.kind nowMs

theorem node_makeReady (hn : s.node id = some n) (kind : String) (priority : Int) (p : Phase)
    (o : Status) (x : NodeID) :
    (s.makeReady id kind priority p o).node x =
      if x = id then
        some { n with phase := .ready, status := .new, fifo := s.nextFifo + 1, readyAt := 0 }
      else s.node x := by
  have hmod := fun t : State => t.node_modNode id
    (fun n => { n with phase := .ready, status := .new, fifo := s.nextFifo + 1, readyAt := 0 }) x
  refine (hmod _).trans ?_
  by_cases hx : x = id
  · rw [if_pos hx, if_pos hx]
    change (s.node id).map _ = _
    rw [hn]
    rfl
  · rw [if_neg hx, if_neg hx]
    rfl

theorem net_release (hn : s.node id = some n) (nowMs : Int) :
    (s.release id n nowMs).net = s.net.put id n.cell n.cell.release := by
  have hnode : ∀ x, (s.release id n nowMs).node x =
      if x = id then some (released n (s.nextFifo + 1)) else s.node x := by
    intro x
    rw [release, node_recordEvent, node_makeReady hn, node_makeReady hn, if_pos rfl]
    by_cases hx : x = id
    · simp [hx, released]
    · simp [hx]
  apply net_put hnode
  · simp [release, recordEvent, makeReady, adjustBucket, zremSched]
  · simp [release, recordEvent, makeReady, adjustBucket, zremSched, released]

theorem net_makeBlocked (hn : s.node id = some n) :
    (s.makeBlocked id n.kind n.phase n.status).net = s.net.put id n.cell n.cell.block := by
  have hnode : ∀ x, (s.makeBlocked id n.kind n.phase n.status).node x =
      if x = id then some { n with phase := .blocked, status := .new, readyAt := 0 }
      else s.node x := by
    intro x
    simp only [makeBlocked, node_adjustBucket, node_modNode, node_zremSched, node_zremReady, hn,
      Option.map_some]
  apply net_put hnode
  · simp [makeBlocked, adjustBucket, zremSched, zremReady]
  · simp [makeBlocked, adjustBucket, zremSched, zremReady]

def told (n : NodeHash) (o : Outcome) : NodeHash :=
  { n with deps := (n.deps.decr .unsatisfied).incr o }

def marked (s : State) (w u : NodeID) (o : Outcome) : State :=
  ((s.setPred w u true).uncountDep w .unsatisfied).countDep w o

theorem markSatisfied_of_open (hopen : s.net.edge u w = some false)
    (status : Status) (reason : Reason) :
    s.markSatisfied w u status reason = some (s.marked w u (.ofTerminal status reason)) := by
  have hl : (s.pred w).lookup u = some false := hopen
  simp only [markSatisfied, hl, marked]

theorem markSatisfied_of_closed (hclosed : s.net.edge u w ≠ some false)
    (status : Status) (reason : Reason) : s.markSatisfied w u status reason = none := by
  rcases hl : (s.pred w).lookup u with _ | b
  · simp only [markSatisfied, hl]
  · cases b with
    | true => simp only [markSatisfied, hl]
    | false => exact absurd hl hclosed

theorem node_marked (hn : s.node w = some n) (o : Outcome) (x : NodeID) :
    (s.marked w u o).node x = if x = w then some (told n o) else s.node x := by
  by_cases hx : x = w
  · simp [marked, countDep, uncountDep, node_modNode, hn, told, hx]
  · simp [marked, countDep, uncountDep, node_modNode, hx]

/-- An edge is satisfied on the net as it is in the keys. -/
theorem net_marked (hn : s.node w = some n) (o : Outcome) :
    (s.marked w u o).net = (s.net.put w n.cell (n.cell.resolve o)).flag u w := by
  have hcell := cell_update (node_marked hn o (u := u))
  have hstats : (s.marked w u o).stats = s.stats := by
    simp [marked, countDep, uncountDep, setPred]
  have hpred : (s.marked w u o).pred = update s.pred w ((s.pred w).insert u true) := by
    simp [marked, countDep, uncountDep, setPred]
  rw [Net.mk.injEq]
  refine ⟨hcell, ?_, ?_, ?_⟩
  · funext a b
    rw [Net.flag_edge, Net.put_edge]
    simp only [hpred, net]
    by_cases hb : b = w
    · subst hb
      by_cases ha : a = u
      · subst ha
        simp
      · simp [ha, AList.lookup_insert_ne]
    · simp [hb]
  · rw [Net.flag_count, Net.put_resolve_count]
    exact congrArg Stats.count hstats
  · exact congrArg Stats.total hstats

end Transitions

/-! ## The queue and the table of verdicts -/

/-- A row of the table. -/
def verdictOf (x : Status × Reason × String) : Verdict := ⟨x.1, x.2.1, x.2.2⟩

/-- The last entry of the queue on a node is the one in the table. -/
def Current (verdicts : Verdicts) : List (NodeID × Verdict) → Prop
  | [] => True
  | (id, y) :: q => (id ∈ q.map Prod.fst ∨ y = verdictOf (verdicts id)) ∧ Current verdicts q

theorem Current.mem (h : Current verdicts q)
    {id : NodeID} (hid : id ∈ q.map Prod.fst) : (id, verdictOf (verdicts id)) ∈ q := by
  induction q with
  | nil => simp at hid
  | cons x q ih =>
    obtain ⟨hx, hq⟩ := h
    rcases List.mem_cons.mp hid with rfl | hid
    · rcases hx with hx | hx
      · exact .tail _ (ih hq hx)
      · rw [← hx]
        exact (.head _) ..
    · exact .tail _ (ih hq hid)

theorem Current.enqueue
    (h : Current verdicts q) (w : NodeID) (x : Status × Reason × String) :
    Current (update verdicts w x) (q ++ [(w, verdictOf x)]) := by
  induction q with
  | nil => simp [Current]
  | cons y q ih =>
    rw [List.cons_append]
    refine ⟨?_, ih h.2⟩
    by_cases hw : y.1 = w
    · left
      simp [hw]
    · rw [update_of_ne hw, List.map_append, List.mem_append]
      exact h.1.imp_left .inl

/-! ## The fan-out of one node -/

/-- The targets of edges exist. -/
theorem Wired.node_of_edge (hs : s.Wired) {b : Bool}
    (hedge : s.net.edge u w = some b) : ∃ n, s.node w = some n := by
  have hhas : s.hasEdge u w = true := by
    have hl : (s.pred w).lookup u = some b := hedge
    simp [hasEdge, hl]
  exact Option.isSome_iff_exists.mp (hs.exist u w hhas).2

/-- Edges go to members of the successor set. -/
theorem Wired.mem_succ_of_edge (hs : s.Wired) {b : Bool}
    (hedge : s.net.edge u w = some b) : w ∈ s.succ u := by
  rw [hs.mirrored]
  have hl : (s.pred w).lookup u = some b := hedge
  simp [hasEdge, hl]

/-- The outcome of a fan-out on the keys beside the one on the net. -/
def Matches (r : List NodeID × Verdicts × State)
    (p : Net NodeID × List (NodeID × Verdict)) : Prop :=
  r.2.2.net = p.1 ∧ p.2.map Prod.fst = r.1 ∧ Current r.2.1 p.2

theorem fanOut_net {status : Status} {reason : Reason} {nowMs : Int}
    {ws queue : List NodeID}
    (hs : s.Wired) (hq : q.map Prod.fst = queue) (hcur : Current verdicts q) :
    Matches (fanOut u status reason nowMs ws queue verdicts s)
      (Net.fanOut terminalMessage u (.ofTerminal status reason) ws (s.net, q)) := by
  induction ws generalizing queue verdicts s q with
  | nil => exact ⟨rfl, hq, hcur⟩
  | cons w ws ih =>
    set o := Outcome.ofTerminal status reason with ho
    rw [Net.fanOut, List.foldl_cons, ← Net.fanOut, fanOut]
    by_cases hopen : s.net.edge u w = some false
    · obtain ⟨n, hn⟩ := hs.node_of_edge hopen
      have hmark : s.markSatisfied w u status reason = some (s.marked w u o) :=
        markSatisfied_of_open hopen status reason
      have hnode : (s.marked w u o).node w = some (told n o) := by
        rw [node_marked hn, if_pos rfl]
      have hwired : (s.marked w u o).Wired := (quiet_markSatisfied hmark).sameGraph.wired hs
      have hcell := cell_of_node hn
      have hnet := net_marked hn o (u := u)
      rw [hmark]
      simp only [hnode, depsUnsatisfiable_eq, depsReady_eq, depsTerminalReason_eq]
      rw [← ite_not]
      simp only [not_or]
      refine DepCounts.told_cases (C := fun r => Matches r _) ?_ ?_ ?_
      · intro hunsat hwait
        rw [Net.visit_told hopen hcell (Cell.not_doomed hunsat) (Cell.promote_of_told hwait),
          ← hnet]
        exact ih hwired hq hcur
      · intro hwaits hlost
        rw [Net.visit_lost hopen hcell ⟨hwaits, hlost⟩, ← hnet]
        apply ih hwired
        · rw [List.map_append, hq]
          rfl
        · exact hcur.enqueue w _
      · intro hblocked hunsat hready
        have hrel : ((s.marked w u o).release w (told n o) nowMs).net = _ :=
          net_release hnode nowMs
        rw [hnet] at hrel
        rw [Net.visit_released hopen hcell (Cell.not_doomed fun _ => hunsat) hblocked hready]
        refine hrel ▸ ih ?_ hq hcur
        exact (quiet_makeReady.trans quiet_recordEvent).sameGraph.wired hwired
    · rw [markSatisfied_of_closed hopen, Net.visit_of_ne _ _ _ hopen]
      exact ih hs hq hcur

/-! ## The whole cascade -/

/-- The open edges of the keys, listed. -/
def openList (s : State) : List (NodeID × NodeID) :=
  s.nodes.keys.flatMap fun w =>
    ((s.pred w).entries.filter fun e => !e.2).map fun e => (e.1, w)

theorem length_openList (s : State) : s.openList.length = s.openEdges := by
  rw [openList, openEdges, List.length_flatMap]
  congr 1
  apply List.map_congr_left
  intro w _
  rw [List.length_map, List.countP_eq_length_filter]

section

variable (hs : s.Wired)
include hs

theorem Wired.mem_openList {p : NodeID × NodeID} (hp : p ∈ s.net.opens) : p ∈ s.openList := by
  obtain ⟨u, w⟩ := p
  have hl : (s.pred w).lookup u = some false := hp
  obtain ⟨n, hn⟩ := hs.node_of_edge hp
  have hkey : w ∈ s.nodes.keys := by
    rw [← AList.mem_keys, ← AList.lookup_isSome]
    exact Option.isSome_iff_exists.mpr ⟨n, hn⟩
  have hentry : (⟨u, false⟩ : Sigma fun _ : NodeID => Bool) ∈ (s.pred w).entries :=
    AList.mem_lookup_iff.mp hl
  have hfilter : (⟨u, false⟩ : Sigma fun _ : NodeID => Bool) ∈
      (s.pred w).entries.filter fun e => !e.2 := List.mem_filter.mpr ⟨hentry, rfl⟩
  exact List.mem_flatMap.mpr ⟨w, hkey, List.mem_map.mpr ⟨⟨u, false⟩, hfilter, rfl⟩⟩

theorem Wired.opens_finite : s.net.opens.Finite :=
  s.openList.toFinset.finite_toSet.subset fun p hp => by simpa using hs.mem_openList hp

theorem Wired.ncard_opens_le : s.net.opens.ncard ≤ s.openEdges := by
  have hsub : s.net.opens ⊆ s.openList.toFinset := fun p hp => by
    simpa using hs.mem_openList hp
  calc
    s.net.opens.ncard ≤ (s.openList.toFinset : Set (NodeID × NodeID)).ncard :=
      Set.ncard_le_ncard hsub (Finset.finite_toSet _)
    _ = s.openList.toFinset.card := Set.ncard_coe_finset _
    _ ≤ s.openList.length := List.toFinset_card_le _
    _ = s.openEdges := s.length_openList

theorem terminateLoop_net {nowMs : Int} {fuel : ℕ} {queue : List NodeID}
    (hq : q.map Prod.fst = queue) (hcur : Current verdicts q)
    (hfuel : queue.length + s.net.opens.ncard ≤ fuel) :
    (terminateLoop nowMs fuel queue verdicts s).All fun t =>
      Net.Drains terminalMessage s.net q t.net := by
  induction fuel generalizing queue verdicts s q with
  | zero =>
    obtain rfl : queue = [] := List.eq_nil_of_length_eq_zero (by omega)
    obtain rfl : q = [] := List.map_eq_nil_iff.mp hq
    exact .nil
  | succ fuel ih =>
    cases q with
    | nil =>
      subst hq
      exact .nil
    | cons x q =>
      obtain ⟨id, y⟩ := x
      subst hq
      rw [List.map_cons, List.length_cons] at hfuel
      rw [List.map_cons, terminateLoop]
      have hskip : (∀ c, s.net.cell id = some c → c.phase = .done) →
          (terminateLoop nowMs fuel (q.map Prod.fst) verdicts s).All fun t =>
            Net.Drains terminalMessage s.net ((id, y) :: q) t.net := by
        intro hdone
        exact (ih hs rfl hcur.2 (by omega)).mono fun t ht => .skip hdone ht
      cases hn : s.node id with
      | none =>
        apply hskip
        intro c hc
        simp [net, hn] at hc
      | some n =>
        have hcell := cell_of_node hn
        dsimp only
        split
        · rename_i hdone
          apply hskip
          intro c hc
          obtain rfl := Option.mem_unique hcell hc
          exact hdone
        · rename_i hlive
          have hmem : (id, verdictOf (verdicts id)) ∈ (id, y) :: q :=
            hcur.mem (List.mem_cons_self ..)
          rcases hv : verdicts id with ⟨status, reason, msg⟩
          rw [hv] at hmem
          have hquiet : Quiet s (s.finish id n status reason msg nowMs) := quiet_finish
          have hwired := hquiet.sameGraph.wired hs
          have hnet : (s.finish id n status reason msg nowMs).net = _ :=
            net_finish hn ⟨status, reason, msg⟩ nowMs
          intro succs hperm
          have htold : ∀ w, s.net.edge id w = some false → w ∈ succs := by
            intro w hedge
            rw [hperm.mem_iff, hquiet.succ]
            exact hs.mem_succ_of_edge hedge
          obtain ⟨hfan, hqueue, hcur'⟩ : _ ∧ _ ∧ Current (fanOut id status reason nowMs succs
              (q.map Prod.fst) verdicts (s.finish id n status reason msg nowMs)).2.1 _ :=
            fanOut_net hwired rfl hcur.2
          have hwired' :
              (fanOut id status reason nowMs succs (q.map Prod.fst) verdicts _).2.2.Wired :=
            quiet_fanOut.sameGraph.wired hwired
          obtain ⟨-, hmeasure⟩ := Net.fanOut_measure terminalMessage id
            (.ofTerminal status reason) succs q hwired.opens_finite
          have hopens : (s.finish id n status reason msg nowMs).net.opens = s.net.opens := by
            rw [hnet]
            rfl
          refine (ih hwired' hqueue hcur' ?_).mono ?_
          · rw [← hqueue, List.length_map, hfan]
            rw [hopens] at hmeasure
            rw [List.length_map] at hfuel
            omega
          · intro t ht
            rw [hfan, hnet] at ht
            exact .step hcell hlive hmem htold ht

theorem terminate_net (root : NodeID) (status : Status) (reason : Reason) (msg : String)
    (nowMs : Int) :
    (s.terminate root status reason msg nowMs).All fun t =>
      t.Wired ∧ Net.Drains terminalMessage s.net [(root, ⟨status, reason, msg⟩)] t.net := by
  have hcur : Current (fun _ => (status, reason, msg)) [(root, ⟨status, reason, msg⟩)] :=
    ⟨.inr rfl, trivial⟩
  have hle := hs.ncard_opens_le
  have hloop : (s.terminate root status reason msg nowMs).All fun t =>
      Net.Drains terminalMessage s.net [(root, ⟨status, reason, msg⟩)] t.net := by
    apply terminateLoop_net hs rfl hcur
    rw [List.length_map, List.length_singleton]
    omega
  refine (quiet_terminate.and hloop).mono ?_
  rintro t ⟨hquiet, hd⟩
  exact ⟨hquiet.sameGraph.wired hs, hd⟩

theorem settle_net {id : NodeID} {n : NodeHash} (hn : s.node id = some n) (nowMs : Int) :
    (s.settle id nowMs).All fun t => t.Wired ∧ Net.Settles terminalMessage s.net id t.net := by
  have hcell := cell_of_node hn
  rw [settle, hn]
  simp only [depsUnsatisfiable_eq, depsReady_eq, depsTerminalReason_eq]
  rw [← ite_not]
  simp only [not_or]
  refine DepCounts.settle_cases (C := Prog.All _) ?_ ?_ ?_ ?_
  · intro hunsat hwait hready
    exact ⟨hs, .idle hcell (Cell.not_doomed hunsat) (Cell.settle_of_idle hwait hready)⟩
  · intro hwaits hlost
    refine (terminate_net hs id _ _ _ nowMs).mono ?_
    rintro t ⟨hwired, hd⟩
    exact ⟨hwired, .lost hcell ⟨hwaits, hlost⟩ hd⟩
  · intro hblocked hunsat hready
    have hset : Net.Settles terminalMessage s.net id _ :=
      .quiet hcell (Cell.not_doomed fun _ => hunsat)
    refine ⟨(quiet_makeReady.trans quiet_recordEvent).sameGraph.wired hs, ?_⟩
    rw [Cell.settle_of_blocked hblocked, Cell.promote_of_ready hblocked hready,
      ← net_release hn nowMs] at hset
    exact hset
  · intro hheld hunsat hready
    have hset : Net.Settles terminalMessage s.net id _ :=
      .quiet hcell (Cell.not_doomed fun _ => hunsat)
    refine ⟨quiet_makeBlocked.sameGraph.wired hs, ?_⟩
    rw [Cell.settle_of_not_ready hheld hready, ← net_makeBlocked hn] at hset
    exact hset

end

end State
end DagWorker.Redis
