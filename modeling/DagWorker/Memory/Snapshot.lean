import DagWorker.Memory.Lease

/-!
# Snapshots of a scope

The primary state of a scope with edges named by node identifier, and the
rebuilding of a scope from it: fresh handles in identifier order, the indexes
derived from each node's phase.
-/

namespace DagWorker.Memory

open Function

/-- One incoming edge and whether it has been satisfied. -/
structure PredSnapshot where
  source : NodeID
  satisfied : Bool
deriving DecidableEq, Repr

structure NodeSnapshot where
  /-- The node's record; its `alive` mark and its identifier included. -/
  rec_ : NodeRec
  ord : ℕ
  deadline : Int
  readyAt : Int
  fifo : ℕ
  succ : List NodeID
  pred : List PredSnapshot

structure ScopeSnapshot where
  name : String
  config : ScopeConfig
  isSealed : Bool
  epochFloor : ℕ
  nextOrd : ℕ
  nextFifo : ℕ
  cursor : ℕ
  stats : ScopeStats
  nodes : List NodeSnapshot

namespace Scope

def snapshotNode (s : Scope) (h : ℕ) : NodeSnapshot :=
  { rec_ := s.recs h
    ord := s.ord h
    deadline := s.deadline h
    readyAt := s.readyAt h
    fifo := s.fifo h
    succ := (s.succ h).map fun w => (s.recs w).id
    pred := (s.pred h).map fun e =>
      { source := (s.recs e.source).id, satisfied := e.satisfied } }

/-- The handles of the nodes, in slot order. -/
def aliveHandles (s : Scope) : List ℕ :=
  (List.range s.size).filter fun h => (s.recs h).alive

/-- The scope's state, its nodes in identifier order. -/
def snapshotScope (s : Scope) : ScopeSnapshot :=
  { name := s.name
    config := s.cfg
    isSealed := s.isSealed
    epochFloor := s.epochFloor
    nextOrd := s.nextOrd
    nextFifo := s.nextFifo
    cursor := s.cursor
    stats := s.stats
    nodes := (s.aliveHandles.map s.snapshotNode).insertionSort
      fun a b => a.rec_.id ≤ b.rec_.id }

/-! ## Restoring -/

/-- The first loop of `restoreScope`: one slot per node. -/
def restoreNodes : ℕ → List NodeSnapshot → Scope → Except Err Scope
  | _, [], s => .ok s
  | h, ns :: nodes, s =>
    if (s.lookup ns.rec_.id).isSome then
      .error (.wrapped .invalidArgument
        ("snapshot repeats node " ++ ns.rec_.id.quote ++ " in scope " ++ s.name.quote))
    else
      restoreNodes (h + 1) nodes
        { s with
          index := s.index.insert ns.rec_.id h
          size := s.size + 1
          recs := update s.recs h { ns.rec_ with alive := true }
          ord := update s.ord h ns.ord
          deadline := update s.deadline h ns.deadline
          readyAt := update s.readyAt h ns.readyAt
          fifo := update s.fifo h ns.fifo }

/-- Resolve the identifier at the other end of an edge. -/
def resolve (s : Scope) (id other : NodeID) (direction : String) : Except Err ℕ :=
  match s.lookup other with
  | some h => .ok h
  | none =>
    .error (.wrapped .invalidArgument
      ("node " ++ id.quote ++ " has an edge " ++ direction ++ " " ++ other.quote ++
        ", which the snapshot does not contain"))

/-- The second loop of `restoreScope`: every node has a handle now. -/
def restoreEdges : ℕ → List NodeSnapshot → Scope → Except Err Scope
  | _, [], s => .ok s
  | h, ns :: nodes, s => do
    let succ ← ns.succ.mapM fun id => s.resolve ns.rec_.id id "to"
    let pred ← ns.pred.mapM fun p => do
      let u ← s.resolve ns.rec_.id p.source "from"
      pure { source := u, satisfied := p.satisfied }
    restoreEdges (h + 1) nodes ((s.setSucc h succ).setPred h pred)

/-- Index one node by its phase. -/
def restoreIndex (s : Scope) (h : ℕ) : Scope :=
  match (s.recs h).phase with
  | .ready => s.pushReady (s.recs h).kind h
  | .claimed => s.pushLease h
  | .scheduled => s.pushScheduled h
  | .blocked => s
  | .done => s

/-- The third loop of `restoreScope`. -/
def restoreIndexes (n : ℕ) (s : Scope) : Scope :=
  (List.range n).foldl restoreIndex s

def restoreScope (ss : ScopeSnapshot) (logCap : ℕ) : Except Err Scope := do
  let s := newScope ss.name ss.config logCap
  let s := { s with
    isSealed := ss.isSealed
    epochFloor := ss.epochFloor
    nextOrd := ss.nextOrd
    nextFifo := ss.nextFifo
    cursor := ss.cursor
    stats := ss.stats
    logStart := ss.cursor + 1 }
  let s ← restoreNodes 0 ss.nodes s
  let s ← restoreEdges 0 ss.nodes s
  pure (restoreIndexes ss.nodes.length s)

end Scope
end DagWorker.Memory
