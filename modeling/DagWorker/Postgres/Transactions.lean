import DagWorker.Postgres.Statements
import DagWorker.Support.Dialogue
import DagWorker.Memory.Topo

/-!
# The engine as programs

The functions of `engine.go` and `topo.go`, statement by statement.  Loops that run until a
queue or a stack is empty carry fuel, and a program that runs out of it has no outcome.
-/

namespace DagWorker.Postgres

open Function

abbrev Tx (α : Type) := Dialogue Stmt.Result Err α

namespace Tx

open Dialogue (orAbort)

/-! ## Statements -/

abbrev query (s : Stmt) : Tx s.Result := Dialogue.ask s

def loadScope : Tx (Option ScopeRow) := query .loadScope

def ensureScope (defaults : ScopeConfig) : Tx Unit := query (.ensureScope defaults)

def lockScopeGraph : Tx Unit := query .lockScopeGraph

def loadForUpdate (id : ℕ) : Tx (Option NodeRow) := query (.loadForUpdate id)

def loadForUpdateByExternal (nodeID : NodeID) : Tx (Option (ℕ × NodeRow)) :=
  query (.loadForUpdateByExternal nodeID)

def loadManyForUpdateByExternal (nodeIDs : List NodeID) : Tx (List (ℕ × NodeRow)) :=
  query (.loadManyForUpdateByExternal nodeIDs)

def successorsForUpdate (fromID : ℕ) : Tx (List (ℕ × NodeRow)) :=
  query (.successorsForUpdate fromID)

def updateNode (id : ℕ) (f : NodeRow → NodeRow) : Tx (Option NodeRow) := query (.updateNode id f)

def markEdgeSatisfied (fromID toID : ℕ) : Tx Bool := query (.markEdgeSatisfied fromID toID)

def edgeExists (fromID toID : ℕ) : Tx Bool := query (.edgeExists fromID toID)

def insertEdge (fromID toID : ℕ) (satisfied : Bool) : Tx Unit :=
  query (.insertEdge fromID toID satisfied)

def deleteEdge (fromID toID : ℕ) : Tx (Option Bool) := query (.deleteEdge fromID toID)

def ranksOf (ids : List ℕ) : Tx (List (ℕ × ℕ)) := query (.ranksOf ids)

def successorRanks (id : ℕ) : Tx (List (ℕ × ℕ)) := query (.successorRanks id)

def predecessorRanks (id : ℕ) : Tx (List (ℕ × ℕ)) := query (.predecessorRanks id)

def externalIDs (ids : List ℕ) : Tx (List (ℕ × NodeID)) := query (.externalIDs ids)

def insertEvent (ev : PendingEvent) : Tx Effect := query (.insertEvent ev)

def nextFifo : Tx ℕ := query .nextFifo

def clockTimestamp : Tx Int := query .clockTimestamp

def nextJitter (bound : Int) : Tx Int := query (.nextJitter bound)

def bump (col : String) (d : Int) : Tx Unit := query (.bump col d)

def takeStats : Tx (List (String × Int)) := query .takeStats

def addStats (deltas : List (String × Int)) : Tx Unit := query (.addStats deltas)

/-- A program that draws jitter, on the side of the store. -/
def ofProg {α : Type} : Prog α → Tx α
  | .ret a => pure a
  | .now k => do
    let t ← clockTimestamp
    ofProg (k t)
  | .jitter bound k => do
    let v ← nextJitter bound
    ofProg (k v)
  | .range keys k => ofProg (k keys)

/-! ## Counters -/

def moveBucket (oldPhase : Phase) (oldStatus : Status) (newPhase : Phase) (newStatus : Status) :
    Tx Unit :=
  let oldCol := bucketColumn oldPhase oldStatus
  let newCol := bucketColumn newPhase newStatus
  if oldCol = newCol then pure ()
  else do
    bump oldCol (-1)
    bump newCol 1

def enterBucket (phase : Phase) (status : Status) : Tx Unit := bump (bucketColumn phase status) 1

def leaveBucket (phase : Phase) (status : Status) : Tx Unit :=
  bump (bucketColumn phase status) (-1)

def addTotal (d : Int) : Tx Unit := bump "stat_total" d

/-- Write the accumulated deltas in one statement. -/
def flushCounters : Tx Unit := do
  let deltas ← takeStats
  let deltas := deltas.filter fun d => d.2 ≠ 0
  if deltas.isEmpty then pure () else addStats deltas

/-- The tail of a mutating operation.  `pg_notify` has no effect on the tables. -/
def finalize : Tx Unit := flushCounters

/-! ## Scheduling -/

/-- The tally delta of one resolved predecessor, and the tally it leaves. -/
def applyDepDelta (succID : ℕ) (predStatus : Status) (predReason : Reason) : Tx DepCounts := do
  let r ← updateNode succID fun r =>
    { r with deps := Engine.resolve r.deps (.ofTerminal predStatus predReason) }
  let r ← orAbort r
  pure r.deps

def makeReady (id : ℕ) (n : NodeRow) : Tx Effect := do
  let fifo ← nextFifo
  let r ← updateNode id fun r =>
    { r with phase := .ready, status := .new, readyAt := none, fifo := fifo, seq := r.seq + 1 }
  let r ← orAbort r
  moveBucket n.phase n.status .ready .new
  insertEvent ⟨n.nodeID, n.kind, .ready, .new, .new, .none, "", n.attempt, r.seq⟩

def makeBlocked (id : ℕ) (n : NodeRow) : Tx Unit := do
  let _ ← updateNode id fun r => { r with phase := .blocked, status := .new }
  moveBucket n.phase n.status .blocked .new

/-- Park a node until its backoff elapses, and return when. -/
def schedule (id : ℕ) (n : NodeRow) (delay : Int) : Tx Int := do
  let now ← clockTimestamp
  let r ← updateNode id fun r =>
    { r with phase := .scheduled, status := .new, readyAt := some (now + delay) }
  let _ ← orAbort r
  moveBucket n.phase n.status .scheduled .new
  pure (now + delay)

def bumpSeq (id : ℕ) : Tx ℕ := do
  let r ← updateNode id fun r => { r with seq := r.seq + 1 }
  let r ← orAbort r
  pure r.seq

/-! ## Terminating and settling -/

open Engine (TerminateItem)

/-- The body of the loop of `cascadeSuccessors`, for one loaded successor. -/
def cascadeOne (fromID : ℕ) (fromStatus : Status) (fromReason : Reason) (w : ℕ)
    (succ : NodeRow) (queue : List TerminateItem) (effects : List Effect) :
    Tx (List TerminateItem × List Effect) := do
  let flipped ← markEdgeSatisfied fromID w
  if flipped then do
    let deps ← applyDepDelta w fromStatus fromReason
    if succ.phase ≠ .blocked ∧ succ.phase ≠ .ready then pure (queue, effects)
    else if deps.unsatisfiable succ.trigger then
      let rs := deps.terminalReason
      pure (queue ++ [⟨w, .error, rs, terminalMessage rs⟩], effects)
    else if deps.ready succ.trigger then
      if succ.phase ≠ .ready then do
        let ef ← makeReady w succ
        pure (queue, effects ++ [ef])
      else pure (queue, effects)
    else pure (queue, effects)
  else pure (queue, effects)

def cascadeLoop (fromID : ℕ) (fromStatus : Status) (fromReason : Reason) :
    List (ℕ × NodeRow) → List TerminateItem → List Effect →
      Tx (List TerminateItem × List Effect)
  | [], queue, effects => pure (queue, effects)
  | (w, succ) :: succs, queue, effects => do
    let (queue, effects) ← cascadeOne fromID fromStatus fromReason w succ queue effects
    cascadeLoop fromID fromStatus fromReason succs queue effects

def cascadeSuccessors (queue : List TerminateItem) (fromID : ℕ) (fromStatus : Status)
    (fromReason : Reason) (effects : List Effect) : Tx (List TerminateItem × List Effect) := do
  let succs ← successorsForUpdate fromID
  cascadeLoop fromID fromStatus fromReason succs queue effects

/-- The write of `terminate` for one node, with its event. -/
def finish (it : TerminateItem) (n : NodeRow) : Tx Effect := do
  let r ← updateNode it.id fun r =>
    { r with
      phase := .done
      status := it.status
      reason := it.reason
      message := it.message
      deadline := none
      readyAt := none
      worker := ""
      seq := r.seq + 1 }
  let r ← orAbort r
  moveBucket n.phase n.status .done it.status
  insertEvent ⟨n.nodeID, n.kind, .transition, n.status, it.status, it.reason, it.message,
    n.attempt, r.seq⟩

/-- The queue loop of `terminate`. -/
def terminateLoop : ℕ → List TerminateItem → List Effect → Tx (List Effect)
  | 0, _, _ => .abort
  | _ + 1, [], effects => pure effects
  | fuel + 1, it :: queue, effects => do
    let n ← loadForUpdate it.id
    match n with
    | none => terminateLoop fuel queue effects
    | some n =>
      if n.phase = .done then terminateLoop fuel queue effects
      else do
        let ef ← finish it n
        let (queue, effects) ←
          cascadeSuccessors queue it.id it.status it.reason (effects ++ [ef])
        terminateLoop fuel queue effects

/-- Drive a node to a final status and propagate the consequence. -/
def terminate (fuel root : ℕ) (status : Status) (reason : Reason) (message : String) :
    Tx (List Effect) :=
  terminateLoop fuel [⟨root, status, reason, message⟩] []

def terminateAll (fuel : ℕ) (status : Status) (reason : Reason) (message : String) :
    List ℕ → Tx (List Effect)
  | [] => pure []
  | id :: ids => do
    let more ← terminate fuel id status reason message
    let effects ← terminateAll fuel status reason message ids
    pure (more ++ effects)

/-- Apply the trigger rule of a row to its tally. -/
def settle (fuel id : ℕ) (n : NodeRow) : Tx (List Effect) :=
  if n.phase ≠ .blocked ∧ n.phase ≠ .ready then pure []
  else if n.deps.unsatisfiable n.trigger then
    let reason := n.deps.terminalReason
    terminate fuel id .error reason (terminalMessage reason)
  else if n.deps.ready n.trigger then
    if n.phase ≠ .ready then do
      let ef ← makeReady id n
      pure [ef]
    else pure []
  else if n.phase ≠ .blocked then do
    makeBlocked id n
    pure []
  else pure []

def loadManyForUpdate : List ℕ → Tx (List (ℕ × NodeRow))
  | [] => pure []
  | id :: ids => do
    let r ← loadForUpdate id
    let rows ← loadManyForUpdate ids
    match r with
    | none => pure rows
    | some r => pure ((id, r) :: rows)

/-- Settle one node, re-read first if `reload`, and say whether an effect names another
node. -/
def settleOne (fuel id : ℕ) (snapshot : NodeRow) (reload : Bool) : Tx (List Effect × Bool) := do
  let n ← (if reload then loadForUpdate id else pure (some snapshot) : Tx (Option NodeRow))
  match n with
  | none => pure ([], false)
  | some n => do
    let effects ← settle fuel id n
    pure (effects, effects.any fun ef => ef.nodeID ≠ n.nodeID)

def settleLoop (fuel : ℕ) (snapshots : GoMap ℕ NodeRow) : List ℕ → Bool → Tx (List Effect)
  | [], _ => pure []
  | id :: ids, stale =>
    match snapshots.lookup id with
    | none => settleLoop fuel snapshots ids stale
    | some n => do
      let (more, cascaded) ← settleOne fuel id n stale
      let effects ← settleLoop fuel snapshots ids (stale || cascaded)
      pure (more ++ effects)

def settleTouched (fuel : ℕ) (ids : List ℕ) : Tx (List Effect) :=
  if ids = [] then pure []
  else do
    let rows ← loadManyForUpdate ids
    settleLoop fuel (Engine.snapshotsOf rows) ids false

/-! ## Topological order -/

/-- A search: parent pointers, the nodes visited in order, which are also the region, and
the stack. -/
structure Search where
  parent : ℕ → Option ℕ := fun _ => none
  visited : List ℕ
  stack : List ℕ

def Search.visit (st : Search) (n s : ℕ) : Search :=
  { parent := update st.parent s (some n)
    visited := st.visited ++ [s]
    stack := s :: st.stack }

def tracePath (st : Search) (start n : ℕ) : List ℕ :=
  Memory.Scope.traceLoop st.parent start (st.visited.length + 1) n []

/-- The successors of `n` in `forwardSearch`; the path when one of them is `x`. -/
def forwardScan (x y ub n : ℕ) : List (ℕ × ℕ) → Search → Except (List ℕ) Search
  | [], st => .ok st
  | (s, rank) :: succs, st =>
    if s = x then
      .error (tracePath { st with parent := update st.parent s (some n) } y x)
    else if s ∉ st.visited ∧ rank < ub then forwardScan x y ub n succs (st.visit n s)
    else forwardScan x y ub n succs st

def forwardLoop (x y ub : ℕ) : ℕ → Search → Tx (Except (List ℕ) (List ℕ))
  | 0, _ => .abort
  | fuel + 1, st =>
    match st.stack with
    | [] => pure (.ok st.visited)
    | n :: stack => do
      let succs ← successorRanks n
      match forwardScan x y ub n succs { st with stack := stack } with
      | .error path => pure (.error path)
      | .ok st => forwardLoop x y ub fuel st

/-- Walk successors from `y` below the rank of `x`, or report the path back to `x`. -/
def forwardSearch (fuel x y ub : ℕ) : Tx (Except (List ℕ) (List ℕ)) :=
  forwardLoop x y ub fuel { visited := [y], stack := [y] }

/-- The predecessors of a node in `backwardSearch`. -/
def backwardScan (lb n : ℕ) : List (ℕ × ℕ) → Search → Search
  | [], st => st
  | (p, rank) :: preds, st =>
    if p ∉ st.visited ∧ lb < rank then backwardScan lb n preds (st.visit n p)
    else backwardScan lb n preds st

def backwardLoop (lb : ℕ) : ℕ → Search → Tx (List ℕ)
  | 0, _ => .abort
  | fuel + 1, st =>
    match st.stack with
    | [] => pure st.visited
    | n :: stack => do
      let preds ← predecessorRanks n
      backwardLoop lb fuel (backwardScan lb n preds { st with stack := stack })

/-- Walk predecessors from `x` above the rank of `y`. -/
def backwardSearch (fuel x lb : ℕ) : Tx (List ℕ) :=
  backwardLoop lb fuel { visited := [x], stack := [x] }

/-- A Go map of ranks, zero for a missing key. -/
def rankIn (ranks : List (ℕ × ℕ)) (id : ℕ) : ℕ :=
  ((ranks.find? fun x => x.1 = id).map Prod.snd).getD 0

def assignRanks : List ℕ → List ℕ → Tx Unit
  | id :: ids, rank :: pool => do
    let _ ← updateNode id fun r => { r with rank := rank }
    assignRanks ids pool
  | _, _ => pure ()

/-- Reassign the ranks of the two regions so that `deltaB` precedes `deltaF`. -/
def reorder (deltaB deltaF : List ℕ) : Tx Unit := do
  let ranks ← ranksOf (deltaB ++ deltaF)
  let deltaB := deltaB.insertionSort fun a b => rankIn ranks a ≤ rankIn ranks b
  let deltaF := deltaF.insertionSort fun a b => rankIn ranks a ≤ rankIn ranks b
  let pool := ((deltaB ++ deltaF).map (rankIn ranks)).insertionSort (· ≤ ·)
  assignRanks (deltaB ++ deltaF) pool

/-- Restore the order for a proposed edge from `x` to `y`, or return the path that it would
close into a cycle. -/
def addEdgeOrder (fuel x y : ℕ) : Tx (Option (List ℕ)) := do
  let ranks ← ranksOf [x, y]
  let rx := rankIn ranks x
  let ry := rankIn ranks y
  if rx < ry then pure none
  else do
    let forward ← forwardSearch fuel x y rx
    match forward with
    | .error path => pure (some path)
    | .ok deltaF => do
      let deltaB ← backwardSearch fuel x ry
      reorder deltaB deltaF
      pure none

/-! ## Edges -/

/-- How a predecessor counts in the tally of its successors. -/
def edgeOutcome (satisfied : Bool) (n : NodeRow) : DepCounts.Outcome :=
  if satisfied then .ofTerminal n.status n.reason else .unsatisfied

/-- Record that `to` depends on `source`, and return the copy of `to` with its new tally. -/
def linkDependency (fuel : ℕ) (scope : String) (source target : ℕ × NodeRow) : Tx NodeRow := do
  let found ← edgeExists source.1 target.1
  if found then pure target.2
  else if target.2.phase = .done then .fail (.wrapped .alreadyTerminal target.2.nodeID.quote)
  else do
    let cyclePath ← addEdgeOrder fuel source.1 target.1
    match cyclePath with
    | some path => do
      let names ← externalIDs path
      let name := fun id => ((names.find? fun x => x.1 = id).map Prod.snd).getD ""
      .fail (.cycle scope source.2.nodeID target.2.nodeID (path.map name))
    | none => do
      let satisfied := source.2.phase = .done
      insertEdge source.1 target.1 satisfied
      let deps := target.2.deps.incr (edgeOutcome satisfied source.2)
      let _ ← updateNode target.1 fun r => { r with deps := deps }
      pure { target.2 with deps := deps }

/-- Drop an edge if it exists, reverting the tally of its target. -/
def unlinkDependency (fromID toID : ℕ) : Tx Bool := do
  let dropped ← deleteEdge fromID toID
  match dropped with
  | none => pure false
  | some satisfied => do
    let source ← loadForUpdate fromID
    let source ← orAbort source
    let _ ← updateNode toID fun r => { r with deps := r.deps.decr (edgeOutcome satisfied source) }
    pure true

end Tx
end DagWorker.Postgres
