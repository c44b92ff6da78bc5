import DagWorker.Core.Node
import Mathlib.Data.List.Sort

/-!
# The PostgreSQL engine

The fan-out of one graph transaction: settling a node, terminating it, and cascading the
consequence.  An `Engine` holds the rows the transaction sees, keyed by their internal
identifiers, and what it has written so far.  What the server returns to an `INSERT` of an
event and to `nextval` is given by a `Server`.
-/

namespace DagWorker.Postgres

/-- A row of `dagw.nodes`, without its internal identifier and its scope. -/
structure NodeRow where
  nodeID : NodeID
  rank : ℕ := 0
  kind : String := ""
  status : Status := .new
  reason : Reason := .none
  message : String := ""
  phase : Phase := .blocked
  attempt : ℕ := 0
  epoch : ℕ := 0
  priority : Int := 0
  trigger : TriggerRule := .allSuccess
  retry : RetryPolicy := {}
  payload : Bytes := []
  result : Bytes := []
  labels : Labels := ∅
  worker : String := ""
  seq : ℕ := 0
  fifo : ℕ := 0
  deps : DepCounts := {}
  deadline : Option Int := none
  readyAt : Option Int := none
  createdAt : Int := 0
  updatedAt : Int := 0
deriving DecidableEq

/-- A row of `dagw.scopes`. -/
structure ScopeRow where
  isSealed : Bool := false
  cfg : ScopeConfig := {}
  stats : ScopeStats := {}
  epochFloor : ℕ := 0
deriving DecidableEq, Repr

/-- The tables, as far as they belong to one scope.  Nodes are keyed by their internal
identifiers, edges by source and target, with their flag `satisfied`.  `nextID` and
`nextRank` bound the values that the identity columns have handed out. -/
structure Db where
  scopeRow : Option ScopeRow := none
  rows : GoMap ℕ NodeRow := ∅
  edges : GoMap (ℕ × ℕ) Bool := ∅
  nextID : ℕ := 1
  nextRank : ℕ := 1

/-- What the server answers: cursor and time of the `n`-th event that the
transaction inserts, and the `n`-th value it draws from the sequence. -/
structure Server where
  event : ℕ → ℕ × Int
  fifo : ℕ → ℕ

/-- What one transaction's engine keeps on its own side: the events it inserted, how many
values it drew, its counter deltas and whether to notify. -/
structure Local where
  events : List Effect := []
  fifos : ℕ := 0
  stats : GoMap String Int := ∅
  notify : Bool := false

/-- One transaction's engine: the tables as the transaction sees them, and its own side. -/
structure Engine extends Db, Local

/-- The message of a node whose trigger rule became unsatisfiable. -/
def terminalMessage : Reason → String
  | .upstreamFailed => "a predecessor failed and the trigger rule can no longer be satisfied"
  | .skipped => "the trigger rule can no longer be satisfied"
  | .removed => "a predecessor was removed"
  | .cancelled => "cancelled"
  | _ => ""

/-- The counter a phase and a status belong to. -/
def bucketColumn (phase : Phase) (status : Status) : String :=
  match phase with
  | .blocked => "stat_blocked"
  | .scheduled => "stat_scheduled"
  | .ready => "stat_ready"
  | .claimed => "stat_in_progress"
  | .done => if status = .success then "stat_succeeded" else "stat_failed"

namespace Engine

/-! ## Statements -/

variable (e : Engine)

/-- `e.stats[col] += d`. -/
def bump (col : String) (d : Int) : Engine :=
  { e with stats := e.stats.insert col ((e.stats.lookup col).getD 0 + d) }

def moveBucket (oldPhase : Phase) (oldStatus : Status) (newPhase : Phase)
    (newStatus : Status) : Engine :=
  let oldCol := bucketColumn oldPhase oldStatus
  let newCol := bucketColumn newPhase newStatus
  if oldCol = newCol then e else (e.bump oldCol (-1)).bump newCol 1

/-- `UPDATE dagw.nodes SET … WHERE id = $1`. -/
def updateNode (id : ℕ) (f : NodeRow → NodeRow) : Engine :=
  match e.rows.lookup id with
  | none => e
  | some r => { e with rows := e.rows.insert id (f r) }

/-- `RETURNING seq`. -/
def seqOf (id : ℕ) : ℕ :=
  match e.rows.lookup id with
  | none => 0
  | some r => r.seq

variable (srv : Server)

def insertEvent (nodeID : NodeID) (nodeKind : String)
    (kind : EventKind) (fromStatus toStatus : Status) (reason : Reason) (message : String)
    (attempt seq : ℕ) : Effect × Engine :=
  let (cursor, time) := srv.event e.events.length
  let ef : Effect :=
    { nodeID := nodeID
      kind := kind
      fromStatus := fromStatus
      toStatus := toStatus
      reason := reason
      message := message
      attempt := attempt
      nodeKind := nodeKind
      seq := seq
      cursor := cursor
      time := time }
  (ef, { e with events := e.events ++ [ef], notify := true })

def loadForUpdate (id : ℕ) : Option NodeRow := e.rows.lookup id

def targets (fromID : ℕ) : List ℕ :=
  ((e.edges.keys.filter fun (k : ℕ × ℕ) => k.1 = fromID).map Prod.snd).insertionSort (· ≤ ·)

/-- Lock and return the direct successors of a node, in ascending order. -/
def successorsForUpdate (fromID : ℕ) : List (ℕ × NodeRow) :=
  (e.targets fromID).filterMap fun w => (e.rows.lookup w).map fun r => (w, r)

/-- Mark an edge satisfied, and say whether it was not. -/
def markEdgeSatisfied (fromID toID : ℕ) : Bool × Engine :=
  match e.edges.lookup (fromID, toID) with
  | some false => (true, { e with edges := e.edges.insert (fromID, toID) true })
  | _ => (false, e)

/-- The tally once a predecessor resolved with this outcome. -/
def resolve (d : DepCounts) (o : DepCounts.Outcome) : DepCounts :=
  (d.decr .unsatisfied).incr o

/-- Record that a predecessor resolved. -/
def applyDepDelta (succID : ℕ) (predStatus : Status) (predReason : Reason) : Engine :=
  e.updateNode succID fun r =>
    { r with deps := resolve r.deps (.ofTerminal predStatus predReason) }

/-- `RETURNING deps_unsatisfied, deps_succeeded, deps_skipped, deps_failed`. -/
def depsOf (id : ℕ) : DepCounts :=
  match e.rows.lookup id with
  | none => {}
  | some r => r.deps

/-! ## Scheduling -/

/-- Move a node into the ready set.  `n` is the caller's copy of the row. -/
def makeReady (id : ℕ) (n : NodeRow) : Effect × Engine :=
  let fifo := srv.fifo e.fifos
  let e := e.updateNode id fun r =>
    { r with phase := .ready, status := .new, readyAt := none, fifo := fifo, seq := r.seq + 1 }
  let e := { e with fifos := e.fifos + 1 }
  let e := e.moveBucket n.phase n.status .ready .new
  e.insertEvent srv n.nodeID n.kind .ready .new .new .none "" n.attempt (e.seqOf id)

/-- Pull a node out of the ready set. -/
def makeBlocked (id : ℕ) (n : NodeRow) : Engine :=
  let e := e.updateNode id fun r => { r with phase := .blocked, status := .new }
  e.moveBucket n.phase n.status .blocked .new

structure TerminateItem where
  id : ℕ
  status : Status
  reason : Reason
  message : String
deriving DecidableEq, Repr

/-- The body of the loop of `cascadeSuccessors`, for one loaded successor. -/
def cascadeOne (fromID : ℕ) (fromStatus : Status) (fromReason : Reason)
    (w : ℕ) (succ : NodeRow) (e : Engine) (queue : List TerminateItem)
    (effects : List Effect) : Engine × List TerminateItem × List Effect :=
  match e.markEdgeSatisfied fromID w with
  | (false, e) => (e, queue, effects)
  | (true, e) =>
    let e := e.applyDepDelta w fromStatus fromReason
    let deps := e.depsOf w
    if succ.phase ≠ .blocked ∧ succ.phase ≠ .ready then (e, queue, effects)
    else if deps.unsatisfiable succ.trigger then
      let rs := deps.terminalReason
      (e, queue ++ [⟨w, .error, rs, terminalMessage rs⟩], effects)
    else if deps.ready succ.trigger then
      if succ.phase ≠ .ready then
        let (ef, e) := e.makeReady srv w succ
        (e, queue, effects ++ [ef])
      else (e, queue, effects)
    else (e, queue, effects)

/-- The loop of `cascadeSuccessors`. -/
def cascadeLoop (srv : Server) (fromID : ℕ) (fromStatus : Status) (fromReason : Reason) :
    List (ℕ × NodeRow) → Engine → List TerminateItem → List Effect →
      Engine × List TerminateItem × List Effect
  | [], e, queue, effects => (e, queue, effects)
  | (w, succ) :: succs, e, queue, effects =>
    let (e, queue, effects) :=
      cascadeOne srv fromID fromStatus fromReason w succ e queue effects
    cascadeLoop srv fromID fromStatus fromReason succs e queue effects

/-- Tell the successors of a node that it resolved. -/
def cascadeSuccessors (queue : List TerminateItem) (fromID : ℕ)
    (fromStatus : Status) (fromReason : Reason) (effects : List Effect) :
    Engine × List TerminateItem × List Effect :=
  cascadeLoop srv fromID fromStatus fromReason (e.successorsForUpdate fromID) e queue effects

/-- The write of `terminate` for one node, with its event. -/
def finish (it : TerminateItem) (n : NodeRow) : Effect × Engine :=
  let e := e.updateNode it.id fun r =>
    { r with
      phase := .done
      status := it.status
      reason := it.reason
      message := it.message
      deadline := none
      readyAt := none
      worker := ""
      seq := r.seq + 1 }
  let e := e.moveBucket n.phase n.status .done it.status
  e.insertEvent srv n.nodeID n.kind .transition n.status it.status it.reason it.message n.attempt
    (e.seqOf it.id)

/-- The queue loop of `terminate`. -/
def terminateLoop (srv : Server) :
    ℕ → List TerminateItem → Engine → List Effect → Engine × List Effect
  | 0, _, e, effects => (e, effects)
  | _ + 1, [], e, effects => (e, effects)
  | fuel + 1, it :: queue, e, effects =>
    match e.loadForUpdate it.id with
    | none => terminateLoop srv fuel queue e effects
    | some n =>
      if n.phase = .done then terminateLoop srv fuel queue e effects
      else
        let (ef, e) := e.finish srv it n
        let (e, queue, effects) :=
          e.cascadeSuccessors srv queue it.id it.status it.reason (effects ++ [ef])
        terminateLoop srv fuel queue e effects

def openEdges : ℕ := e.edges.entries.countP fun x => x.2 = false

/-- Drive a node to a final status and propagate the consequence.  Every entry
of the queue after the first comes with an edge that was marked satisfied, so
the loop runs at most once more than there are open edges. -/
def terminate (root : ℕ) (status : Status) (reason : Reason)
    (message : String) : Engine × List Effect :=
  terminateLoop srv (e.openEdges + 1) [⟨root, status, reason, message⟩] e []

/-- Apply the trigger rule of a row to its tally.  `n` is the caller's copy of
the row `id`. -/
def settle (id : ℕ) (n : NodeRow) : Engine × List Effect :=
  if n.phase ≠ .blocked ∧ n.phase ≠ .ready then (e, [])
  else if n.deps.unsatisfiable n.trigger then
    let reason := n.deps.terminalReason
    e.terminate srv id .error reason (terminalMessage reason)
  else if n.deps.ready n.trigger then
    if n.phase ≠ .ready then
      let (ef, e) := e.makeReady srv id n
      (e, [ef])
    else (e, [])
  else if n.phase ≠ .blocked then (e.makeBlocked id n, [])
  else (e, [])

/-! ## Settling what an operation touched -/

/-- Lock and return the nodes named by `ids` that exist. -/
def loadManyForUpdate (ids : List ℕ) : List (ℕ × NodeRow) :=
  ids.filterMap fun id => (e.rows.lookup id).map fun r => (id, r)

def snapshotsOf (rows : List (ℕ × NodeRow)) : GoMap ℕ NodeRow :=
  rows.foldl (fun m x => m.insert x.1 x.2) ∅

/-- Settle one node, re-read first if `reload`, and say whether an effect names
another node. -/
def settleOne (id : ℕ) (snapshot : NodeRow) (reload : Bool) : Engine × List Effect × Bool :=
  match if reload then e.loadForUpdate id else some snapshot with
  | none => (e, [], false)
  | some n =>
    let (e, effects) := e.settle srv id n
    (e, effects, effects.any fun ef => ef.nodeID ≠ n.nodeID)

/-- The loop of `settleTouched`. -/
def settleLoop (srv : Server) (snapshots : GoMap ℕ NodeRow) :
    List ℕ → Bool → Engine → Engine × List Effect
  | [], _, e => (e, [])
  | id :: ids, stale, e =>
    match snapshots.lookup id with
    | none => settleLoop srv snapshots ids stale e
    | some n =>
      let (e, more, cascaded) := e.settleOne srv id n stale
      let (e, effects) := settleLoop srv snapshots ids (stale || cascaded) e
      (e, more ++ effects)

/-- Re-evaluate every node named by `ids`: all rows are read at once, and read
again only after a settle has reached another node. -/
def settleTouched (ids : List ℕ) : Engine × List Effect :=
  if ids = [] then (e, [])
  else settleLoop srv (snapshotsOf (e.loadManyForUpdate ids)) ids false e

/-- The reference: every node is read and locked immediately before it is
settled. -/
def settleFresh (srv : Server) : List ℕ → Engine → Engine × List Effect
  | [], e => (e, [])
  | id :: ids, e =>
    match e.loadForUpdate id with
    | none => settleFresh srv ids e
    | some n =>
      let (e, more) := e.settle srv id n
      let (e, effects) := settleFresh srv ids e
      (e, more ++ effects)

end Engine
end DagWorker.Postgres
