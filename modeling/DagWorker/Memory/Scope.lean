import DagWorker.Core.Node
import DagWorker.PQ.Heap
import Mathlib.Tactic.Simps.Basic

/-!
# One scope of the in-memory store

The state of a scope and the transitions every operation is built from: slots, statistics,
the moves between phases, the termination cascade, and the two halves of an edge.

Slices indexed by handle are total functions, zero outside the first `size` slots.  A
channel that is closed and replaced to wake its listeners is the number of the current one.
Functions that read the clock are programs in the sense of `Prog`.
-/

namespace DagWorker.Memory

open Function
open PQ (Heap)

structure PredEdge where
  source : ℕ
  satisfied : Bool
deriving DecidableEq, Repr

structure NodeRec where
  id : NodeID := ""
  kind : String := ""
  message : String := ""
  worker : String := ""
  payload : Bytes := []
  result : Bytes := []
  labels : Labels := ∅
  retry : RetryPolicy := {}
  deps : DepCounts := {}
  seq : ℕ := 0
  epoch : ℕ := 0
  attempt : ℕ := 0
  priority : Int := 0
  status : Status := .new
  reason : Reason := .none
  phase : Phase := .blocked
  trigger : TriggerRule := .allSuccess
  alive : Bool := false
  createdAt : Int := 0
  updatedAt : Int := 0

/-- A namespace's entire graph.

`suppressed` is a ghost: it counts the decrements that an `if count > 0` guard
skipped.  The source has no such field and no transition reads it. -/
structure Scope where
  name : String
  cfg : ScopeConfig
  isSealed : Bool := false
  index : GoMap NodeID ℕ := ∅
  size : ℕ := 0
  recs : ℕ → NodeRec := fun _ => {}
  /-- Freed slots, the most recently freed first. -/
  free : List ℕ := []
  succ : ℕ → List ℕ := fun _ => []
  pred : ℕ → List PredEdge := fun _ => []
  ord : ℕ → ℕ := fun _ => 0
  deadline : ℕ → Int := fun _ => 0
  readyAt : ℕ → Int := fun _ => 0
  fifo : ℕ → ℕ := fun _ => 0
  nextOrd : ℕ := 1
  nextFifo : ℕ := 0
  epochFloor : ℕ := 0
  /-- One ready set per node kind. -/
  ready : GoMap String Heap := ∅
  leases : Heap := .empty
  scheduled : Heap := .empty
  stats : ScopeStats := {}
  doorbell : ℕ := 0
  cursor : ℕ := 0
  log : List Event := []
  logStart : ℕ := 1
  logCap : ℕ
  logBell : ℕ := 0
  suppressed : ℕ := 0

namespace Scope

def newScope (name : String) (cfg : ScopeConfig) (logCap : ℕ) : Scope :=
  { name := name, cfg := cfg, logCap := logCap }

variable (s : Scope)

@[simps -fullyApplied]
def modRec (h : ℕ) (f : NodeRec → NodeRec) : Scope :=
  { s with recs := update s.recs h (f (s.recs h)) }

/-! ## Orders of the heaps -/

def leaseLess (a b : ℕ) : Bool := s.deadline a < s.deadline b

def scheduledLess (a b : ℕ) : Bool := s.readyAt a < s.readyAt b

/-- Ready nodes are ordered by descending priority, then by insertion. -/
def readyLess (a b : ℕ) : Bool :=
  if (s.recs a).priority ≠ (s.recs b).priority then
    (s.recs b).priority < (s.recs a).priority
  else s.fifo a < s.fifo b

/-- The ready set of a kind, empty until its first use. -/
def readyHeap (kind : String) : Heap :=
  (s.ready.lookup kind).getD .empty

@[simps -fullyApplied]
def setReady (kind : String) (q : Heap) : Scope :=
  { s with ready := s.ready.insert kind q }

def removeReady (kind : String) (h : ℕ) : Scope :=
  s.setReady kind ((s.readyHeap kind).remove s.readyLess h)

def pushReady (kind : String) (h : ℕ) : Scope :=
  s.setReady kind ((s.readyHeap kind).push s.readyLess h)

@[simps -fullyApplied]
def removeScheduled (h : ℕ) : Scope :=
  { s with scheduled := s.scheduled.remove s.scheduledLess h }

@[simps -fullyApplied]
def popScheduled : Scope :=
  { s with scheduled := s.scheduled.pop s.scheduledLess }

@[simps -fullyApplied]
def pushScheduled (h : ℕ) : Scope :=
  { s with scheduled := s.scheduled.push s.scheduledLess h }

@[simps -fullyApplied]
def removeLease (h : ℕ) : Scope :=
  { s with leases := s.leases.remove s.leaseLess h }

@[simps -fullyApplied]
def pushLease (h : ℕ) : Scope :=
  { s with leases := s.leases.push s.leaseLess h }

@[simps -fullyApplied]
def setDeadline (h : ℕ) (t : Int) : Scope :=
  { s with deadline := update s.deadline h t }

@[simps -fullyApplied]
def setReadyAt (h : ℕ) (t : Int) : Scope :=
  { s with readyAt := update s.readyAt h t }

/-! ## Slots -/

/-- All parallel arrays at `h` set to their zero values. -/
@[simps -fullyApplied]
def clearSlot (h : ℕ) : Scope :=
  { s with
    recs := update s.recs h {}
    succ := update s.succ h []
    pred := update s.pred h []
    ord := update s.ord h 0
    deadline := update s.deadline h 0
    readyAt := update s.readyAt h 0
    fifo := update s.fifo h 0 }

/-- Reserve a handle, reusing the slot freed last when there is one. -/
def alloc : ℕ × Scope :=
  match s.free with
  | h :: rest => (h, { s with free := rest }.clearSlot h)
  | [] => (s.size, { s with size := s.size + 1 }.clearSlot s.size)

/-- Free a slot, retiring the epoch of its generation first. -/
@[simps -fullyApplied]
def release (h : ℕ) : Scope :=
  { s with
    epochFloor := if s.epochFloor < (s.recs h).epoch then (s.recs h).epoch else s.epochFloor
    recs := update s.recs h {}
    succ := update s.succ h []
    pred := update s.pred h []
    free := h :: s.free }

def lookup (s : Scope) (id : NodeID) : Option ℕ := s.index.lookup id

/-! ## Statistics -/

/-- The counters a node can belong to. -/
inductive Bucket
  | blocked
  | scheduled
  | ready
  | inProgress
  | succeeded
  | failed
deriving DecidableEq, Repr

/-- The counter a record currently belongs to. -/
def bucket (r : NodeRec) : Bucket :=
  match r.phase with
  | .blocked => .blocked
  | .scheduled => .scheduled
  | .ready => .ready
  | .claimed => .inProgress
  | .done => if r.status = .success then .succeeded else .failed

def counter (st : ScopeStats) : Bucket → Int
  | .blocked => st.blocked
  | .scheduled => st.scheduled
  | .ready => st.ready
  | .inProgress => st.inProgress
  | .succeeded => st.succeeded
  | .failed => st.failed

def addCounter (st : ScopeStats) (d : Int) : Bucket → ScopeStats
  | .blocked => { st with blocked := st.blocked + d }
  | .scheduled => { st with scheduled := st.scheduled + d }
  | .ready => { st with ready := st.ready + d }
  | .inProgress => { st with inProgress := st.inProgress + d }
  | .succeeded => { st with succeeded := st.succeeded + d }
  | .failed => { st with failed := st.failed + d }

@[simps -fullyApplied]
def leaveBucket (h : ℕ) : Scope :=
  { s with stats := addCounter s.stats (-1) (bucket (s.recs h)) }

@[simps -fullyApplied]
def enterBucket (h : ℕ) : Scope :=
  { s with stats := addCounter s.stats 1 (bucket (s.recs h)) }

@[simps -fullyApplied]
def addTotal (d : Int) : Scope :=
  { s with stats := { s.stats with total := s.stats.total + d } }

/-- `s.stats.Complete = s.sealed && s.stats.NonTerminal() == 0`. -/
@[simps -fullyApplied]
def refreshComplete : Scope :=
  { s with stats := { s.stats with
      complete := s.isSealed && decide (s.stats.nonTerminal = 0) } }

/-! ## Events -/

/-- Append to the event ring, dropping the oldest half once it has grown to
twice its capacity. -/
def appendLog (ef : Effect) : Scope :=
  let log := s.log ++ [{ scope := s.name, effect := ef }]
  if 2 * s.logCap ≤ log.length then
    let drop := log.length - s.logCap
    { s with log := log.drop drop, logStart := s.logStart + drop, logBell := s.logBell + 1 }
  else { s with log := log, logBell := s.logBell + 1 }

/-- The effect of a change of node `h`, stamped with its sequence number and
the scope's cursor. -/
def effectOf (h : ℕ) (kind : EventKind) (fromStatus : Status) (t : Int) : Effect :=
  let r := s.recs h
  { nodeID := r.id
    kind := kind
    fromStatus := fromStatus
    toStatus := r.status
    reason := r.reason
    message := r.message
    attempt := r.attempt
    nodeKind := r.kind
    seq := r.seq
    cursor := s.cursor
    time := t }

@[simps -fullyApplied]
def bumpCursor : Scope := { s with cursor := s.cursor + 1 }

/-- `record` at clock reading `t`. -/
def recordAt (h : ℕ) (kind : EventKind) (fromStatus : Status) (t : Int) : Effect × Scope :=
  let s := s.modRec h fun r => { r with seq := r.seq + 1 }
  let s := s.bumpCursor
  let ef := s.effectOf h kind fromStatus t
  (ef, s.appendLog ef)

/-- Stamp a state change, append it to the log and return it. -/
def record (h : ℕ) (kind : EventKind) (fromStatus : Status) : Prog (Effect × Scope) := do
  let t ← Prog.getNow
  pure (s.recordAt h kind fromStatus t)

@[simps -fullyApplied]
def ringDoorbell : Scope := { s with doorbell := s.doorbell + 1 }

/-! ## Scheduling -/

/-- `s.nextFifo++` and `s.fifo[h] = s.nextFifo`. -/
@[simps -fullyApplied]
def stampFifo (h : ℕ) : Scope :=
  { s with nextFifo := s.nextFifo + 1, fifo := update s.fifo h (s.nextFifo + 1) }

def makeReady (h : ℕ) : Scope :=
  let s := s.leaveBucket h
  let s := s.modRec h fun r => { r with phase := .ready, status := .new }
  let s := s.setReadyAt h 0
  let s := s.removeScheduled h
  let s := s.stampFifo h
  let s := s.pushReady (s.recs h).kind h
  let s := s.enterBucket h
  s.ringDoorbell

/-- Pull a node out of the ready set because a dependency was added. -/
def makeBlocked (h : ℕ) : Scope :=
  let s := s.leaveBucket h
  let s := s.removeReady (s.recs h).kind h
  let s := s.removeScheduled h
  let s := s.setReadyAt h 0
  let s := s.modRec h fun r => { r with phase := .blocked, status := .new }
  s.enterBucket h

/-- Park a node until a retry backoff elapses. -/
def schedule (h : ℕ) (releaseAt : Int) : Scope :=
  let s := s.leaveBucket h
  let s := s.removeReady (s.recs h).kind h
  let s := s.modRec h fun r => { r with phase := .scheduled, status := .new }
  let s := s.setReadyAt h releaseAt
  let s := s.pushScheduled h
  s.enterBucket h

/-- One iteration of `promoteScheduled`: the node at the top is released. -/
def promote (h : ℕ) : Scope :=
  s.popScheduled.makeReady h

/-- The loop of `promoteScheduled`.  Every iteration takes one node out of the
heap, so the fuel is its length. -/
def promoteLoop (now : Int) : ℕ → Scope → List Effect → Prog (Scope × List Effect)
  | 0, s, out => pure (s, out)
  | fuel + 1, s, out =>
    match s.scheduled.peek with
    | none => pure (s, out)
    | some h =>
      if now < s.readyAt h then pure (s, out)
      else do
        let (ef, s) ← (s.promote h).record h .ready .new
        promoteLoop now fuel s (out ++ [ef])

/-- Release every node whose backoff has elapsed. -/
def promoteScheduled (now : Int) : Prog (Scope × List Effect) :=
  promoteLoop now s.scheduled.len s []

def terminalMessage : Reason → String
  | .upstreamFailed => "a predecessor failed and the trigger rule can no longer be satisfied"
  | .skipped => "the trigger rule can no longer be satisfied"
  | .removed => "a predecessor was removed"
  | .cancelled => "cancelled"
  | _ => ""

/-! ## Edges -/

/-- Mark the first unsatisfied edge from `u`, if there is one. -/
def flipFirst (u : ℕ) : List PredEdge → Option (List PredEdge)
  | [] => none
  | e :: es =>
    if e.source = u ∧ e.satisfied = false then some ({ e with satisfied := true } :: es)
    else (flipFirst u es).map (e :: ·)

/-- Take one predecessor out of a node's tally, under the source's guard. -/
@[simps -fullyApplied]
def decrDeps (h : ℕ) (o : DepCounts.Outcome) : Scope :=
  { s with
    recs := update s.recs h { s.recs h with deps := (s.recs h).deps.decr o }
    suppressed := s.suppressed + if 0 < (s.recs h).deps.count o then 0 else 1 }

def incrDeps (h : ℕ) (o : DepCounts.Outcome) : Scope :=
  s.modRec h fun r => { r with deps := r.deps.incr o }

@[simps -fullyApplied]
def setPred (h : ℕ) (es : List PredEdge) : Scope :=
  { s with pred := update s.pred h es }

@[simps -fullyApplied]
def setSucc (h : ℕ) (ws : List ℕ) : Scope :=
  { s with succ := update s.succ h ws }

/-- Record that one incoming edge resolved; `false` when nothing changed. -/
def markSatisfied (w u : ℕ) (status : Status) (reason : Reason) : Scope × Bool :=
  match flipFirst u (s.pred w) with
  | none => (s, false)
  | some es =>
    let s := s.setPred w es
    let s := s.decrDeps w .unsatisfied
    let s := s.incrDeps w (.ofTerminal status reason)
    (s, true)

def hasEdge (u v : ℕ) : Bool :=
  (s.pred v).any fun e => e.source = u

/-- How an edge with this flag counts, given its source's record. -/
def edgeOutcome (satisfied : Bool) (r : NodeRec) : DepCounts.Outcome :=
  if satisfied then .ofTerminal r.status r.reason else .unsatisfied

/-- Record a dependency and update the successor's tally. -/
def linkEdge (u v : ℕ) : Scope :=
  let satisfied := decide ((s.recs u).phase = .done)
  let s := s.setPred v (s.pred v ++ [{ source := u, satisfied := satisfied }])
  let s := s.setSucc u (s.succ u ++ [v])
  s.incrDeps v (edgeOutcome satisfied (s.recs u))

/-- Drop a dependency if it exists. -/
def unlinkEdge (u v : ℕ) : Scope × Bool :=
  match (s.pred v).find? fun e => e.source = u with
  | none => (s, false)
  | some e =>
    let s := s.setPred v ((s.pred v).eraseP fun e => e.source = u)
    let s := s.decrDeps v (edgeOutcome e.satisfied (s.recs u))
    let s := s.setSucc u ((s.succ u).erase v)
    (s, true)

/-! ## Termination -/

structure Item where
  h : ℕ
  status : Status
  reason : Reason
  msg : String

/-- Drive one node to a final status: the body of the loop of `terminate` up to
the event. -/
def finish (it : Item) (now : Int) : Scope :=
  let s := s.leaveBucket it.h
  let s := s.removeReady (s.recs it.h).kind it.h
  let s := s.removeScheduled it.h
  let s := s.removeLease it.h
  let s := s.setDeadline it.h 0
  let s := s.setReadyAt it.h 0
  let s := s.modRec it.h fun r =>
    { r with
      phase := .done
      status := it.status
      reason := it.reason
      message := it.msg
      updatedAt := now }
  s.enterBucket it.h

/-- The fan-out of a terminated node `u` to its successors: each is told that
a dependency resolved, and its own rule decides what follows. -/
def fanOut (u : ℕ) (status : Status) (reason : Reason) :
    List ℕ → Scope → List Item → List Effect → Prog (Scope × List Item × List Effect)
  | [], s, queue, out => pure (s, queue, out)
  | w :: ws, s, queue, out =>
    match s.markSatisfied w u status reason with
    | (s, false) => fanOut u status reason ws s queue out
    | (s, true) =>
      let wr := s.recs w
      if wr.phase ≠ .blocked ∧ wr.phase ≠ .ready then
        fanOut u status reason ws s queue out
      else if wr.deps.unsatisfiable wr.trigger then
        let rs := wr.deps.terminalReason
        let it : Item := { h := w, status := .error, reason := rs, msg := terminalMessage rs }
        fanOut u status reason ws s (queue ++ [it]) out
      else if wr.deps.ready wr.trigger then
        if wr.phase ≠ .ready then do
          let (ef, s) ← (s.makeReady w).record w .ready .new
          fanOut u status reason ws s queue (out ++ [ef])
        else fanOut u status reason ws s queue out
      else fanOut u status reason ws s queue out

/-- The edges not yet marked satisfied. -/
def openEdges : ℕ :=
  ((List.range s.size).map fun v => (s.pred v).countP fun e => e.satisfied = false).sum

/-- The queue loop of `terminate`. -/
def terminateLoop : ℕ → List Item → Scope → List Effect → Prog (Scope × List Effect)
  | 0, _, s, out => pure (s, out)
  | _ + 1, [], s, out => pure (s, out)
  | fuel + 1, it :: queue, s, out =>
    let r := s.recs it.h
    if r.alive = false ∨ r.phase = .done then terminateLoop fuel queue s out
    else do
      let now ← Prog.getNow
      let (ef, s) ← (s.finish it now).record it.h .transition r.status
      let (s, queue, out) ←
        fanOut it.h it.status it.reason (s.succ it.h) s queue (out ++ [ef])
      terminateLoop fuel queue s out

/-- Drive a node to a final status and propagate the consequence.  Every entry
of the queue after the first comes with an edge that was marked satisfied, so
the loop runs at most once more than there are open edges. -/
def terminate (root : ℕ) (status : Status) (reason : Reason) (msg : String)
    (out : List Effect) : Prog (Scope × List Effect) :=
  terminateLoop (s.openEdges + 1)
    [{ h := root, status := status, reason := reason, msg := msg }] s out

/-- Apply a node's trigger rule to its current tally. -/
def settle (h : ℕ) (out : List Effect) : Prog (Scope × List Effect) :=
  let r := s.recs h
  if r.phase ≠ .blocked ∧ r.phase ≠ .ready then pure (s, out)
  else if r.deps.unsatisfiable r.trigger then
    let reason := r.deps.terminalReason
    s.terminate h .error reason (terminalMessage reason) out
  else if r.deps.ready r.trigger then
    if r.phase ≠ .ready then do
      let (ef, s) ← (s.makeReady h).record h .ready .new
      pure (s, out ++ [ef])
    else pure (s, out)
  else if r.phase ≠ .blocked then pure (s.makeBlocked h, out)
  else pure (s, out)

def settleAll : List ℕ → Scope → List Effect → Prog (Scope × List Effect)
  | [], s, out => pure (s, out)
  | h :: hs, s, out => do
    let (s, out) ← s.settle h out
    settleAll hs s out

/-! ## Snapshots of one node -/

def snapshot (h : ℕ) : Node :=
  let r := s.recs h
  { scope := s.name
    id := r.id
    kind := r.kind
    status := r.status
    reason := r.reason
    message := r.message
    attempt := r.attempt
    priority := r.priority
    trigger := r.trigger
    retry := r.retry
    payload := r.payload
    labels := r.labels
    seq := r.seq
    createdAt := r.createdAt
    updatedAt := r.updatedAt }

/-- An existing node was created from an identical definition. -/
def specMatches (h : ℕ) (spec : NodeSpec) : Bool :=
  let r := s.recs h
  r.kind = spec.kind && r.priority = spec.priority && r.trigger = spec.trigger &&
    r.retry = spec.retry && r.payload = spec.payload && r.labels.equal spec.labels

end Scope
end DagWorker.Memory
