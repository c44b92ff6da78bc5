import DagWorker.Redis.State
import DagWorker.Support.Prog

/-!
# The Lua prelude

The functions every script shares.  A script asks the server clock once, so most of them
take the instant as an argument; what is asked within them is the order of a set or a hash,
and jitter.
-/

namespace DagWorker.Redis

open Function

def defaultRetryBaseMs : Int := 1000
def defaultRetryMaxMs : Int := 300000
def defaultMaxAttempts : Int := 3
def promoteCap : ℕ := 10000

/-- `packScore`: higher priorities first, then smaller stamps. -/
def packScore (priority : Int) (fifo : ℕ) : Int :=
  (65535 - (priority + 32768)) * 4294967296 + fifo

/-- `adjustBucket` on the statistics. -/
def Stats.adjust (st : Stats) (phase : Phase) (status : Status) (delta : Int) : Stats :=
  match phase with
  | .blocked => { st with blocked := st.blocked + delta }
  | .scheduled => { st with scheduled := st.scheduled + delta }
  | .ready => { st with ready := st.ready + delta }
  | .claimed => { st with inProgress := st.inProgress + delta }
  | .done =>
    if status = .success then { st with succeeded := st.succeeded + delta }
    else { st with failed := st.failed + delta }

def terminalMessage : Reason → String
  | .upstreamFailed => "a predecessor failed and the trigger rule can no longer be satisfied"
  | .skipped => "the trigger rule can no longer be satisfied"
  | .removed => "a predecessor was removed"
  | .cancelled => "cancelled"
  | _ => ""

/-! ## Trigger rules -/

def depsReady (trigger : TriggerRule) (d : DepCounts) : Bool :=
  if trigger = .always then true
  else if 0 < d.unsatisfied then false
  else match trigger with
    | .allSuccess => d.failed = 0 && d.skipped = 0
    | .allDone => true
    | .noneFailed => d.failed = 0
    | .noneFailedMinOneSuccess => d.failed = 0 && decide (0 < d.succeeded)
    | _ => false

def depsUnsatisfiable (trigger : TriggerRule) (d : DepCounts) : Bool :=
  match trigger with
  | .always => false
  | .allDone => false
  | .allSuccess => decide (0 < d.failed) || decide (0 < d.skipped)
  | .noneFailed => decide (0 < d.failed)
  | .noneFailedMinOneSuccess =>
    decide (0 < d.failed) || (d.unsatisfied = 0 && d.succeeded = 0)
  | .unknown _ => false

def depsTerminalReason (d : DepCounts) : Reason :=
  if 0 < d.failed then .upstreamFailed else .skipped

namespace State

variable (s : State)

def adjustBucket (phase : Phase) (status : Status) (delta : Int) : State :=
  { s with stats := s.stats.adjust phase status delta }

def adjustTotal (delta : Int) : State :=
  { s with stats := { s.stats with total := s.stats.total + delta } }

variable (id : NodeID)

/-- Stamp a state change with a fresh sequence number and a fresh cursor, and append it
to the stream.  The rows appended during a script are the effects it returns. -/
def recordEvent (kind : EventKind) (fromStatus toStatus : Status)
    (reason : Reason) (message : String) (attempt : ℕ) (nodeKind : String) (atMs : Int) :
    State :=
  let seq := ((s.node id).map NodeHash.seq).getD 0 + 1
  let s := s.modNode id fun n => { n with seq := n.seq + 1 }
  { s with
    cursor := s.cursor + 1
    events := s.events ++ [{
      nodeID := id, kind := kind, fromStatus := fromStatus, toStatus := toStatus,
      reason := reason, message := message, attempt := attempt, nodeKind := nodeKind,
      seq := seq, cursor := s.cursor + 1, time := atMs }] }

/-! ## Phase transitions -/

def makeReady (kind : String) (priority : Int) (oldPhase : Phase) (oldStatus : Status) : State :=
  let s := s.adjustBucket oldPhase oldStatus (-1)
  let s := s.zremSched id
  let fifo := s.nextFifo + 1
  let s := { s with
    nextFifo := fifo
    kinds := if kind ∈ s.kinds then s.kinds else s.kinds ++ [kind]
    ready := update s.ready kind ((s.ready kind).insert id (packScore priority fifo)) }
  let s := s.modNode id fun n =>
    { n with phase := .ready, status := .new, fifo := fifo, readyAt := 0 }
  s.adjustBucket .ready .new 1

def makeBlocked (kind : String) (oldPhase : Phase) (oldStatus : Status) : State :=
  let s := s.adjustBucket oldPhase oldStatus (-1)
  let s := (s.zremReady kind id).zremSched id
  let s := s.modNode id fun n => { n with phase := .blocked, status := .new, readyAt := 0 }
  s.adjustBucket .blocked .new 1

def scheduleRetry (kind : String) (atMs : Int) (oldPhase : Phase) (oldStatus : Status) : State :=
  let s := s.adjustBucket oldPhase oldStatus (-1)
  let s := s.zremReady kind id
  let s := s.modNode id fun n => { n with phase := .scheduled, status := .new, readyAt := atMs }
  let s := { s with sched := s.sched.insert id atMs }
  s.adjustBucket .scheduled .new 1

/-! ## Edges -/

def hasEdge (source target : NodeID) : Bool := ((s.pred target).lookup source).isSome

/-- `HINCRBY n:<id> deps... 1`. -/
def countDep (o : DepCounts.Outcome) : State :=
  s.modNode id fun n => { n with deps := n.deps.incr o }

/-- `HINCRBY n:<id> deps... -1`, where the count is positive. -/
def uncountDep (o : DepCounts.Outcome) : State :=
  s.modNode id fun n => { n with deps := n.deps.decr o }

/-- One incoming edge resolved; `none` when there is nothing to record. -/
def markSatisfied (succId predId : NodeID) (predStatus : Status)
    (predReason : Reason) : Option State :=
  match (s.pred succId).lookup predId with
  | none => none
  | some true => none
  | some false =>
    let s := s.setPred succId predId true
    let s := s.uncountDep succId .unsatisfied
    some (s.countDep succId (DepCounts.Outcome.ofTerminal predStatus predReason))

def linkEdge (source target : NodeID) : State :=
  let f := s.node source
  let satisfied := f.any fun n => n.phase = .done
  let s := (s.setPred target source satisfied).addSucc source target
  match f with
  | some n =>
    s.countDep target
      (if n.phase = .done then DepCounts.Outcome.ofTerminal n.status n.reason
      else .unsatisfied)
  | none => s.countDep target .unsatisfied

/-- Remove a dependency; `none` when it did not exist. -/
def unlinkEdge (source target : NodeID) : Option State :=
  match (s.pred target).lookup source with
  | none => none
  | some satisfied =>
    let s := s.delPred target source
    let outcome :=
      if satisfied = false then DepCounts.Outcome.unsatisfied
      else match s.node source with
        | some n => DepCounts.Outcome.ofTerminal n.status n.reason
        | none => .failed
    some ((s.uncountDep target outcome).remSucc source target)

/-- `unlinkEdge` where the answer is not used. -/
def unlink (source target : NodeID) : State := (s.unlinkEdge source target).getD s

/-! ## Topological order -/

/-- What a bounded search finds.  `crash` is the comparison of a missing rank, a runtime
error of the script. -/
inductive Search
  | cycle
  | crash
  | region (ids : List NodeID)

/-- The inner loop of the forward search: the successors of one node. -/
def scanSuccs (s : State) (x : NodeID) (ub : ℕ) : List NodeID → List NodeID → List NodeID → Search
  | [], _, found => .region found
  | w :: ws, visited, found =>
    if w = x then .cycle
    else if w ∈ visited then s.scanSuccs x ub ws visited found
    else match s.node w with
      | none => .crash
      | some n =>
        if n.ord < ub then s.scanSuccs x ub ws (visited ++ [w]) (found ++ [w])
        else s.scanSuccs x ub ws visited found

/-- The forward search, with the nodes still to be expanded. -/
def searchForward (s : State) (x : NodeID) (ub : ℕ) : ℕ → List NodeID → List NodeID → Prog Search
  | 0, _, visited => pure (.region visited)
  | _ + 1, [], visited => pure (.region visited)
  | fuel + 1, n :: queue, visited => do
    let succs ← Prog.getRange (s.succ n)
    match s.scanSuccs x ub succs visited [] with
    | .cycle => pure .cycle
    | .crash => pure .crash
    | .region found => s.searchForward x ub fuel (queue ++ found) (visited ++ found)

/-- The inner loop of the backward search: the predecessors of one node. -/
def scanPreds (s : State) (lb : ℕ) : List NodeID → List NodeID → List NodeID → Search
  | [], _, found => .region found
  | w :: ws, visited, found =>
    if w ∈ visited then s.scanPreds lb ws visited found
    else match s.node w with
      | none => .crash
      | some n =>
        if lb < n.ord then s.scanPreds lb ws (visited ++ [w]) (found ++ [w])
        else s.scanPreds lb ws visited found

def searchBackward (s : State) (lb : ℕ) : ℕ → List NodeID → List NodeID → Prog Search
  | 0, _, visited => pure (.region visited)
  | _ + 1, [], visited => pure (.region visited)
  | fuel + 1, n :: queue, visited => do
    let preds ← Prog.getRange (s.pred n).keys
    match s.scanPreds lb preds visited [] with
    | .cycle => pure .cycle
    | .crash => pure .crash
    | .region found => s.searchBackward lb fuel (queue ++ found) (visited ++ found)

def ordOf : ℕ := ((s.node id).map NodeHash.ord).getD 0

def byOrd (ids : List NodeID) : List NodeID :=
  ids.insertionSort fun a b => s.ordOf a ≤ s.ordOf b

def assignOrds : List (NodeID × ℕ) → State → State
  | [], s => s
  | (id, r) :: rest, s => assignOrds rest (s.modNode id fun n => { n with ord := r })

inductive OrderResult
  | fast
  | cycle
  | crash
  | reordered

/-- Every node is visited at most once. -/
def searchFuel : ℕ := s.nodes.entries.length + 1

def addEdgeOrder (x y : NodeID) : Prog (OrderResult × State) :=
  if s.ordOf x < s.ordOf y then pure (.fast, s)
  else do
    let lb := s.ordOf y
    let ub := s.ordOf x
    match ← s.searchForward x ub s.searchFuel [y] [y] with
    | .cycle => pure (.cycle, s)
    | .crash => pure (.crash, s)
    | .region deltaF =>
      match ← s.searchBackward lb s.searchFuel [x] [x] with
      | .cycle => pure (.crash, s)
      | .crash => pure (.crash, s)
      | .region deltaB =>
        let ids := s.byOrd deltaB ++ s.byOrd deltaF
        let pool := (ids.map s.ordOf).insertionSort (· ≤ ·)
        pure (.reordered, assignOrds (ids.zip pool) s)

/-! ## Terminating and settling -/

/-- The first part of one round of `terminate`. -/
def finish (n : NodeHash) (status : Status) (reason : Reason)
    (msg : String) (nowMs : Int) : State :=
  let s := s.adjustBucket n.phase n.status (-1)
  let s := ((s.zremReady n.kind id).zremSched id).zremLeases id
  let s := s.modNode id fun n =>
    { n with
      phase := .done
      status := status
      reason := reason
      message := msg
      deadline := 0
      readyAt := 0
      updatedAt := nowMs }
  let s := s.adjustBucket .done status 1
  s.recordEvent id .transition n.status status reason msg n.attempt n.kind nowMs

/-- The final status, reason and message a queued node is to get. -/
abbrev Verdicts := NodeID → Status × Reason × String

/-- The loop over the successors of a terminated node. -/
def fanOut (id : NodeID) (status : Status) (reason : Reason) (nowMs : Int) :
    List NodeID → List NodeID → Verdicts → State → List NodeID × Verdicts × State
  | [], queue, verdicts, s => (queue, verdicts, s)
  | w :: ws, queue, verdicts, s =>
    match s.markSatisfied w id status reason with
    | none => fanOut id status reason nowMs ws queue verdicts s
    | some s =>
      match s.node w with
      | none => fanOut id status reason nowMs ws queue verdicts s
      | some n =>
        if n.phase = .blocked ∨ n.phase = .ready then
          if depsUnsatisfiable n.trigger n.deps then
            let r := depsTerminalReason n.deps
            fanOut id status reason nowMs ws (queue ++ [w])
              (update verdicts w (.error, r, terminalMessage r)) s
          else if depsReady n.trigger n.deps then
            if n.phase ≠ .ready then
              let s := s.makeReady w n.kind n.priority n.phase n.status
              fanOut id status reason nowMs ws queue verdicts
                (s.recordEvent w .ready .new .new .none "" 0 n.kind nowMs)
            else fanOut id status reason nowMs ws queue verdicts s
          else fanOut id status reason nowMs ws queue verdicts s
        else fanOut id status reason nowMs ws queue verdicts s

/-- The loop of `terminate` over its queue. -/
def terminateLoop (nowMs : Int) : ℕ → List NodeID → Verdicts → State → Prog State
  | 0, _, _, s => pure s
  | _ + 1, [], _, s => pure s
  | fuel + 1, id :: queue, verdicts, s =>
    match s.node id with
    | none => terminateLoop nowMs fuel queue verdicts s
    | some n =>
      if n.phase = .done then terminateLoop nowMs fuel queue verdicts s
      else do
        let (status, reason, msg) := verdicts id
        let s := s.finish id n status reason msg nowMs
        let succs ← Prog.getRange (s.succ id)
        let (queue, verdicts, s) := fanOut id status reason nowMs succs queue verdicts s
        terminateLoop nowMs fuel queue verdicts s

def openEdges : ℕ :=
  (s.nodes.keys.map fun id => (s.pred id).entries.countP fun e => !e.2).sum

/-- A node is queued when an edge into it becomes satisfied, so the queue empties after
at most one round per open edge. -/
def terminate (root : NodeID) (status : Status) (reason : Reason) (msg : String)
    (nowMs : Int) : Prog State :=
  terminateLoop nowMs (s.openEdges + 2) [root] (fun _ => (status, reason, msg)) s

def settle (nowMs : Int) : Prog State :=
  match s.node id with
  | none => pure s
  | some n =>
    if n.phase = .blocked ∨ n.phase = .ready then
      if depsUnsatisfiable n.trigger n.deps then
        let reason := depsTerminalReason n.deps
        s.terminate id .error reason (terminalMessage reason) nowMs
      else if depsReady n.trigger n.deps then
        if n.phase ≠ .ready then
          let s := s.makeReady id n.kind n.priority n.phase n.status
          pure (s.recordEvent id .ready .new .new .none "" 0 n.kind nowMs)
        else pure s
      else if n.phase ≠ .blocked then pure (s.makeBlocked id n.kind n.phase n.status)
      else pure s
    else pure s

def settleAll (nowMs : Int) : List NodeID → State → Prog State
  | [], s => pure s
  | id :: ids, s => do settleAll nowMs ids (← s.settle id nowMs)

def terminateAll (status : Status) (reason : Reason) (msg : String) (nowMs : Int) :
    List NodeID → State → Prog State
  | [], s => pure s
  | id :: ids, s => do
    terminateAll status reason msg nowMs ids (← s.terminate id status reason msg nowMs)

end State

/-! ## Retries -/

/-- The doubling loop of `backoffWindow`.  The division of the source is one of doubles,
so that the window is compared with half of an odd maximum exactly. -/
def backoffLoop (maxDelay : Int) : ℕ → Int → Int
  | 0, window => window
  | n + 1, window =>
    if maxDelay ≤ 2 * window then maxDelay else backoffLoop maxDelay n (window * 2)

def backoffWindow (attempt : ℕ) (base maxDelay : Int) : Int :=
  let attempt := if attempt = 0 then 1 else attempt
  let base := if base ≤ 0 then defaultRetryBaseMs else base
  let maxDelay := if maxDelay ≤ 0 then defaultRetryMaxMs else maxDelay
  min (backoffLoop maxDelay (attempt - 1) base) maxDelay

def jitterMs (window : Int) : Prog Int :=
  if window ≤ 0 then pure 0 else Prog.getJitter window

/-- A zero or missing value means the default. -/
def orDefault (v : Option Int) (fallback : Int) : Int :=
  match v with
  | none => fallback
  | some x => if x = 0 then fallback else x

namespace State

variable (s : State)

/-- The retry branch of `failAttempt` past the delay. -/
def retry (id : NodeID) (n : NodeHash) (reason : Reason) (msg : String)
    (nowMs delay : Int) : State :=
  let s := s.modNode id fun n => { n with reason := reason, message := msg, updatedAt := nowMs }
  let s := s.scheduleRetry id n.kind (nowMs + delay) n.phase n.status
  s.recordEvent id .transition n.status .new reason msg n.attempt n.kind nowMs

/-- Record a failed attempt; the answer is whether the node is scheduled for another
one. -/
def failAttempt (id : NodeID) (reason : Reason) (msg : String) (nowMs : Int) :
    Prog (Bool × State) :=
  match s.node id with
  | none => pure (false, s)
  | some n => do
    let maxAttempts :=
      if 0 < n.retryMaxAttempts then n.retryMaxAttempts
      else orDefault s.cfg.maxAttempts defaultMaxAttempts
    let base :=
      if 0 < n.retryBaseMs then n.retryBaseMs
      else orDefault s.cfg.retryBaseMs defaultRetryBaseMs
    let maxDelay :=
      if 0 < n.retryMaxMs then n.retryMaxMs
      else orDefault s.cfg.retryMaxMs defaultRetryMaxMs
    let s := (s.zremLeases id).modNode id fun n => { n with deadline := 0 }
    if maxAttempts ≤ n.attempt then
      pure (false, ← s.terminate id .error reason msg nowMs)
    else do
      let delay ← jitterMs (backoffWindow n.attempt base maxDelay)
      pure (true, s.retry id n reason msg nowMs delay)

def timeoutMessage : String := "the worker did not acknowledge before the lease deadline"

/-- The loop of `reclaimExpired`. -/
def reclaimAll (nowMs : Int) : List NodeID → State → Prog State
  | [], s => pure s
  | id :: ids, s => do
    let (_, s) ← s.failAttempt id .timeout timeoutMessage nowMs
    reclaimAll nowMs ids s

def reclaimExpired (nowMs : Int) (limit : ℕ) : Prog (ℕ × State) := do
  let expired := s.leases.upTo nowMs limit
  pure (expired.length, ← reclaimAll nowMs expired s)

/-- The loop of `promoteScheduled`. -/
def promoteLoop (nowMs : Int) : ℕ → State → State
  | 0, s => s
  | left + 1, s =>
    match s.sched.first with
    | none => s
    | some (id, score) =>
      if nowMs < score then s
      else match s.node id with
        | none => s
        | some n =>
          let s := s.zremSched id
          let s := s.makeReady id n.kind n.priority n.phase n.status
          promoteLoop nowMs left
            (s.recordEvent id .ready .new .new .none "" 0 n.kind nowMs)

def promoteScheduled (nowMs : Int) : State := promoteLoop nowMs promoteCap s

/-! ## The life cycle of a node -/

def retireEpoch (id : NodeID) : State :=
  let e := ((s.node id).map NodeHash.epoch).getD 0
  if s.stats.epochFloor < e then { s with stats := { s.stats with epochFloor := e } } else s

/-- `DEL` of the keys of a node, and `ZREM idx`. -/
def delKeys (id : NodeID) : State :=
  { s with
    nodes := s.nodes.erase id
    blobs := s.blobs.erase id
    succ := update s.succ id []
    pred := update s.pred id ∅
    idx := s.idx.erase id }

def deleteNodeKeys (id : NodeID) : State := (s.retireEpoch id).delKeys id

end State

/-- A node specification as the scripts take it. -/
structure SpecArgs where
  id : NodeID
  kind : String := ""
  priority : Int := 0
  trigger : TriggerRule := .allSuccess
  rma : Int := 0
  rbd : Int := 0
  rmd : Int := 0
  payload : Bytes := []
  labels : String := ""
  deps : List NodeID := []
deriving DecidableEq, Repr

namespace State

variable (s : State)

def createNode (spec : SpecArgs) (nowMs : Int) : State :=
  let ord := s.nextOrd + 1
  let s := { s with
    nextOrd := ord
    nodes := s.nodes.insert spec.id
      { id := spec.id
        kind := spec.kind
        priority := spec.priority
        trigger := spec.trigger
        retryMaxAttempts := spec.rma
        retryBaseMs := spec.rbd
        retryMaxMs := spec.rmd
        epoch := s.stats.epochFloor
        createdAt := nowMs
        updatedAt := nowMs
        ord := ord }
    blobs := s.blobs.insert spec.id { payload := spec.payload, labels := spec.labels }
    idx := if spec.id ∈ s.idx then s.idx else s.idx ++ [spec.id] }
  (s.adjustTotal 1).adjustBucket .blocked .new 1

/-- The stored node is the one the specification describes. -/
def specMatches (spec : SpecArgs) : Bool :=
  match s.node spec.id, s.blobs.lookup spec.id with
  | some n, some b =>
    n.kind = spec.kind && n.priority = spec.priority && n.trigger = spec.trigger &&
      n.retryMaxAttempts = spec.rma && n.retryBaseMs = spec.rbd && n.retryMaxMs = spec.rmd &&
      b.payload = spec.payload && b.labels = spec.labels
  | _, _ => false

/-- Undo created nodes and linked edges, each list latest first. -/
def rollbackBatch (created : List NodeID) (linked : List (NodeID × NodeID)) : State :=
  let s := linked.foldl (fun s e => s.unlink e.1 e.2) s
  created.foldl (fun s id =>
    ((s.adjustBucket .blocked .new (-1)).adjustTotal (-1)).deleteNodeKeys id) s

end State

end DagWorker.Redis
