import DagWorker.Postgres.Transactions
import DagWorker.Memory.Graph
import DagWorker.Support.Trace

/-!
# The operations of the PostgreSQL store

Each mutating operation as one program, and its meaning when it runs alone: a committed
program leaves what it wrote, and any other end leaves the tables as they were.
-/

namespace DagWorker.Postgres

namespace Tx

open Dialogue (orAbort ofExcept)

/-! ## Adding nodes -/

/-- The existing node was created from the same definition. -/
def specMatches (n : NodeRow) (spec : NodeSpec) : Bool :=
  n.kind = spec.kind && n.priority = spec.priority && n.trigger = spec.trigger &&
    n.retry.maxAttempts = spec.retry.maxAttempts && n.retry.baseDelay = spec.retry.baseDelay &&
    n.retry.maxDelay = spec.retry.maxDelay && n.payload = spec.payload &&
    n.labels.equal spec.labels

/-- Nodes by external identifier, with their internal one. -/
abbrev Nodes := GoMap NodeID (ℕ × NodeRow)

/-- `validateAddNodesBatch`, which is the check of the in-memory store. -/
def validateAddNodesBatch (cfg : ScopeConfig) (specs : List NodeSpec) : Except Err Unit :=
  Memory.Scope.validateBatch cfg specs

/-- The loop of `materialiseAddNodesBatch`: the nodes that exist and the specs to create. -/
def splitSpecs (existing : List (ℕ × NodeRow)) :
    List NodeSpec → Nodes → List NodeSpec → Except Err (Nodes × List NodeSpec)
  | [], nodes, toCreate => .ok (nodes, toCreate)
  | spec :: specs, nodes, toCreate =>
    match existing.find? fun x => x.2.nodeID = spec.id with
    | none => splitSpecs existing specs nodes (toCreate ++ [spec])
    | some n =>
      if specMatches n.2 spec then
        splitSpecs existing specs (nodes.insert spec.id n) toCreate
      else .error (.wrapped .idConflict ("node " ++ spec.id.quote))

def insertNodes : List NodeSpec → Tx (List (ℕ × NodeRow))
  | [] => pure []
  | spec :: specs => do
    let n ← query (.insertNode spec)
    let rest ← insertNodes specs
    pure (n :: rest)

/-- The counters of created nodes. -/
def countCreated : List (ℕ × NodeRow) → Tx Unit
  | [] => pure ()
  | n :: rest => do
    enterBucket n.2.phase n.2.status
    addTotal 1
    countCreated rest

def createNodes (specs : List NodeSpec) : Tx (List (ℕ × NodeRow)) := do
  let out ← insertNodes specs
  countCreated out
  pure out

/-- The nodes of a batch, and those that are new. -/
def materialiseAddNodesBatch (specs : List NodeSpec) : Tx (Nodes × List (ℕ × NodeRow)) := do
  let existing ← loadManyForUpdateByExternal (specs.map fun spec => spec.id)
  let (nodes, toCreate) ← ofExcept (splitSpecs existing specs ∅ [])
  let created ← createNodes toCreate
  pure (created.foldl (fun m n => m.insert n.2.nodeID n) nodes, created)

/-- The dependencies of one spec in `linkAddNodesBatch`. -/
def linkDeps (fuel : ℕ) (scope : String) (spec : NodeSpec) :
    List NodeID → ℕ × NodeRow → Nodes → Tx Nodes
  | [], _, nodes => pure nodes
  | dep :: deps, target, nodes => do
    let source ← (match nodes.lookup dep with
      | some n => pure n
      | none => do
        let loaded ← loadForUpdateByExternal dep
        match loaded with
        | some n => pure n
        | none => .fail (.wrapped .notFound
            (spec.id.quote ++ " depends on " ++ dep.quote ++ ", which does not exist")) :
        Tx (ℕ × NodeRow))
    let row ← linkDependency fuel scope source target
    linkDeps fuel scope spec deps (target.1, row)
      ((nodes.insert dep source).insert spec.id (target.1, row))

def addOnce (items : List ℕ) (id : ℕ) : List ℕ := if id ∈ items then items else items ++ [id]

/-- Record every spec's dependencies, and collect the nodes to settle. -/
def linkAddNodesBatch (fuel : ℕ) (scope : String) : List NodeSpec → Nodes → List ℕ → Tx (List ℕ)
  | [], _, touched => pure touched
  | spec :: specs, nodes, touched => do
    let target := (nodes.lookup spec.id).getD (0, { nodeID := "" })
    let nodes ← linkDeps fuel scope spec spec.deps target nodes
    linkAddNodesBatch fuel scope specs nodes (addOnce touched target.1)

def bumpSeqMany : List ℕ → Tx (List ℕ)
  | [] => pure []
  | id :: ids => do
    let seq ← bumpSeq id
    let seqs ← bumpSeqMany ids
    pure (seq :: seqs)

def insertEvents : List PendingEvent → Tx (List Effect)
  | [] => pure []
  | ev :: evs => do
    let ef ← insertEvent ev
    let effects ← insertEvents evs
    pure (ef :: effects)

def announceFresh (fresh : List (ℕ × NodeRow)) : Tx (List Effect) := do
  let seqs ← bumpSeqMany (fresh.map Prod.fst)
  insertEvents (fresh.zipWith (fun n seq =>
    ⟨n.2.nodeID, n.2.kind, .created, .new, n.2.status, n.2.reason, n.2.message, n.2.attempt, seq⟩)
    seqs)

variable (fuel : ℕ)

def addNodes (scope : String) (defaults : ScopeConfig) (specs : List NodeSpec) : Tx (List Effect) :=
  if specs = [] then pure []
  else do
    ensureScope defaults
    lockScopeGraph
    let sc ← loadScope
    let sc := sc.getD {}
    if sc.isSealed then .fail (.bare .scopeSealed)
    else do
      ofExcept (validateAddNodesBatch sc.cfg.resolved specs)
      let (nodes, fresh) ← materialiseAddNodesBatch specs
      let touched ← linkAddNodesBatch fuel scope specs nodes []
      let effects ← announceFresh fresh
      let more ← settleTouched fuel touched
      finalize
      pure (effects ++ more)

/-! ## Editing the graph -/

/-- The scope has to exist, and its graph lock is taken. -/
def beginGraphTx : Tx Unit := do
  let sc ← loadScope
  match sc with
  | none => .fail (.bare .notFound)
  | some _ => lockScopeGraph

def endpoint (nodes : Nodes) (id : NodeID) (which : String) : Tx ((ℕ × NodeRow) × Nodes) :=
  match nodes.lookup id with
  | some n => pure (n, nodes)
  | none => do
    let n ← loadForUpdateByExternal id
    match n with
    | none => .fail (.wrapped .notFound ("edge " ++ which ++ " " ++ id.quote))
    | some n => pure (n, nodes.insert id n)

/-- The loop of `AddEdges`. -/
def linkEdges (fuel : ℕ) (scope : String) : List Edge → Nodes → List ℕ → Tx (List ℕ)
  | [], _, touched => pure touched
  | e :: edges, nodes, touched =>
    if e.fromID = e.toID then
      .fail (.wrapped .cycle (e.fromID.quote ++ " depends on itself"))
    else do
      let (source, nodes) ← endpoint nodes e.fromID "source"
      let (target, nodes) ← endpoint nodes e.toID "target"
      let row ← linkDependency fuel scope source target
      linkEdges fuel scope edges
        ((nodes.insert e.fromID source).insert e.toID (target.1, row))
        (addOnce touched target.1)

def addEdges (scope : String) (edges : List Edge) : Tx (List Effect) :=
  if edges = [] then pure []
  else do
    beginGraphTx
    let touched ← linkEdges fuel scope edges ∅ []
    let effects ← settleTouched fuel touched
    finalize
    pure effects

/-- The loop of `RemoveEdges`. -/
def unlinkEdges : List Edge → Nodes → List ℕ → Tx (List ℕ)
  | [], _, touched => pure touched
  | e :: edges, nodes, touched => do
    let (source, nodes) ← endpoint nodes e.fromID "source"
    let (target, nodes) ← endpoint nodes e.toID "target"
    let changed ← unlinkDependency source.1 target.1
    unlinkEdges edges nodes (if changed then addOnce touched target.1 else touched)

def removeEdges (edges : List Edge) : Tx (List Effect) :=
  if edges = [] then pure []
  else do
    beginGraphTx
    let touched ← unlinkEdges edges ∅ []
    let effects ← settleTouched fuel touched
    finalize
    pure effects

/-- What the policy does to the successors of a node that goes away. -/
def applyCascade (id : NodeID) (policy : CascadePolicy) (succs : List (ℕ × NodeRow)) :
    Tx (List Effect) :=
  if succs.isEmpty then pure []
  else match policy with
    | .reject =>
      .fail (.wrapped .hasSuccessors
        (id.quote ++ " has " ++ toString succs.length ++ " successors"))
    | .fail =>
      terminateAll fuel .error .removed (terminalMessage .removed) (succs.map Prod.fst)
    | .detach => pure []
    | .unknown _ => pure []

/-- Drop the edges from a node. -/
def detachSuccessors (fromID : ℕ) : List ℕ → Tx Unit
  | [] => pure ()
  | w :: ws => do
    let _ ← unlinkDependency fromID w
    detachSuccessors fromID ws

/-- Delete a node's own row and correct the counters.  The epoch is that of the caller's
copy of the row. -/
def deleteNodeRow (id : ℕ) (phase : Phase) (status : Status) (epoch : ℕ) : Tx Unit := do
  leaveBucket phase status
  addTotal (-1)
  query (.raiseEpochFloor (widenI64 epoch))
  query (.deleteNode id)

def removeNode (id : NodeID) (policy : CascadePolicy) : Tx (List Effect) := do
  beginGraphTx
  let n ← loadForUpdateByExternal id
  match n with
  | none => .fail (.bare .notFound)
  | some (v, n) =>
    if n.phase = .claimed then .fail (.wrapped .nodeInFlight id.quote)
    else do
      let succs ← successorsForUpdate v
      let effects ← applyCascade fuel id policy succs
      detachSuccessors v (succs.map Prod.fst)
      query (.deleteEdgesTo v)
      deleteNodeRow v n.phase n.status n.epoch
      let more ← (if policy = .detach then settleTouched fuel (succs.map Prod.fst)
        else pure [] : Tx (List Effect))
      finalize
      pure (effects ++ more)

/-- The loop of `Cancel`. -/
def cancelLoop (fuel : ℕ) : List NodeID → Tx (List Effect)
  | [] => pure []
  | id :: ids => do
    let n ← query (.findByExternal id)
    match n with
    | none => .fail (.wrapped .notFound id.quote)
    | some (v, phase) =>
      if phase = Phase.done then cancelLoop fuel ids
      else do
        let more ← terminate fuel v .error .cancelled (terminalMessage .cancelled)
        let effects ← cancelLoop fuel ids
        pure (more ++ effects)

def cancel (ids : List NodeID) : Tx (List Effect) :=
  if ids = [] then pure []
  else do
    beginGraphTx
    let effects ← cancelLoop fuel ids
    finalize
    pure effects

def cancelScope : Tx (List Effect) := do
  let sc ← loadScope
  match sc with
  | none => pure []
  | some _ => do
    lockScopeGraph
    let ids ← query .liveNodes
    let effects ← terminateAll fuel .error .cancelled (terminalMessage .cancelled) ids
    finalize
    pure effects

/-! ## Leases -/

/-- The snapshot of a node that a caller receives. -/
def snapshot (scope : String) (n : NodeRow) : Node :=
  { scope := scope
    id := n.nodeID
    kind := n.kind
    status := n.status
    reason := n.reason
    message := n.message
    attempt := n.attempt
    priority := n.priority
    trigger := n.trigger
    retry := n.retry
    payload := n.payload
    labels := n.labels
    seq := n.seq
    createdAt := n.createdAt
    updatedAt := n.updatedAt }

/-- A node's own retry policy over the scope's, field by field. -/
def retryEffective (n : NodeRow) (cfg : ScopeConfig) : ℕ × Int × Int :=
  (if 0 < n.retry.maxAttempts then n.retry.maxAttempts else cfg.maxAttempts,
    if 0 < n.retry.baseDelay then n.retry.baseDelay else cfg.retryBaseDelay,
    if 0 < n.retry.maxDelay then n.retry.maxDelay else cfg.retryMaxDelay)

def setRetryFields (id : ℕ) (reason : Reason) (message : String) : Tx Unit := do
  let _ ← updateNode id fun r => { r with reason := reason, message := message, worker := "" }
  pure ()

/-- Record a failed attempt; with the effects, when the node was scheduled for another one. -/
def failAttempt (cfg : ScopeConfig) (id : ℕ) (n : NodeRow) (reason : Reason)
    (message : String) : Tx (List Effect × Option Int) :=
  let (maxAttempts, base, maxDelay) := retryEffective n cfg
  if maxAttempts ≤ n.attempt then do
    let effects ← terminate fuel id .error reason message
    pure (effects, none)
  else do
    let delay ← ofProg (backoff n.attempt base maxDelay)
    setRetryFields id reason message
    let readyAt ← schedule id n delay
    let seq ← bumpSeq id
    let ef ← insertEvent
      ⟨n.nodeID, n.kind, .transition, n.status, .new, reason, message, n.attempt, seq⟩
    pure ([ef], some readyAt)

def timeoutMessage : String := "the worker did not acknowledge before the lease deadline"

/-- The loop of `reclaimExpired`. -/
def reclaimLoop (fuel : ℕ) (cfg : ScopeConfig) : List ℕ → Tx (List Effect × ℕ)
  | [] => pure ([], 0)
  | id :: ids => do
    let n ← loadForUpdate id
    match n with
    | none => reclaimLoop fuel cfg ids
    | some n =>
      if n.phase ≠ .claimed then reclaimLoop fuel cfg ids
      else do
        let (more, _) ← failAttempt fuel cfg id n .timeout timeoutMessage
        let (effects, reclaimed) ← reclaimLoop fuel cfg ids
        pure (more ++ effects, reclaimed + 1)

/-- Revoke leases whose deadline has passed, up to `limit`. -/
def reclaimExpired (cfg : ScopeConfig) (limit : Int) : Tx (List Effect × ℕ × Bool) := do
  let limit := if limit ≤ 0 then 1 else limit
  let ids ← query (.reclaimCandidates limit.toNat)
  let (effects, reclaimed) ← reclaimLoop fuel cfg ids
  let more ← query .moreExpired
  pure (effects, reclaimed, more)

/-- The loop of `promoteScheduled`. -/
def promoteLoop : List ℕ → Tx (List Effect)
  | [] => pure []
  | id :: ids => do
    let n ← loadForUpdate id
    match n with
    | none => promoteLoop ids
    | some n =>
      if n.phase ≠ .scheduled then promoteLoop ids
      else do
        let ef ← makeReady id n
        let effects ← promoteLoop ids
        pure (ef :: effects)

/-- Release the nodes whose backoff has elapsed. -/
def promoteScheduled : Tx (List Effect) := do
  let ids ← query .promoteCandidates
  promoteLoop ids

/-- One lease with its effect, if a node was ready. -/
def claimOne (kinds : List String) (leaseFor : Int) (workerID : String) :
    Tx (Option (NodeRow × Effect)) := do
  let n ← query (.claim kinds workerID leaseFor)
  match n with
  | none => pure none
  | some (_, n) => do
    moveBucket .ready .new n.phase n.status
    let ef ← insertEvent ⟨n.nodeID, n.kind, .transition, .new, n.status, n.reason, n.message,
      n.attempt, n.seq⟩
    pure (some (n, ef))

def leaseOf (scope : String) (n : NodeRow) : Lease :=
  { scope := scope
    nodeID := n.nodeID
    epoch := n.epoch
    deadline := n.deadline.getD 0
    node := snapshot scope n }

/-- The loop of `claimLoop`, with the number of leases still wanted. -/
def grantLoop (cfg : ScopeConfig) (req : ClaimRequest) : ℕ → Int → ClaimResult → Tx ClaimResult
  | 0, _, res => pure res
  | left + 1, inProgress, res =>
    if 0 < cfg.maxInFlight ∧ (cfg.maxInFlight : Int) ≤ inProgress then pure res
    else do
      let n ← claimOne req.kinds (cfg.clampLease req.timeout) req.workerID
      match n with
      | none => pure res
      | some (n, ef) =>
        grantLoop cfg req left (inProgress + 1)
          { leases := res.leases ++ [leaseOf req.scope n], effects := res.effects ++ [ef] }

/-- Leases in flight, for a scope with a limit. -/
def inFlight (cfg : ScopeConfig) : Tx Int :=
  if 0 < cfg.maxInFlight then do
    let stored : Int ← query .inProgress
    let pending : Int ← query (.pendingStat "stat_in_progress")
    pure (stored + pending)
  else pure 0

def claimLoop (cfg : ScopeConfig) (req : ClaimRequest) (want : ℕ) : Tx ClaimResult := do
  let inProgress ← inFlight cfg
  grantLoop cfg req want inProgress {}

def claim (req : ClaimRequest) : Tx ClaimResult := do
  let sc ← loadScope
  match sc with
  | none => pure {}
  | some sc => do
    let cfg := sc.cfg.resolved
    let (reclaimed, _) ← reclaimExpired fuel cfg cfg.sweepBatchSize
    let promoted ← promoteScheduled
    let res ← claimLoop cfg req (max req.max 1).toNat
    finalize
    pure { res with effects := reclaimed ++ promoted ++ res.effects }

/-- Lock the node of a lease and apply the fencing check. -/
def loadLeasedNode (lease : Lease) : Tx (ℕ × NodeRow) := do
  let n ← loadForUpdateByExternal lease.nodeID
  match n with
  | none => .fail (.bare .notFound)
  | some (id, n) =>
    if n.phase ≠ .claimed ∨ n.epoch ≠ lease.epoch then
      .fail (.wrapped .leaseMismatch
        ("node " ++ lease.nodeID.quote ++ " is at epoch " ++ toString n.epoch ++
          ", lease presented " ++ toString lease.epoch))
    else pure (id, n)

def completeSuccess (fuel id : ℕ) (result : Bytes) : Tx (List Effect) := do
  let _ ← updateNode id fun r => { r with result := result, worker := "" }
  terminate fuel id .success .none ""

def completeSkip (fuel id : ℕ) (message : String) : Tx (List Effect) := do
  let _ ← updateNode id fun r => { r with worker := "" }
  terminate fuel id .error .skipped message

/-- Record what the worker reported. -/
def applyOutcome (cfg : ScopeConfig) (id : ℕ) (n : NodeRow) (req : CompleteRequest) :
    Tx CompleteResult :=
  if req.success then
    if cfg.payloadCap < (req.result.length : Int) then
      .fail (.payloadTooLarge req.result.length cfg.payloadCap)
    else do
      let effects ← completeSuccess fuel id req.result
      pure { effects := effects }
  else if req.reason = .skipped then do
    let effects ← completeSkip fuel id req.message
    pure { effects := effects }
  else do
    let reason := if req.reason = .none then .workerError else req.reason
    let (effects, readyAt) ← failAttempt fuel cfg id n reason req.message
    pure { effects := effects, retrying := readyAt.isSome, nextAttemptAt := readyAt.getD 0 }

def complete (req : CompleteRequest) : Tx CompleteResult :=
  if !req.lease.valid then .fail (.wrapped .invalidArgument "lease is not well formed")
  else do
    let sc ← loadScope
    match sc with
    | none => .fail (.bare .notFound)
    | some sc => do
      let (id, n) ← loadLeasedNode req.lease
      let out ← applyOutcome fuel sc.cfg.resolved id n req
      finalize
      pure out

def extend (req : ExtendRequest) : Tx Int :=
  if !req.lease.valid then .fail (.wrapped .invalidArgument "lease is not well formed")
  else do
    let sc ← loadScope
    match sc with
    | none => .fail (.bare .notFound)
    | some sc => do
      let deadline ← query (.extend req.lease.nodeID (widenI64 req.lease.epoch)
        (sc.cfg.resolved.clampLease req.timeout))
      match deadline with
      | some deadline => pure deadline
      | none => do
        let n ← query (.findByExternal req.lease.nodeID)
        match n with
        | none => .fail (.bare .notFound)
        | some _ => .fail (.wrapped .leaseMismatch
            ("node " ++ req.lease.nodeID.quote ++ " lease no longer matches"))

def sweep (limit : Int) : Tx SweepResult := do
  let sc ← loadScope
  match sc with
  | none => pure {}
  | some sc => do
    let cfg := sc.cfg.resolved
    let limit := if limit ≤ 0 then cfg.sweepBatchSize else limit
    let (effects, reclaimed, more) ← reclaimExpired fuel cfg limit
    let promoted ← promoteScheduled
    finalize
    pure { reclaimed := reclaimed, effects := effects ++ promoted, more := more }

/-! ## Collecting terminal nodes -/

/-- The loop of `CollectTerminal`.  A candidate carries no epoch, so that the row it is
deleted under has the epoch zero. -/
def collectLoop : List (ℕ × Phase × Status) → Tx Unit
  | [] => pure ()
  | (id, phase, status) :: cands => do
    query (.deleteEdgesTo id)
    deleteNodeRow id phase status 0
    collectLoop cands

/-- Delete terminal nodes that nothing depends on.  The counters are not flushed. -/
def collectTerminal (cutoff limit : Int) : Tx (ℕ × Bool) := do
  let limit := (if limit ≤ 0 then 100 else limit).toNat
  let sc ← loadScope
  match sc with
  | none => pure (0, false)
  | some _ => do
    let cands : List (ℕ × Phase × Status) ← query (.findTerminalCandidates cutoff limit)
    collectLoop cands
    let more ← (if cands.length = limit then query (.moreTerminal cutoff) else pure false :
      Tx Bool)
    pure (cands.length, more)

/-! ## Scopes -/

def scopeConfig (defaults : ScopeConfig) : Tx ScopeConfig := do
  let sc ← loadScope
  match sc with
  | none => pure defaults
  | some sc => pure sc.cfg

def setScopeConfig (defaults cfg : ScopeConfig) : Tx Unit := do
  ensureScope defaults
  query (.setScopeConfig cfg)

def sealScope (defaults : ScopeConfig) : Tx Unit := do
  ensureScope defaults
  query .setSealed

end Tx

/-! ## Calls -/

inductive Op
  | addNodes (specs : List NodeSpec)
  | addEdges (edges : List Edge)
  | removeEdges (edges : List Edge)
  | removeNode (id : NodeID) (policy : CascadePolicy)
  | cancel (ids : List NodeID)
  | cancelScope
  | claim (req : ClaimRequest)
  | complete (req : CompleteRequest)
  | extend (req : ExtendRequest)
  | sweep (limit : Int)
  | collectTerminal (cutoff limit : Int)
  | setScopeConfig (cfg : ScopeConfig)
  | sealScope

inductive Reply
  | effects (effects : List Effect)
  | claimed (res : ClaimResult)
  | completed (res : CompleteResult)
  | extended (deadline : Int)
  | swept (res : SweepResult)
  | collected (deleted : ℕ) (more : Bool)
  | done
  | failed (err : Err)
  /-- An error of the server, or no answer at all. -/
  | broken

/-- The program of an operation on one scope, by a store with the given defaults. -/
def Op.program (fuel : ℕ) (scope : String) (defaults : ScopeConfig) : Op → Tx Reply
  | .addNodes specs => .effects <$> Tx.addNodes fuel scope defaults specs
  | .addEdges edges => .effects <$> Tx.addEdges fuel scope edges
  | .removeEdges edges => .effects <$> Tx.removeEdges fuel edges
  | .removeNode id policy => .effects <$> Tx.removeNode fuel id policy
  | .cancel ids => .effects <$> Tx.cancel fuel ids
  | .cancelScope => .effects <$> Tx.cancelScope fuel
  | .claim req => .claimed <$> Tx.claim fuel req
  | .complete req => .completed <$> Tx.complete fuel req
  | .extend req => .extended <$> Tx.extend req
  | .sweep limit => .swept <$> Tx.sweep fuel limit
  | .collectTerminal cutoff limit =>
    (fun x => .collected x.1 x.2) <$> Tx.collectTerminal cutoff limit
  | .setScopeConfig cfg => (fun _ => .done) <$> Tx.setScopeConfig defaults cfg
  | .sealScope => (fun _ => .done) <$> Tx.sealScope defaults

/-- A call, with the defaults of the store it goes through and what the server answers. -/
structure Call where
  op : Op
  scope : String := ""
  defaults : ScopeConfig := {}
  fuel : ℕ
  server : Server
  answers : ℕ → Answer := fun _ => {}

/-- A statement of a transaction that runs alone: no row is locked by another one. -/
def Stmt.alone (srv : Server) (a : Answer) (s : Stmt) (e : Engine) : Option (s.Result × Engine) :=
  s.exec srv { a with busy := [] } e

/-- A call that runs alone. -/
def Call.run (c : Call) (db : Db) : Reply × Db :=
  match (c.op.program c.fuel c.scope c.defaults).run (Stmt.alone c.server) c.answers 0
      { toDb := db } with
  | some (.ok (reply, e)) => (reply, e.toDb)
  | some (.error err) => (.failed err, db)
  | none => (.broken, db)

/-- One call after another. -/
def exec (db : Db) (c : Call) : Prog (Reply × Db) := pure (c.run db)

abbrev StepRecord := Trace.Step Db Call Reply

/-- A serial run, from tables without the scope. -/
abbrev Run (steps : List StepRecord) (db : Db) : Prop := Trace.Run exec {} steps db

/-- A server that numbers what it inserts. -/
def countingServer : Server := ⟨fun n => (n, 0), fun n => n⟩

/-- Calls through one store. -/
def callsOf (ops : List Op) : List (Trace.Call Call) :=
  ops.map fun op => { input := { op := op, scope := "s", fuel := 10, server := countingServer } }

end DagWorker.Postgres
