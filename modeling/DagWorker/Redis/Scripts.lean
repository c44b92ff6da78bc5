import DagWorker.Redis.Prelude
import DagWorker.Support.Trace

/-!
# The scripts

Each script is one atomic step on the keys of a scope.  A script that fails answers with
an error reply; a runtime error stops it where it is, and what it has written stays.
-/

namespace DagWorker.Redis

open Function

/-- The error replies, `DWERR <CODE> ...`. -/
inductive ErrReply
  | isSealed
  | batchSize (n : ℕ) (limit : Int)
  | idConflict (id : NodeID)
  | notFound (id : NodeID)
  | depNotFound (id dep : NodeID)
  | fromNotFound (id : NodeID)
  | toNotFound (id : NodeID)
  | terminal (id : NodeID)
  | cycle (source target : NodeID)
  | cycleSelf (id : NodeID)
  | inFlight (id : NodeID)
  | hasSucc (id : NodeID) (n : ℕ)
  /-- `scriptComplete` adds the epochs of the node and of the lease. -/
  | leaseMismatch (id : NodeID) (epochs : Option (ℕ × ℕ))
  | payloadCap (size : ℕ) (cap : Int)
  /-- A runtime error of the script. -/
  | crashed
deriving DecidableEq, Repr

/-- One granted lease in the reply of `scriptClaim`. -/
structure LeaseRow where
  id : NodeID
  epoch : ℕ
  deadline : Int
  node : NodeHash
  blob : Option Blob
deriving DecidableEq, Repr

inductive Reply
  | done
  | leases (rows : List LeaseRow)
  | completed (retrying : Bool) (nextAttemptMs : Int)
  | extended (deadline : Int)
  | swept (reclaimed : ℕ) (more : Bool)
  | collected (n : ℕ)
  | error (e : ErrReply)
deriving DecidableEq, Repr

/-- An epoch plus one, in double precision. -/
def luaSucc (n : ℕ) : ℕ := if n < 2 ^ 53 then n + 1 else n

namespace State

/-! ## Adding nodes and edges -/

/-- What a batch has done so far: the nodes it created and the edges it linked, latest
first. -/
structure Journal where
  created : List NodeID := []
  linked : List (NodeID × NodeID) := []

variable (s : State)

/-- `rollbackBatch` and the error reply. -/
def rejectBatch (j : Journal) (e : ErrReply) : Reply × State :=
  (.error e, s.rollbackBatch j.created j.linked)

/-- Append an identifier that is not listed yet. -/
def touch (touched : List NodeID) (id : NodeID) : List NodeID :=
  if id ∈ touched then touched else touched ++ [id]

/-- The first loop of `scriptAddNodes`; an error names the node it stopped at. -/
def createAll (nowMs : Int) : List SpecArgs → Journal → State → Except NodeID Journal × State
  | [], j, s => (.ok j, s)
  | spec :: specs, j, s =>
    if s.has spec.id then
      if s.specMatches spec then createAll nowMs specs j s
      else (.error spec.id, s.rollbackBatch j.created j.linked)
    else
      createAll nowMs specs { j with created := spec.id :: j.created }
        (s.createNode spec nowMs)

/-- One edge of a batch that is not there yet: refused at a terminal target or when it
would close a cycle. -/
def addEdge (source target : NodeID) (j : Journal) :
    Prog (Except (Reply × State) (Journal × State)) :=
  match s.node target with
  | some n =>
    if n.phase = .done then pure (.error (s.rejectBatch j (.terminal target)))
    else do
      match ← s.addEdgeOrder source target with
      | (.cycle, s) => pure (.error (s.rejectBatch j (.cycle source target)))
      | (.crash, s) => pure (.error (.error .crashed, s))
      | (_, s) =>
        pure (.ok ({ j with linked := (source, target) :: j.linked },
          s.linkEdge source target))
  | none => pure (.ok (j, s))

/-- The dependencies of one node of the batch. -/
def linkDeps (id : NodeID) : List NodeID → Journal → State →
    Prog (Except (Reply × State) (Journal × State))
  | [], j, s => pure (.ok (j, s))
  | dep :: deps, j, s =>
    if s.has dep = false then pure (.error (s.rejectBatch j (.depNotFound id dep)))
    else if s.hasEdge dep id then linkDeps id deps j s
    else do
      match ← s.addEdge dep id j with
      | .error r => pure (.error r)
      | .ok (j, s) => linkDeps id deps j s

/-- The second loop of `scriptAddNodes`. -/
def linkAll : List SpecArgs → Journal → State → Prog (Except (Reply × State) (Journal × State))
  | [], j, s => pure (.ok (j, s))
  | spec :: specs, j, s => do
    match ← linkDeps spec.id spec.deps j s with
    | .error r => pure (.error r)
    | .ok (j, s) => linkAll specs j s

def recordCreated (nowMs : Int) : List NodeID → State → State
  | [], s => s
  | id :: ids, s =>
    recordCreated nowMs ids (s.recordEvent id .created .new .new .none "" 0
      (((s.node id).map NodeHash.kind).getD "") nowMs)

def addNodes (maxBatch : Int) (specs : List SpecArgs) : Prog (Reply × State) :=
  if s.cfg.isSealed then pure (.error .isSealed, s)
  else if maxBatch < specs.length then
    pure (.error (.batchSize specs.length maxBatch), s)
  else do
    let nowMs ← Prog.getNow
    match createAll nowMs specs {} s with
    | (.error id, s) => pure (.error (.idConflict id), s)
    | (.ok j, s) =>
      match ← linkAll specs j s with
      | .error r => pure r
      | .ok (j, s) =>
        let s := recordCreated nowMs j.created.reverse s
        let touched := (specs.map SpecArgs.id).foldl touch []
        pure (.done, ← settleAll nowMs touched s)

/-- The loop of `scriptAddEdges`, with the targets of new edges. -/
def linkEdges : List (NodeID × NodeID) → Journal → List NodeID → State →
    Prog (Except (Reply × State) (List NodeID × State))
  | [], _, touched, s => pure (.ok (touched, s))
  | (source, target) :: edges, j, touched, s =>
    if s.has source = false then pure (.error (s.rejectBatch j (.fromNotFound source)))
    else if s.has target = false then pure (.error (s.rejectBatch j (.toNotFound target)))
    else if source = target then pure (.error (s.rejectBatch j (.cycleSelf source)))
    else if s.hasEdge source target then linkEdges edges j touched s
    else do
      match ← s.addEdge source target j with
      | .error r => pure (.error r)
      | .ok (j, s) => linkEdges edges j (touch touched target) s

def addEdges (edges : List (NodeID × NodeID)) : Prog (Reply × State) := do
  let nowMs ← Prog.getNow
  match ← linkEdges edges {} [] s with
  | .error r => pure r
  | .ok (touched, s) => pure (.done, ← settleAll nowMs touched s)

/-! ## Removing -/

/-- The loop of `scriptRemoveEdges`. -/
def unlinkEdges : List (NodeID × NodeID) → List NodeID → State →
    Except ErrReply (List NodeID) × State
  | [], touched, s => (.ok touched, s)
  | (source, target) :: edges, touched, s =>
    if s.has source = false then (.error (.fromNotFound source), s)
    else if s.has target = false then (.error (.toNotFound target), s)
    else match s.unlinkEdge source target with
      | some s => unlinkEdges edges (touch touched target) s
      | none => unlinkEdges edges touched s

def removeEdges (edges : List (NodeID × NodeID)) : Prog (Reply × State) := do
  let nowMs ← Prog.getNow
  match unlinkEdges edges [] s with
  | (.error e, s) => pure (.error e, s)
  | (.ok touched, s) => pure (.done, ← settleAll nowMs touched s)

/-- `scriptRemoveNode` past the cascade. -/
def dropNode (id : NodeID) (n : NodeHash) (succs : List NodeID)
    (policy : CascadePolicy) (nowMs : Int) : Prog (Reply × State) := do
  let s := succs.foldl (fun s w => s.unlink id w) s
  let preds ← Prog.getRange (s.pred id).keys
  let s := preds.foldl (fun s u => s.unlink u id) s
  let status := ((s.node id).map NodeHash.status).getD .new
  let s := ((s.zremReady n.kind id).zremSched id).zremLeases id
  let s := (s.adjustBucket n.phase status (-1)).adjustTotal (-1)
  let s := s.deleteNodeKeys id
  if policy = .detach then pure (.done, ← settleAll nowMs succs s)
  else pure (.done, s)

def removeNode (id : NodeID) (policy : CascadePolicy) : Prog (Reply × State) := do
  let nowMs ← Prog.getNow
  match s.node id with
  | none => pure (.error (.notFound id), s)
  | some n =>
    if n.phase = .claimed then pure (.error (.inFlight id), s)
    else do
      let succs ← Prog.getRange (s.succ id)
      if succs ≠ [] ∧ policy = .reject then pure (.error (.hasSucc id succs.length), s)
      else if policy = .fail then do
        let s ← terminateAll .error .removed (terminalMessage .removed) nowMs succs s
        s.dropNode id n succs policy nowMs
      else s.dropNode id n succs policy nowMs

/-! ## Cancelling -/

/-- Terminate the listed nodes that are not done. -/
def cancelAll (nowMs : Int) : List NodeID → State → Prog State
  | [], s => pure s
  | id :: ids, s =>
    match s.node id with
    | none => cancelAll nowMs ids s
    | some n =>
      if n.phase = .done then cancelAll nowMs ids s
      else do
        cancelAll nowMs ids
          (← s.terminate id .error .cancelled (terminalMessage .cancelled) nowMs)

def cancelNodes (ids : List NodeID) : Prog (Reply × State) :=
  match ids.find? fun id => s.has id = false with
  | some id => pure (.error (.notFound id), s)
  | none => do
    let nowMs ← Prog.getNow
    pure (.done, ← cancelAll nowMs ids s)

/-- The identifiers of the index, in lexicographic order. -/
def sortedIdx : List NodeID := s.idx.insertionSort (· ≤ ·)

def cancelScope : Prog (Reply × State) := do
  let nowMs ← Prog.getNow
  pure (.done, ← cancelAll nowMs s.sortedIdx s)

/-! ## Leases -/

structure ClaimArgs where
  kinds : List String := []
  maxN : Int := 1
  leaseMs : Int
  sweepBatch : ℕ := 100
  maxInFlight : Int := 0
  workerId : String := ""
deriving DecidableEq, Repr

/-- The inner loop of `scriptClaim`: the head of one kind's set against the best so
far. -/
def betterHead (best : Option (String × NodeID × Int)) (kind : String) :
    Option (String × NodeID × Int) :=
  match (s.ready kind).first, best with
  | none, _ => best
  | some (id, score), none => some (kind, id, score)
  | some (id, score), some b => if score < b.2.2 then some (kind, id, score) else best

/-- The fields a granted lease sets. -/
def leased (n : NodeHash) (args : ClaimArgs) (nowMs : Int) : NodeHash :=
  { n with
    phase := .claimed
    status := .inProgress
    epoch := luaSucc n.epoch
    attempt := n.attempt + 1
    updatedAt := nowMs
    deadline := nowMs + args.leaseMs
    worker := args.workerId }

/-- Grant a lease on the head of a ready set. -/
def grant (kind : String) (id : NodeID) (n : NodeHash) (args : ClaimArgs) (nowMs : Int) : State :=
  let s := s.zremReady kind id
  let s := s.adjustBucket n.phase n.status (-1)
  let s := s.modNode id fun n => leased n args nowMs
  let s := s.adjustBucket .claimed .inProgress 1
  let s := { s with leases := s.leases.insert id (nowMs + args.leaseMs) }
  s.recordEvent id .transition n.status .inProgress .none "" (n.attempt + 1) kind nowMs

/-- The row of a lease just granted. -/
def leaseRow (id : NodeID) : List LeaseRow :=
  match s.node id with
  | none => []
  | some n =>
    [{ id := id, epoch := n.epoch, deadline := n.deadline, node := n
       blob := s.blobs.lookup id }]

/-- The loop of `scriptClaim`, with the number of leases still wanted. -/
def claimLoop (args : ClaimArgs) (kinds : List String) (nowMs : Int) :
    ℕ → State → List LeaseRow → List LeaseRow × State
  | 0, s, rows => (rows, s)
  | left + 1, s, rows =>
    if 0 < args.maxInFlight ∧ args.maxInFlight ≤ s.stats.inProgress then (rows, s)
    else match kinds.foldl s.betterHead none with
      | none => (rows, s)
      | some (kind, id, _) =>
        match s.node id with
        | none => (rows, s)
        | some n =>
          let s := s.grant kind id n args nowMs
          claimLoop args kinds nowMs left s (rows ++ s.leaseRow id)

/-- The kinds to compare: those requested, or every kind of the scope. -/
def candidateKinds (kinds : List String) : Prog (List String) :=
  if kinds = [] then Prog.getRange s.kinds else pure kinds

def claim (args : ClaimArgs) : Prog (Reply × State) := do
  let nowMs ← Prog.getNow
  let (_, s) ← s.reclaimExpired nowMs args.sweepBatch
  let s := s.promoteScheduled nowMs
  let kinds ← s.candidateKinds args.kinds
  let (rows, s) := claimLoop args kinds nowMs args.maxN.toNat s []
  pure (.leases rows, s)

structure CompleteArgs where
  id : NodeID
  presentedEpoch : ℕ
  success : Bool
  reason : Reason := .none
  message : String := ""
  result : Bytes := []
  payloadCap : Int
deriving DecidableEq, Repr

/-- `scriptComplete` past the fencing check. -/
def completeHeld (args : CompleteArgs) : Prog (Reply × State) := do
  let nowMs ← Prog.getNow
  if args.success then
    if args.payloadCap < (args.result.length : Int) then
      pure (.error (.payloadCap args.result.length args.payloadCap), s)
    else
      let s := { s with blobs := match s.blobs.lookup args.id with
        | none => s.blobs
        | some b => s.blobs.insert args.id { b with result := args.result } }
      pure (.completed false 0, ← s.terminate args.id .success .none "" nowMs)
  else
    let reason := if args.reason = .none then .workerError else args.reason
    if reason = .skipped then
      let s := (s.zremLeases args.id).modNode args.id fun n => { n with deadline := 0 }
      pure (.completed false 0, ← s.terminate args.id .error .skipped args.message nowMs)
    else
      let (retrying, s) ← s.failAttempt args.id reason args.message nowMs
      let next := if retrying then ((s.node args.id).map NodeHash.readyAt).getD 0 else 0
      pure (.completed retrying next, s)

def holdsLease (n : NodeHash) (presentedEpoch : ℕ) : Bool :=
  n.phase = .claimed && n.epoch = presentedEpoch

def complete (args : CompleteArgs) : Prog (Reply × State) :=
  match s.node args.id with
  | none => pure (.error (.notFound args.id), s)
  | some n =>
    if holdsLease n args.presentedEpoch then s.completeHeld args
    else pure (.error (.leaseMismatch args.id (some (n.epoch, args.presentedEpoch))), s)

def extend (id : NodeID) (presentedEpoch : ℕ) (leaseMs : Int) : Prog (Reply × State) :=
  match s.node id with
  | none => pure (.error (.notFound id), s)
  | some n =>
    if holdsLease n presentedEpoch then do
      let nowMs ← Prog.getNow
      let deadline := nowMs + leaseMs
      let s := s.modNode id fun n => { n with deadline := deadline }
      pure (.extended deadline, { s with leases := s.leases.insert id deadline })
    else pure (.error (.leaseMismatch id none), s)

def sweep (limit : ℕ) : Prog (Reply × State) := do
  let nowMs ← Prog.getNow
  let (reclaimed, s) ← s.reclaimExpired nowMs limit
  let s := s.promoteScheduled nowMs
  let more := decide (limit ≤ reclaimed) && !(s.leases.upTo nowMs 1).isEmpty
  pure (.swept reclaimed more, s)

/-! ## Collecting -/

/-- `scriptCollectIfEligible`.  It deletes the keys itself, without `deleteNodeKeys`. -/
def collectIfEligible (id : NodeID) (cutoffMs : Int) : Reply × State :=
  match s.node id with
  | none => (.collected 0, s)
  | some n =>
    if n.phase ≠ .done then (.collected 0, s)
    else if cutoffMs < n.updatedAt then (.collected 0, s)
    else if s.succ id ≠ [] then (.collected 0, s)
    else (.collected 1, ((s.adjustBucket .done n.status (-1)).adjustTotal (-1)).delKeys id)

end State

/-! ## Runs -/

/-- One call of a script, or the `HSET cfg` of `SetScopeConfig` and `Seal`. -/
inductive Script
  | addNodes (maxBatch : Int) (specs : List SpecArgs)
  | addEdges (edges : List (NodeID × NodeID))
  | removeEdges (edges : List (NodeID × NodeID))
  | removeNode (id : NodeID) (policy : CascadePolicy)
  | cancelNodes (ids : List NodeID)
  | cancelScope
  | claim (args : State.ClaimArgs)
  | complete (args : State.CompleteArgs)
  | extend (id : NodeID) (presentedEpoch : ℕ) (leaseMs : Int)
  | sweep (limit : ℕ)
  | collectIfEligible (id : NodeID) (cutoffMs : Int)
  | configure (cfg : Cfg)

def Script.exec (s : State) : Script → Prog (Reply × State)
  | .addNodes maxBatch specs => s.addNodes maxBatch specs
  | .addEdges edges => s.addEdges edges
  | .removeEdges edges => s.removeEdges edges
  | .removeNode id policy => s.removeNode id policy
  | .cancelNodes ids => s.cancelNodes ids
  | .cancelScope => s.cancelScope
  | .claim args => s.claim args
  | .complete args => s.complete args
  | .extend id presentedEpoch leaseMs => s.extend id presentedEpoch leaseMs
  | .sweep limit => s.sweep limit
  | .collectIfEligible id cutoffMs => pure (s.collectIfEligible id cutoffMs)
  | .configure cfg => pure (.done, { s with cfg := cfg })

abbrev StepRecord := Trace.Step State Script Reply

abbrev Run := Trace.Run Script.exec

/-- The state of a scope that has only been configured. -/
def State.fresh (cfg : Cfg) : State := { cfg := cfg }

end DagWorker.Redis
