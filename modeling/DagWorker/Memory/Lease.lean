import DagWorker.Memory.Graph

/-!
# The lease protocol of a scope

`Claim`, `Complete`, `Extend` and `Sweep` under the scope lock, with the reclaim
of expired leases and the retry life cycle they share.
-/

namespace DagWorker.Memory

open Function

/-- Count one more attempt, saturating at the largest `uint32`. -/
def bumpAttempt (n : ℕ) : ℕ := if n = 2 ^ 32 - 1 then n else n + 1

namespace Scope

variable (s : Scope)

/-- A node's own retry policy over the scope's, field by field. -/
def effectiveRetry (h : ℕ) (cfg : ScopeConfig) : ℕ × Int × Int :=
  let r := s.recs h
  (if 0 < r.retry.maxAttempts then r.retry.maxAttempts else cfg.maxAttempts,
    if 0 < r.retry.baseDelay then r.retry.baseDelay else cfg.retryBaseDelay,
    if 0 < r.retry.maxDelay then r.retry.maxDelay else cfg.retryMaxDelay)

/-- `leases.Remove(h)` and `deadline[h] = 0`. -/
def dropLease (h : ℕ) : Scope :=
  (s.removeLease h).setDeadline h 0

/-- The retry branch of `failAttempt` up to the event. -/
def retry (h : ℕ) (reason : Reason) (msg : String) (now delay : Int) : Scope :=
  let s := s.dropLease h
  let s := s.modRec h fun r =>
    { r with reason := reason, message := msg, worker := "", updatedAt := now }
  s.schedule h (int64 (now + delay))

/-- Record a failed attempt and decide between another one and a terminal
failure. -/
def failAttempt (h : ℕ) (reason : Reason) (msg : String) (cfg : ScopeConfig)
    (now : Int) (out : List Effect) : Prog (Scope × List Effect) :=
  let r := s.recs h
  let (maxAttempts, base, maxDelay) := s.effectiveRetry h cfg
  if maxAttempts ≤ r.attempt then (s.dropLease h).terminate h .error reason msg out
  else do
    let delay ← backoff r.attempt base maxDelay
    let (ef, s) ← (s.retry h reason msg now delay).record h .transition r.status
    pure (s, out ++ [ef])

def timeoutMessage : String := "the worker did not acknowledge before the lease deadline"

/-- The loop of `reclaimExpired`, with the number of leases it may still take. -/
def reclaimLoop (now : Int) (cfg : ScopeConfig) :
    ℕ → Scope → List Effect → ℕ → Prog (Scope × List Effect × ℕ × Bool)
  | 0, s, out, reclaimed =>
    let more := match s.leases.peek with
      | none => false
      | some h => decide (s.deadline h ≤ now)
    pure (s, out, reclaimed, more)
  | left + 1, s, out, reclaimed =>
    match s.leases.peek with
    | none => pure (s, out, reclaimed, false)
    | some h =>
      if now < s.deadline h then pure (s, out, reclaimed, false)
      else do
        let (s, out) ← s.failAttempt h .timeout timeoutMessage cfg now out
        reclaimLoop now cfg left s out (reclaimed + 1)

/-- Revoke every lease whose deadline has passed, up to `limit`. -/
def reclaimExpired (now : Int) (cfg : ScopeConfig) (limit : Int)
    (out : List Effect) : Prog (Scope × List Effect × ℕ × Bool) :=
  reclaimLoop now cfg limit.toNat s out 0

/-! ## Claiming -/

/-- `consider` in `popReady`: the head of one kind's queue against the best so
far. -/
def consider (best : Option (ℕ × String)) (kind : String) : Option (ℕ × String) :=
  match (s.readyHeap kind).peek, best with
  | none, _ => best
  | some top, none => some (top, kind)
  | some top, some (b, _) =>
    if (s.recs b).priority < (s.recs top).priority ∨
        ((s.recs top).priority = (s.recs b).priority ∧ s.fifo top < s.fifo b) then
      some (top, kind)
    else best

/-- The best claimable node among the listed kinds, with its kind. -/
def bestReady (kinds : List String) : Option (ℕ × String) :=
  kinds.foldl s.consider none

def popKind (kind : String) : Scope :=
  s.setReady kind ((s.readyHeap kind).pop s.readyLess)

/-- The kinds `popReady` compares: those requested, or every kind with a queue,
in the iteration order of the map. -/
def kindsToPop (kinds : List String) : Prog (List String) :=
  if kinds = [] then Prog.getRange s.ready.keys else pure kinds

/-- Grant a lease on node `h`, popped from the queue of `kind`. -/
def grant (h : ℕ) (kind worker : String) (now leaseFor : Int) : Scope :=
  let s := s.popKind kind
  let s := s.leaveBucket h
  let s := s.modRec h fun r =>
    { r with
      epoch := uint64 (r.epoch + 1)
      attempt := bumpAttempt r.attempt
      phase := .claimed
      status := .inProgress
      worker := worker
      updatedAt := now }
  let s := s.setDeadline h (int64 (now + leaseFor))
  let s := s.pushLease h
  s.enterBucket h

def leaseOf (h : ℕ) : Lease :=
  { scope := s.name
    nodeID := (s.recs h).id
    epoch := (s.recs h).epoch
    deadline := s.deadline h
    node := s.snapshot h }

/-- The loop of `Claim`, with the number of leases still wanted. -/
def claimLoop (cfg : ScopeConfig) (req : ClaimRequest) (now : Int) :
    ℕ → Scope → ClaimResult → Prog (ClaimResult × Scope)
  | 0, s, res => pure (res, s)
  | left + 1, s, res =>
    if 0 < cfg.maxInFlight ∧ (cfg.maxInFlight : Int) ≤ s.stats.inProgress then pure (res, s)
    else do
      let kinds ← s.kindsToPop req.kinds
      match s.bestReady kinds with
      | none => pure (res, s)
      | some (h, kind) =>
        let status := (s.recs h).status
        let (ef, s) ←
          (s.grant h kind req.workerID now (cfg.clampLease req.timeout)).record
            h .transition status
        claimLoop cfg req now left s
          { leases := res.leases ++ [s.leaseOf h], effects := res.effects ++ [ef] }

/-- `Claim` past the scope lookup. -/
def claim (req : ClaimRequest) : Prog (ClaimResult × Scope) := do
  let cfg := s.cfg.resolved
  let now ← Prog.getNow
  let (s, effects, _, _) ← s.reclaimExpired now cfg cfg.sweepBatchSize []
  let (s, promoted) ← s.promoteScheduled now
  claimLoop cfg req now (max req.max 1).toNat s { effects := effects ++ promoted }

/-! ## Completing and extending -/

def leaseMismatch (s : Scope) (h : ℕ) (lease : Lease) : Err :=
  .wrapped .leaseMismatch
    ("node " ++ lease.nodeID.quote ++ " is at epoch " ++ toString (s.recs h).epoch ++
      ", lease presented " ++ toString lease.epoch)

def holdsLease (h : ℕ) (lease : Lease) : Bool :=
  (s.recs h).phase = .claimed && (s.recs h).epoch = lease.epoch

/-- `Complete` once the fencing check has passed. -/
def completeHeld (h : ℕ) (req : CompleteRequest) : Prog (Except Err CompleteResult × Scope) := do
  let cfg := s.cfg.resolved
  let now ← Prog.getNow
  if req.success then
    if cfg.payloadCap < (req.result.length : Int) then
      pure (.error (.payloadTooLarge req.result.length cfg.payloadCap), s)
    else
      let s := s.modRec h fun r => { r with result := req.result, worker := "" }
      let (s, effects) ← s.terminate h .success .none "" []
      pure (.ok { effects := effects }, s.refreshComplete)
  else
    let reason := if req.reason = .none then .workerError else req.reason
    if reason = .skipped then
      let s := (s.dropLease h).modRec h fun r => { r with worker := "" }
      let (s, effects) ← s.terminate h .error .skipped req.message []
      pure (.ok { effects := effects }, s.refreshComplete)
    else
      let (s, effects) ← s.failAttempt h reason req.message cfg now []
      let res : CompleteResult :=
        if (s.recs h).phase = .scheduled then
          { effects := effects, retrying := true, nextAttemptAt := s.readyAt h }
        else { effects := effects }
      pure (.ok res, s.refreshComplete)

/-- `Complete` past the scope lookup. -/
def complete (req : CompleteRequest) : Prog (Except Err CompleteResult × Scope) :=
  match s.lookup req.lease.nodeID with
  | none => pure (.error (.bare .notFound), s)
  | some h =>
    if s.holdsLease h req.lease then s.completeHeld h req
    else pure (.error (s.leaseMismatch h req.lease), s)

/-- `Extend` past the scope lookup. -/
def extend (req : ExtendRequest) : Prog (Except Err Int × Scope) :=
  match s.lookup req.lease.nodeID with
  | none => pure (.error (.bare .notFound), s)
  | some h =>
    if s.holdsLease h req.lease then do
      let now ← Prog.getNow
      let s := s.setDeadline h (int64 (now + s.cfg.resolved.clampLease req.timeout))
      let s := { s with leases := s.leases.fix s.leaseLess h }
      pure (.ok (s.deadline h), s)
    else pure (.error (s.leaseMismatch h req.lease), s)

/-- `Sweep` past the scope lookup. -/
def sweep (limit : Int) : Prog (SweepResult × Scope) := do
  let cfg := s.cfg.resolved
  let limit := if limit ≤ 0 then cfg.sweepBatchSize else limit
  let now ← Prog.getNow
  let (s, effects, reclaimed, more) ← s.reclaimExpired now cfg limit []
  let (s, promoted) ← s.promoteScheduled now
  pure ({ reclaimed := reclaimed, effects := effects ++ promoted, more := more },
    s.refreshComplete)

/-! ## Collecting terminal nodes -/

def detachSucc (u v : ℕ) : Scope := s.setSucc u ((s.succ u).erase v)

/-- Detach a node from the successor lists of its predecessors. -/
def detachPreds (v : ℕ) : List PredEdge → Scope → Scope
  | [], s => s
  | e :: es, s => detachPreds v es (s.detachSucc e.source v)

/-- A node `CollectTerminal` may delete. -/
def collectible (cutoff : Int) (h : ℕ) : Bool :=
  (s.recs h).phase = .done && (s.recs h).updatedAt ≤ cutoff && s.succ h = []

/-- The loop of `CollectTerminal` over the identifiers in iteration order. -/
def collectLoop (cutoff : Int) (limit : ℕ) : List NodeID → Scope → ℕ → (ℕ × Bool) × Scope
  | [], s, deleted => ((deleted, false), s)
  | id :: ids, s, deleted =>
    match s.lookup id with
    | none => collectLoop cutoff limit ids s deleted
    | some h =>
      if s.collectible cutoff h then
        if deleted = limit then ((deleted, true), s)
        else
          collectLoop cutoff limit ids
            ((detachPreds h (s.pred h) s).deleteNode id h) (deleted + 1)
      else collectLoop cutoff limit ids s deleted

/-- `CollectTerminal` past the scope lookup. -/
def collectTerminal (cutoff : Int) (limit : Int) : Prog ((ℕ × Bool) × Scope) := do
  let limit := if limit ≤ 0 then 100 else limit
  let ids ← Prog.getRange s.index.keys
  pure (collectLoop cutoff limit.toNat ids s 0)

end Scope
end DagWorker.Memory
