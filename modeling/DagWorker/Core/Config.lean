import DagWorker.Support.Prog
import DagWorker.Core.Status

/-!
# Scope configuration and retry delays

Durations and times are `int64` nanoseconds.  They are integers here, and an
addition or a doubling whose result the source does not bound is wrapped to 64
bits with `int64`.
-/

namespace DagWorker

/-- Two's-complement wrap to 64 bits. -/
def int64 (x : Int) : Int := Int.bmod x (2 ^ 64)

/-- Wrap of an unsigned 64-bit counter. -/
def uint64 (x : ℕ) : ℕ := x % 2 ^ 64

def second : Int := 1000000000

namespace Default

def leaseTimeout : Int := 30 * second
def minLeaseTimeout : Int := second
def maxLeaseTimeout : Int := 24 * 3600 * second
def maxAttempts : ℕ := 3
def retryBaseDelay : Int := second
def retryMaxDelay : Int := 5 * 60 * second
def payloadCap : Int := 256 * 1024
def maxBatchSize : Int := 1000
def maxClaimBatch : Int := 1000
def sweepBatchSize : Int := 100
def sweepInterval : Int := 5 * second

end Default

/-- The per-scope policy.  A zero field means the fallback, except for
`terminalRetention`, `maxSubscriberLag` and `maxInFlight`, where it disables. -/
structure ScopeConfig where
  defaultLeaseTimeout : Int := 0
  minLeaseTimeout : Int := 0
  maxLeaseTimeout : Int := 0
  maxAttempts : ℕ := 0
  retryBaseDelay : Int := 0
  retryMaxDelay : Int := 0
  terminalRetention : Int := 0
  maxSubscriberLag : Int := 0
  maxInFlight : ℕ := 0
  payloadCap : Int := 0
  maxBatchSize : Int := 0
  maxClaimBatch : Int := 0
  sweepBatchSize : Int := 0
  sweepInterval : Int := 0
  partitionCount : ℕ := 0
deriving DecidableEq, Repr

/-- `x` unless it is not positive. -/
def orDefault (x fallback : Int) : Int := if x ≤ 0 then fallback else x

/-- Every zero-means-fallback field filled in. -/
def ScopeConfig.resolved (c : ScopeConfig) : ScopeConfig :=
  { c with
    defaultLeaseTimeout := orDefault c.defaultLeaseTimeout Default.leaseTimeout
    minLeaseTimeout := orDefault c.minLeaseTimeout Default.minLeaseTimeout
    maxLeaseTimeout := orDefault c.maxLeaseTimeout Default.maxLeaseTimeout
    maxAttempts := if c.maxAttempts = 0 then Default.maxAttempts else c.maxAttempts
    retryBaseDelay := orDefault c.retryBaseDelay Default.retryBaseDelay
    retryMaxDelay := orDefault c.retryMaxDelay Default.retryMaxDelay
    payloadCap := orDefault c.payloadCap Default.payloadCap
    maxBatchSize := orDefault c.maxBatchSize Default.maxBatchSize
    maxClaimBatch := orDefault c.maxClaimBatch Default.maxClaimBatch
    sweepBatchSize := orDefault c.sweepBatchSize Default.sweepBatchSize
    sweepInterval := orDefault c.sweepInterval Default.sweepInterval
    partitionCount := if c.partitionCount = 0 then 1 else c.partitionCount }

/-- Bring a requested lease duration inside the scope's bounds. -/
def ScopeConfig.clampLease (c : ScopeConfig) (d : Int) : Int :=
  let r := c.resolved
  let d := if d ≤ 0 then r.defaultLeaseTimeout else d
  min (max d r.minLeaseTimeout) r.maxLeaseTimeout

/-- What happens when an attempt fails or times out.  Zero inherits. -/
structure RetryPolicy where
  maxAttempts : ℕ := 0
  baseDelay : Int := 0
  maxDelay : Int := 0
deriving DecidableEq, Repr

/-! ## Backoff -/

/-- The doubling loop of `backoff`, `n` iterations of it. -/
def backoffWindow (maxDelay : Int) : ℕ → Int → Int
  | 0, window => window
  | n + 1, window =>
    if maxDelay / 2 ≤ window then maxDelay
    else backoffWindow maxDelay n (int64 (window * 2))

/-- The window of `backoff`. -/
def window (attempt : ℕ) (base maxDelay : Int) : Int :=
  let attempt := if attempt = 0 then 1 else attempt
  let base := orDefault base Default.retryBaseDelay
  let maxDelay := orDefault maxDelay Default.retryMaxDelay
  min (backoffWindow maxDelay (attempt - 1) base) maxDelay

/-- The delay before an attempt is retried: full jitter below an exponentially
growing window. -/
def backoff (attempt : ℕ) (base maxDelay : Int) : Prog Int :=
  let window := window attempt base maxDelay
  if window ≤ 0 then pure window
  else Prog.getJitter window

end DagWorker
