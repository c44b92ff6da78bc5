import DagWorker.Core.Backoff
import DagWorker.Core.Node

/-!
# Checking and copying a configuration

A configuration is copied field by field into every store and onto the wire, with its
durations converted on the way.  Here are its durations as a whole, the ranges of its
fields, and the check a manager makes before it stores one.
-/

namespace DagWorker

variable {c : ScopeConfig}

def millisecond : Int := 1000000

namespace ScopeConfig

def durations (c : ScopeConfig) : List Int :=
  [c.defaultLeaseTimeout, c.minLeaseTimeout, c.maxLeaseTimeout, c.retryBaseDelay,
    c.retryMaxDelay, c.terminalRetention, c.maxSubscriberLag, c.sweepInterval]

def mapDurations (f : Int → Int) (c : ScopeConfig) : ScopeConfig :=
  { c with
    defaultLeaseTimeout := f c.defaultLeaseTimeout
    minLeaseTimeout := f c.minLeaseTimeout
    maxLeaseTimeout := f c.maxLeaseTimeout
    retryBaseDelay := f c.retryBaseDelay
    retryMaxDelay := f c.retryMaxDelay
    terminalRetention := f c.terminalRetention
    maxSubscriberLag := f c.maxSubscriberLag
    sweepInterval := f c.sweepInterval }

theorem mapDurations_eq_iff {f : Int → Int} :
    c.mapDurations f = c ↔ ∀ d ∈ c.durations, f d = d := by
  cases c
  simp [mapDurations, durations]

/-- No field is outside the range of its type. -/
structure Typed (c : ScopeConfig) : Prop where
  durations : ∀ d ∈ c.durations, -2 ^ 63 ≤ d ∧ d < 2 ^ 63
  counts : ∀ n ∈ [c.maxAttempts, c.maxInFlight, c.partitionCount], n < 2 ^ 32

/-- Durations are whole milliseconds and not negative, counters fit in 31 bits. -/
structure Portable (c : ScopeConfig) : Prop where
  durations : ∀ d ∈ c.durations, 0 ≤ d ∧ d < 2 ^ 63 ∧ millisecond ∣ d
  counts : ∀ n ∈ [c.maxAttempts, c.maxInFlight, c.partitionCount], n < 2 ^ 31
  sizes : ∀ n ∈ [c.payloadCap, c.maxBatchSize, c.sweepBatchSize], -2 ^ 31 ≤ n ∧ n < 2 ^ 31

theorem Portable.typed (h : c.Portable) : c.Typed := by
  constructor
  · intro d hd
    have hd := h.durations d hd
    omega
  · intro n hn
    have hn := h.counts n hn
    omega

def validate (c : ScopeConfig) : Except Err Unit :=
  let r := c.resolved
  if r.maxLeaseTimeout < r.minLeaseTimeout then
    .error (.invalidArg "scope config"
      ("min lease timeout " ++ durationString r.minLeaseTimeout ++ " exceeds max " ++
        durationString r.maxLeaseTimeout))
  else if r.defaultLeaseTimeout < r.minLeaseTimeout ∨
      r.maxLeaseTimeout < r.defaultLeaseTimeout then
    .error (.invalidArg "scope config"
      ("default lease timeout " ++ durationString r.defaultLeaseTimeout ++ " is outside [" ++
        durationString r.minLeaseTimeout ++ ", " ++ durationString r.maxLeaseTimeout ++ "]"))
  else if r.retryMaxDelay < r.retryBaseDelay then
    .error (.invalidArg "scope config"
      ("retry base delay " ++ durationString r.retryBaseDelay ++ " exceeds max " ++
        durationString r.retryMaxDelay))
  else if c.terminalRetention < 0 then
    .error (.invalidArg "scope config" "terminal retention must not be negative")
  else if c.maxSubscriberLag < 0 then
    .error (.invalidArg "scope config" "max subscriber lag must not be negative")
  else .ok ()

/-! ## Lease lengths -/

/-- The bounds of an accepted configuration are in order. -/
theorem lease_bounds (hc : c.validate = .ok ()) (ht : c.Typed) :
    0 < c.resolved.minLeaseTimeout ∧ c.resolved.minLeaseTimeout ≤ c.resolved.defaultLeaseTimeout ∧
      c.resolved.defaultLeaseTimeout ≤ c.resolved.maxLeaseTimeout ∧
      c.resolved.maxLeaseTimeout < 2 ^ 63 := by
  have hpos : 0 < c.resolved.minLeaseTimeout := orDefault_pos (by decide)
  have hlt : c.resolved.maxLeaseTimeout < 2 ^ 63 :=
    orDefault_lt (by decide) (ht.durations _ (by simp [durations])).2
  simp only [validate] at hc
  split at hc
  · cases hc
  · split at hc
    · cases hc
    · omega

/-- `ClampLease` of a resolved configuration that was accepted. -/
theorem clampLease_resolved (hc : c.validate = .ok ()) (ht : c.Typed) (d : Int) :
    c.resolved.clampLease d = if d ≤ 0 then c.resolved.defaultLeaseTimeout else
      min (max d c.resolved.minLeaseTimeout) c.resolved.maxLeaseTimeout := by
  obtain ⟨hmin, hdefault, hmax, -⟩ := lease_bounds hc ht
  have hsame : ∀ {x fallback : Int}, 0 < x → orDefault x fallback = x := fun h => if_neg h.not_ge
  unfold clampLease
  rw [resolved]
  simp only [hsame hmin, hsame (hmin.trans_le hdefault),
    hsame (hmin.trans_le (hdefault.trans hmax))]
  split <;> omega

theorem clampLease_mem (hc : c.validate = .ok ()) (ht : c.Typed) (d : Int) :
    c.resolved.minLeaseTimeout ≤ c.resolved.clampLease d ∧
      c.resolved.clampLease d ≤ c.resolved.maxLeaseTimeout := by
  have hbounds := lease_bounds hc ht
  rw [clampLease_resolved hc ht]
  split <;> omega

end ScopeConfig
end DagWorker
