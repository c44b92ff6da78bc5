import DagWorker.Core.Policy

/-!
# Lease lengths on the wire

A client asks for a lease in whole seconds.  The seconds become nanoseconds before the
scope's bounds are applied, and the product is one of `int64`.
-/

namespace DagWorker.Http

/-- `time.Duration(seconds) * time.Second`. -/
def leaseTimeout (seconds : Int) : Int := int64 (seconds * second)

/-- The lease length of a claim: `claimOptionsFromWire`, the check of `buildClaim` and
`ClampLease`. -/
def claimLease (c : ScopeConfig) (seconds : Int) : Except Err Int :=
  let timeout := if 0 < seconds then leaseTimeout seconds else 0
  if timeout < 0 then .error (.invalidArg "lease timeout" "must not be negative")
  else .ok (c.resolved.clampLease timeout)

/-- The lease length after `handleRenew`: the check of `Manager.Extend` and `ClampLease`. -/
def renewLease (c : ScopeConfig) (seconds : Int) : Except Err Int :=
  let timeout := leaseTimeout seconds
  if timeout < 0 then .error (.invalidArg "extension" "must not be negative")
  else .ok (c.resolved.clampLease timeout)

/-- The seconds as clamped over unbounded integers. -/
def exactLease (c : ScopeConfig) (seconds : Int) : Int :=
  min (max (seconds * second) c.resolved.minLeaseTimeout) c.resolved.maxLeaseTimeout

/-- The nanoseconds fit in 64 bits.  Or what is left of them is not negative and gives the
longest lease all the same: there is enough left, or there is only one length, or nothing is
left and the default is the longest lease. -/
def Fits (c : ScopeConfig) (seconds : Int) : Prop :=
  seconds * second < 2 ^ 63 ∨ ∃ left k : Int, seconds * second = left + k * 2 ^ 64 ∧
    0 ≤ left ∧ left < 2 ^ 63 ∧ (c.resolved.maxLeaseTimeout ≤ left ∨
      c.resolved.minLeaseTimeout = c.resolved.maxLeaseTimeout ∨
      left = 0 ∧ c.resolved.defaultLeaseTimeout = c.resolved.maxLeaseTimeout)

/-- When what is left of the nanoseconds gives the exact length. -/
theorem clampLease_leaseTimeout_iff {c : ScopeConfig} (hc : c.validate = .ok ()) (ht : c.Typed)
    {seconds : Int} (hpos : 0 < seconds) : (0 ≤ leaseTimeout seconds ∧
      c.resolved.clampLease (leaseTimeout seconds) = exactLease c seconds) ↔ Fits c seconds := by
  obtain ⟨hmin, hdefault, hmax, hlt⟩ := ScopeConfig.lease_bounds hc ht
  obtain ⟨hlo, hhi, k, hk⟩ := exists_int64 (seconds * second)
  have hnanos : 0 < seconds * second := mul_pos hpos (by decide)
  rw [ScopeConfig.clampLease_resolved hc ht, exactLease, Fits]
  rw [leaseTimeout]
  generalize seconds * second = nanos at *
  generalize int64 nanos = left at *
  by_cases hsmall : nanos < 2 ^ 63
  · -- no multiple of `2 ^ 64` is lost
    have hzero : k = 0 := by omega
    subst hzero
    refine iff_of_true ⟨by omega, ?_⟩ (.inl hsmall)
    rw [if_neg (by omega)]
    omega
  constructor
  · rintro ⟨hleft, hexact⟩
    refine .inr ⟨left, k, hk, hleft, hhi, ?_⟩
    split_ifs at hexact <;> omega
  rintro (hfits | ⟨left', j, hj, hleft, hhi', hlongest⟩)
  · omega
  · have hsame : j = k := by omega
    refine ⟨by omega, ?_⟩
    split_ifs <;> omega

/-- A claim and a renewal get the exact length exactly if the seconds fit. -/
theorem leases_honoured_iff {c : ScopeConfig} (hc : c.validate = .ok ()) (ht : c.Typed)
    {seconds : Int} (hpos : 0 < seconds) :
    (claimLease c seconds = .ok (exactLease c seconds) ↔ Fits c seconds) ∧
      (renewLease c seconds = .ok (exactLease c seconds) ↔ Fits c seconds) := by
  have hiff := clampLease_leaseTimeout_iff hc ht hpos
  constructor
  · rw [← hiff, claimLease, if_pos hpos]
    split_ifs with hneg
    · simp [hneg]
    · simp [not_lt.mp hneg]
  · rw [← hiff, renewLease]
    split_ifs with hneg
    · simp [hneg]
    · simp [not_lt.mp hneg]

/-- A minute is a minute. -/
theorem minute_honoured : claimLease {} 60 = .ok (exactLease {} 60) ∧
    renewLease {} 60 = .ok (exactLease {} 60) ∧ exactLease {} 60 = 60 * second := by
  have ht : ({} : ScopeConfig).Typed := ⟨by decide, by decide⟩
  have h := leases_honoured_iff rfl ht (show (0 : Int) < 60 by decide)
  exact ⟨h.1.mpr (.inl (by decide)), h.2.mpr (.inl (by decide)), by decide⟩

/-- More seconds than fit: one length is refused, a longer one is cut to the default. -/
theorem long_lease_lost :
    exactLease {} (2 ^ 34) = Default.maxLeaseTimeout ∧
    claimLease {} (2 ^ 34) = .error (.invalidArg "lease timeout" "must not be negative") ∧
    renewLease {} (2 ^ 34) = .error (.invalidArg "extension" "must not be negative") ∧
    claimLease {} (2 ^ 55) = .ok Default.leaseTimeout := by
  decide

end DagWorker.Http
