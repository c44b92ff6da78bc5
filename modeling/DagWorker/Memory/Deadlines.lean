import DagWorker.Core.Policy
import DagWorker.Memory.Representation

/-!
# Deadlines and ready times

A deadline and a ready time are sums of a clock reading and a duration in `int64`
nanoseconds.  Validation orders the durations of a configuration but bounds none of them, so
that such a sum may wrap to a time long past.
-/

namespace DagWorker.Memory

/-- The first instant of the year 2200. -/
def year2200 : Int := 7258118400 * second

/-- A deadline lies after the reading, within the bounds of the scope. -/
def Timely (cfg : ScopeConfig) (now deadline : Int) : Prop :=
  now < deadline ∧ cfg.resolved.minLeaseTimeout ≤ deadline - now ∧
    deadline - now ≤ cfg.resolved.maxLeaseTimeout

theorem le_int64_add_iff {now d : Int} (hnow : 0 ≤ now ∧ now ≤ year2200)
    (hd : 0 ≤ d ∧ d < 2 ^ 63) : now ≤ int64 (now + d) ↔ now + d < 2 ^ 63 := by
  obtain ⟨hlo, hhi, k, hk⟩ := exists_int64 (now + d)
  have hnow : now < 2 ^ 63 := hnow.2.trans_lt (by decide)
  omega

theorem timely_iff {cfg : ScopeConfig} {now : Int} (hc : cfg.validate = .ok ()) (ht : cfg.Typed)
    (hnow : 0 ≤ now ∧ now ≤ year2200) (timeout : Int) :
    Timely cfg now (int64 (now + cfg.resolved.clampLease timeout)) ↔
      now + cfg.resolved.clampLease timeout < 2 ^ 63 := by
  have hmem := ScopeConfig.clampLease_mem hc ht timeout
  have hbounds := ScopeConfig.lease_bounds hc ht
  have hiff := le_int64_add_iff hnow (d := cfg.resolved.clampLease timeout) (by omega)
  constructor
  · exact fun h => hiff.mp h.1.le
  · intro h
    rw [Timely, int64_of_lt (by omega) h]
    omega

namespace Scope

variable {s : Scope} {h : ℕ}

theorem recordAt_times (kind : EventKind) (fromStatus : Status) (t : Int) :
    (s.recordAt h kind fromStatus t).2.deadline = s.deadline ∧
      (s.recordAt h kind fromStatus t).2.readyAt = s.readyAt := by
  obtain ⟨log, start, heq⟩ := s.recordAt_eq h kind fromStatus t
  rw [heq]
  exact ⟨rfl, rfl⟩

theorem leaseOf_granted_deadline (kind worker : String) (now leaseFor t : Int) :
    ((s.granted h kind worker now leaseFor t).2.leaseOf h).deadline = int64 (now + leaseFor) := by
  rw [leaseOf, granted, (recordAt_times _ _ t).1]
  simp [grant]

/-- Every lease of a claim has the same deadline. -/
theorem claimLoop_deadline {cfg : ScopeConfig} {req : ClaimRequest} {now : Int} {left : ℕ}
    {res : ClaimResult} : (claimLoop cfg req now left s res).All fun r => ∀ l ∈ r.1.leases,
      l ∈ res.leases ∨ l.deadline = int64 (now + cfg.clampLease req.timeout) := by
  induction left generalizing s res with
  | zero => exact fun l hl => .inl hl
  | succ left ih =>
    rw [claimLoop]
    split
    · exact fun l hl => .inl hl
    rw [Prog.all_bind]
    refine Prog.all_of_forall (fun kinds => ?_) _
    split
    · exact fun l hl => .inl hl
    · intro t
      refine ih.mono fun r hr l hl => ?_
      rcases hr l hl with hold | hnew
      · rcases List.mem_append.mp hold with hold | hlast
        · exact .inl hold
        · rw [List.mem_singleton.mp hlast]
          exact .inr (leaseOf_granted_deadline _ _ _ _ t)
      · exact .inr hnew

/-- What `failAttempt` does while attempts are left: one draw below the window. -/
theorem failAttempt_retries {cfg : ScopeConfig} {base maxDelay : Int} {maxAttempts : ℕ}
    (reason : Reason) (msg : String) (now : Int) (out : List Effect)
    (heff : s.effectiveRetry h cfg = (maxAttempts, base, maxDelay))
    (hleft : (s.recs h).attempt < maxAttempts)
    (hpos : 0 < window (s.recs h).attempt base maxDelay) :
    ∃ k, s.failAttempt h reason msg cfg now out =
        .jitter (window (s.recs h).attempt base maxDelay) k ∧
      ∀ delay, (k delay).All fun r => r.1.readyAt h = int64 (now + delay) := by
  rw [failAttempt, heff]
  simp only [if_neg hleft.not_ge, backoff_eq _ hpos]
  refine ⟨_, rfl, fun delay t => ?_⟩
  change (recordAt _ _ _ _ t).2.readyAt h = _
  rw [(recordAt_times _ _ t).2]
  simp [retry, schedule]

end Scope

/-- With an accepted configuration and any clock reading up to 2200, a claim and an extension
set a deadline after the reading and within the bounds exactly if their sum fits in 64 bits,
and every ready time that a failed attempt may set is not before the reading exactly if the
whole backoff window fits. -/
theorem lease_times_iff {s : Scope} (hc : s.cfg.validate = .ok ()) (ht : s.cfg.Typed) :
    (∀ req, ∃ k, s.claim req = .now k ∧ ∀ now, 0 ≤ now ∧ now ≤ year2200 →
      (k now).All fun r => ∀ l ∈ r.1.leases,
        (Timely s.cfg now l.deadline ↔ now + s.cfg.resolved.clampLease req.timeout < 2 ^ 63)) ∧
    (∀ req h, s.lookup req.lease.nodeID = some h → s.holdsLease h req.lease = true →
      ∃ k, s.extend req = .now k ∧ ∀ now, 0 ≤ now ∧ now ≤ year2200 →
        (k now).All fun r => r.1 = .ok (r.2.deadline h) ∧ (Timely s.cfg now (r.2.deadline h) ↔
          now + s.cfg.resolved.clampLease req.timeout < 2 ^ 63)) ∧
    ∀ h reason msg now out maxAttempts base maxDelay, 0 ≤ now ∧ now ≤ year2200 →
      (s.recs h).retry.maxDelay < 2 ^ 63 →
      s.effectiveRetry h s.cfg.resolved = (maxAttempts, base, maxDelay) →
      (s.recs h).attempt < maxAttempts →
      ∃ k, s.failAttempt h reason msg s.cfg.resolved now out =
          .jitter (window (s.recs h).attempt base maxDelay) k ∧
        ((∀ delay, 0 ≤ delay → delay < window (s.recs h).attempt base maxDelay →
          (k delay).All fun r => now ≤ r.1.readyAt h) ↔
        now + window (s.recs h).attempt base maxDelay ≤ 2 ^ 63) := by
  refine ⟨fun req => ⟨_, rfl, fun now hnow => ?_⟩, fun req h hlook hheld => ?_, ?_⟩
  · change Prog.All _ (s.reclaimExpired now _ _ _ >>= _)
    rw [Prog.all_bind]
    refine Prog.all_of_forall (fun x => ?_) _
    rw [Prog.all_bind]
    refine Prog.all_of_forall (fun y => Scope.claimLoop_deadline.mono fun r hr l hl => ?_) _
    rw [(hr l hl).resolve_left List.not_mem_nil]
    exact timely_iff hc ht hnow req.timeout
  · rw [Scope.extend, hlook]
    simp only [hheld, if_true]
    refine ⟨_, rfl, fun now hnow => ⟨rfl, ?_⟩⟩
    simpa using timely_iff hc ht hnow req.timeout
  · intro h reason msg now out maxAttempts base maxDelay hnow hretry heff hleft
    have hmax : maxDelay < 2 ^ 63 := by
      obtain rfl : _ = maxDelay := congrArg (·.2.2) heff
      change ite _ _ _ < _
      split
      · exact hretry
      · exact orDefault_lt (by decide) (ht.durations _ (by simp [ScopeConfig.durations])).2
    obtain ⟨hcap, hpos, hle, -⟩ := window_bounds (s.recs h).attempt base hmax
    obtain ⟨k, hk, hready⟩ := Scope.failAttempt_retries reason msg now out heff hleft hpos
    refine ⟨k, hk, fun hall => ?_, fun hfits delay hdelay hlt => ?_⟩
    · -- the longest delay is one below the window
      obtain ⟨r, hr⟩ := Prog.exists_yields (k (window (s.recs h).attempt base maxDelay - 1))
      have hnot := (hall _ (by omega) (by omega)).of_yields hr
      rw [(hready _).of_yields hr, le_int64_add_iff hnow (by omega)] at hnot
      omega
    · refine (hready delay).mono fun r hr => ?_
      rw [hr, le_int64_add_iff hnow (by omega)]
      omega

/-- A scope with leases of at most an hour, one node claimed and one ready: the second is
claimed, the lease of the first is extended, and its attempt fails. -/
theorem lease_times_hour : ∃ st s, Reachable st ∧ st.scopes.lookup "jobs" = some s ∧
    s.cfg = { maxLeaseTimeout := 3600 * second } ∧ (s.recs 0).phase = .claimed ∧
    (∃ r, Prog.Yields (s.claim { scope := "jobs" }) r ∧ r.1.leases ≠ [] ∧
      ∀ l ∈ r.1.leases, Timely s.cfg 50 l.deadline) ∧
    (∃ k, s.extend { lease := s.leaseOf 0, timeout := 7200 * second } = .now k ∧
      (k 60).All fun r => r.1 = .ok (r.2.deadline 0) ∧ Timely s.cfg 60 (r.2.deadline 0)) ∧
    ∃ k, s.failAttempt 0 .workerError "" s.cfg.resolved 70 [] = .jitter second k ∧
      ∀ delay, 0 ≤ delay → delay < second → (k delay).All fun r => 70 ≤ r.1.readyAt 0 := by
  obtain ⟨st, s, hreach, hs, hp⟩ := exists_jobs
    [{ input := .setScopeConfig "jobs" { maxLeaseTimeout := 3600 * second } },
      { input := .addNodes "jobs" [{ id := "a" }, { id := "b" }], clock := [10, 11, 12, 13, 14] },
      { input := .claim { scope := "jobs" }, clock := [20, 21] }]
    (p := fun s => decide (s.cfg = { maxLeaseTimeout := 3600 * second } ∧
      s.lookup (s.recs 0).id = some 0 ∧ (s.recs 0).phase = .claimed ∧ (s.recs 0).attempt = 1 ∧
      (s.recs 0).retry = {}) &&
      ((s.claim { scope := "jobs" }).run [50, 51] []).any fun r => !r.1.leases.isEmpty)
    (by decide +kernel)
  rw [Bool.and_eq_true] at hp
  obtain ⟨hcfg, hlook, hclaimed, hattempt, hretry⟩ := of_decide_eq_true hp.1
  obtain ⟨r, hrun, hsome⟩ := (Option.any_eq_true _ _).mp hp.2
  have hheld : s.holdsLease 0 (s.leaseOf 0) = true := by
    simp [Scope.holdsLease, Scope.leaseOf, hclaimed]
  have heff : s.effectiveRetry 0 s.cfg.resolved = (3, second, 300 * second) := by
    rw [Scope.effectiveRetry, hretry, hcfg]
    rfl
  obtain ⟨hclaim, hextend, hfail⟩ := lease_times_iff (s := s) (by rw [hcfg]; rfl)
    (by rw [hcfg]; exact ⟨by decide, by decide⟩)
  obtain ⟨k, hk, hleases⟩ := hclaim { scope := "jobs" }
  obtain ⟨k', hk', hdeadline⟩ := hextend { lease := s.leaseOf 0, timeout := 7200 * second } 0 hlook
    hheld
  obtain ⟨k'', hk'', hready⟩ := hfail 0 .workerError "" 70 [] 3 second (300 * second) (by decide)
    (by rw [hretry]; decide) heff (by rw [hattempt]; decide)
  rw [hattempt] at hk'' hready
  refine ⟨st, s, hreach, hs, hcfg, hclaimed, ⟨r, Prog.yields_of_run hrun, by simpa using hsome,
    fun l hl => ?_⟩, ⟨k', hk', (hdeadline 60 (by decide)).mono fun r hr => ⟨hr.1, hr.2.mpr ?_⟩⟩, k'',
    hk'', hready.mpr (by decide)⟩
  · rw [hk] at hrun
    refine ((hleases 50 (by decide)).of_yields (Prog.yields_of_run hrun) l hl).mpr ?_
    rw [hcfg]
    decide
  · rw [hcfg]
    change 60 + ScopeConfig.clampLease _ (7200 * second) < _
    decide

/-- With the longest lease there is, a node that is claimed has a deadline before 1970. -/
theorem lease_born_expired : ∃ st s, Reachable st ∧ st.scopes.lookup "jobs" = some s ∧
    s.cfg.validate = .ok () ∧ s.cfg.Typed ∧ (s.recs 0).phase = .claimed ∧
    0 < (s.recs 0).updatedAt ∧ (s.recs 0).updatedAt < year2200 ∧ s.deadline 0 < 0 := by
  obtain ⟨st, s, hreach, hs, hp⟩ := exists_jobs
    [{ input := .setScopeConfig "jobs" { maxLeaseTimeout := 2 ^ 63 - 1 } },
      { input := .addNodes "jobs" [{ id := "a" }], clock := [10, 11, 12] },
      { input := .claim { scope := "jobs", timeout := 2 ^ 63 - 1 }, clock := [second, second] }]
    (p := fun s => decide (s.cfg = { maxLeaseTimeout := 2 ^ 63 - 1 } ∧
      (s.recs 0).phase = .claimed ∧ 0 < (s.recs 0).updatedAt ∧
      (s.recs 0).updatedAt < year2200 ∧ s.deadline 0 < 0)) (by decide +kernel)
  obtain ⟨hcfg, hclaimed⟩ := of_decide_eq_true hp
  refine ⟨st, s, hreach, hs, ?_, ?_, hclaimed⟩
  · rw [hcfg]
    rfl
  · rw [hcfg]
    exact ⟨by decide, by decide⟩

end DagWorker.Memory
