import DagWorker.Core.Policy
import DagWorker.Redis.Prelude
import Mathlib.Data.List.Induction

/-!
# The configuration of a scope in Redis

A hash holds the configuration, durations in milliseconds, and whether the scope is sealed.
`SetScopeConfig` and `Seal` write into it, `ScopeConfig` reads it as a whole, and the
scripts read single fields of it with fallbacks of their own.
-/

namespace DagWorker.Redis

variable {c : ScopeConfig} (defaults : ScopeConfig)

/-! ## The hash -/

/-- The fields of the hash `cfg`. -/
inductive CfgField
  | isSealed
  | defaultLeaseMs
  | minLeaseMs
  | maxLeaseMs
  | maxAttempts
  | retryBaseMs
  | retryMaxMs
  | terminalRetentionMs
  | maxSubscriberLagMs
  | maxInFlight
  | payloadCap
  | maxBatchSize
  | sweepBatchSize
  | sweepIntervalMs
  | partitionCount
deriving DecidableEq, Repr

/-- The hash `cfg`, with the numbers that its texts spell. -/
abbrev CfgHash := GoMap CfgField Int

def durToMs (d : Int) : Int := d.tdiv millisecond

def msToDur (ms : Int) : Int := int64 (ms * millisecond)

def narrowU32 (v : Int) : ℕ :=
  if v < 0 then 0 else if 2 ^ 32 - 1 < v then 2 ^ 32 - 1 else v.toNat

/-- The pairs that `SetScopeConfig` writes. -/
def cfgToHash (cfg : ScopeConfig) : List (CfgField × Int) :=
  [(.defaultLeaseMs, durToMs cfg.defaultLeaseTimeout),
    (.minLeaseMs, durToMs cfg.minLeaseTimeout),
    (.maxLeaseMs, durToMs cfg.maxLeaseTimeout),
    (.maxAttempts, cfg.maxAttempts),
    (.retryBaseMs, durToMs cfg.retryBaseDelay),
    (.retryMaxMs, durToMs cfg.retryMaxDelay),
    (.terminalRetentionMs, durToMs cfg.terminalRetention),
    (.maxSubscriberLagMs, durToMs cfg.maxSubscriberLag),
    (.maxInFlight, cfg.maxInFlight),
    (.payloadCap, cfg.payloadCap),
    (.maxBatchSize, cfg.maxBatchSize),
    (.sweepBatchSize, cfg.sweepBatchSize),
    (.sweepIntervalMs, durToMs cfg.sweepInterval),
    (.partitionCount, cfg.partitionCount)]

namespace CfgHash

/-- The number in a field, zero when the field is missing. -/
def atoi64 (m : CfgHash) (f : CfgField) : Int := (m.lookup f).getD 0

def hashToCfg (m : CfgHash) : ScopeConfig :=
  { defaultLeaseTimeout := msToDur (m.atoi64 .defaultLeaseMs)
    minLeaseTimeout := msToDur (m.atoi64 .minLeaseMs)
    maxLeaseTimeout := msToDur (m.atoi64 .maxLeaseMs)
    maxAttempts := narrowU32 (m.atoi64 .maxAttempts)
    retryBaseDelay := msToDur (m.atoi64 .retryBaseMs)
    retryMaxDelay := msToDur (m.atoi64 .retryMaxMs)
    terminalRetention := msToDur (m.atoi64 .terminalRetentionMs)
    maxSubscriberLag := msToDur (m.atoi64 .maxSubscriberLagMs)
    maxInFlight := narrowU32 (m.atoi64 .maxInFlight)
    payloadCap := m.atoi64 .payloadCap
    maxBatchSize := m.atoi64 .maxBatchSize
    sweepBatchSize := m.atoi64 .sweepBatchSize
    sweepInterval := msToDur (m.atoi64 .sweepIntervalMs)
    partitionCount := narrowU32 (m.atoi64 .partitionCount) }

def hset (m : CfgHash) (kvs : List (CfgField × Int)) : CfgHash :=
  kvs.foldl (fun m kv => m.insert kv.1 kv.2) m

def scopeConfig (defaults : ScopeConfig) (m : CfgHash) : ScopeConfig :=
  if m.entries.length = 0 then defaults else m.hashToCfg

def setScopeConfig (m : CfgHash) (cfg : ScopeConfig) : CfgHash := m.hset (cfgToHash cfg)

def sealScope (m : CfgHash) : CfgHash := m.hset [(.isSealed, 1)]

/-- What the scripts see of the hash. -/
def fields (m : CfgHash) : Cfg :=
  { isSealed := m.lookup .isSealed = some 1
    maxAttempts := m.lookup .maxAttempts
    retryBaseMs := m.lookup .retryBaseMs
    retryMaxMs := m.lookup .retryMaxMs }

end CfgHash

/-! ## Reading a configuration back -/

/-- Only whole milliseconds survive the hash. -/
theorem msToDur_durToMs_iff {d : Int} (hd : -2 ^ 63 ≤ d ∧ d < 2 ^ 63) :
    msToDur (durToMs d) = d ↔ millisecond ∣ d := by
  have hbounds : -2 ^ 63 ≤ durToMs d * millisecond ∧ durToMs d * millisecond < 2 ^ 63 := by
    rw [durToMs, millisecond, Int.tdiv_eq_ediv, show Int.sign 1000000 = 1 from rfl]
    split <;> omega
  have hwrap : msToDur (durToMs d) = durToMs d * millisecond := by
    apply Int.bmod_eq_of_le <;> omega
  rw [hwrap, durToMs]
  constructor
  · intro h
    rw [← h]
    exact Int.dvd_mul_left _ _
  · exact Int.tdiv_mul_cancel

theorem narrowU32_natCast {n : ℕ} (h : n < 2 ^ 32) : narrowU32 n = n := by
  rw [narrowU32, if_neg (by omega), if_neg (by omega), Int.toNat_natCast]

namespace CfgHash

theorem hashToCfg_setScopeConfig (m : CfgHash) (hc : c.Typed) :
    (m.setScopeConfig c).hashToCfg =
      { c.mapDurations fun d => msToDur (durToMs d) with maxClaimBatch := 0 } := by
  have hcounts := hc.counts
  simp only [List.mem_cons, List.not_mem_nil, or_false, forall_eq_or_imp, forall_eq] at hcounts
  obtain ⟨hattempts, hinFlight, hpartitions⟩ := hcounts
  simp [hashToCfg, setScopeConfig, hset, cfgToHash, atoi64, ScopeConfig.mapDurations,
    AList.lookup_insert_ne, narrowU32_natCast hattempts, narrowU32_natCast hinFlight,
    narrowU32_natCast hpartitions]

theorem hset_eq_empty_iff {m : CfgHash} {kvs : List (CfgField × Int)} :
    (m.hset kvs).entries.length = 0 ↔ m.entries.length = 0 ∧ kvs = [] := by
  induction kvs generalizing m with
  | nil => simp [hset]
  | cons kv kvs ih =>
    rw [hset, List.foldl_cons, ← hset, ih]
    simp

theorem scopeConfig_setScopeConfig (m : CfgHash) (c : ScopeConfig) :
    (m.setScopeConfig c).scopeConfig defaults = (m.setScopeConfig c).hashToCfg := by
  apply if_neg
  rw [setScopeConfig, hset_eq_empty_iff]
  simp [cfgToHash]

theorem scopeConfig_eq_iff (m : CfgHash) (hc : c.Typed) :
    (m.setScopeConfig c).scopeConfig defaults = c ↔
      c.maxClaimBatch = 0 ∧ ∀ d ∈ c.durations, millisecond ∣ d := by
  have hdurations : (∀ d ∈ c.durations, msToDur (durToMs d) = d) ↔
      ∀ d ∈ c.durations, millisecond ∣ d :=
    forall₂_congr fun d hd => msToDur_durToMs_iff (hc.durations d hd)
  rw [scopeConfig_setScopeConfig, hashToCfg_setScopeConfig m hc, ← hdurations,
    ← ScopeConfig.mapDurations_eq_iff]
  constructor
  · intro h
    have hbatch : c.maxClaimBatch = 0 := by rw [← h]
    refine ⟨hbatch, ?_⟩
    rw [← hbatch] at h
    exact h
  · rintro ⟨hbatch, hmap⟩
    rw [hmap, ← hbatch]

end CfgHash

/-! ## The policy of a failed attempt -/

/-- The limits a failed attempt is held against, delays in milliseconds. -/
structure AttemptPolicy where
  maxAttempts : Int
  baseMs : Int
  maxMs : Int
deriving DecidableEq, Repr

/-- The limits in `cfg`.  The delays pass `orDefault` and then the checks of
`backoffWindow`. -/
def Cfg.policy (cfg : Cfg) : AttemptPolicy :=
  let base := orDefault cfg.retryBaseMs defaultRetryBaseMs
  let maxDelay := orDefault cfg.retryMaxMs defaultRetryMaxMs
  { maxAttempts := orDefault cfg.maxAttempts defaultMaxAttempts
    baseMs := if base ≤ 0 then defaultRetryBaseMs else base
    maxMs := if maxDelay ≤ 0 then defaultRetryMaxMs else maxDelay }

/-- The node has no retry policy of its own. -/
structure NodeHash.Inherits (n : NodeHash) : Prop where
  maxAttempts : n.retryMaxAttempts ≤ 0
  base : n.retryBaseMs ≤ 0
  max : n.retryMaxMs ≤ 0

/-- `failAttempt` under the limits `p`. -/
def State.failUnder (p : AttemptPolicy) (s : State) (id : NodeID) (n : NodeHash)
    (reason : Reason) (msg : String) (nowMs : Int) : Prog (Bool × State) :=
  let s := (s.zremLeases id).modNode id fun n => { n with deadline := 0 }
  if p.maxAttempts ≤ n.attempt then do
    pure (false, ← s.terminate id .error reason msg nowMs)
  else do
    let attempt := if n.attempt = 0 then 1 else n.attempt
    let window := min (backoffLoop p.maxMs (attempt - 1) p.baseMs) p.maxMs
    let delay ← jitterMs window
    pure (true, s.retry id n reason msg nowMs delay)

/-- A node without a policy of its own is held against the limits in `cfg`. -/
theorem State.failAttempt_eq {s : State} {id : NodeID} {n : NodeHash} (hn : s.node id = some n)
    (hinherits : n.Inherits) (reason : Reason) (msg : String) (nowMs : Int) :
    s.failAttempt id reason msg nowMs = s.failUnder s.cfg.policy id n reason msg nowMs := by
  rw [failAttempt, hn]
  simp only [if_neg (not_lt.mpr hinherits.maxAttempts), if_neg (not_lt.mpr hinherits.base),
    if_neg (not_lt.mpr hinherits.max)]
  rfl

/-- The limits are those of a configuration, after `Resolved`. -/
structure AttemptPolicy.Follows (p : AttemptPolicy) (c : ScopeConfig) : Prop where
  maxAttempts : p.maxAttempts = c.resolved.maxAttempts
  base : p.baseMs * millisecond = c.resolved.retryBaseDelay
  max : p.maxMs * millisecond = c.resolved.retryMaxDelay

/-! ## Sequences of calls -/

/-- The calls that write the hash. -/
inductive ConfigCall
  | setScopeConfig (cfg : ScopeConfig)
  | sealScope
deriving DecidableEq

def ConfigCall.exec (m : CfgHash) : ConfigCall → CfgHash
  | .setScopeConfig cfg => m.setScopeConfig cfg
  | .sealScope => m.sealScope

/-- The hash of a new scope after the calls. -/
def CfgHash.after (calls : List ConfigCall) : CfgHash := calls.foldl ConfigCall.exec ∅

def lastSet (calls : List ConfigCall) : Option ScopeConfig :=
  calls.foldl (fun last call => match call with
    | .setScopeConfig cfg => some cfg
    | .sealScope => last) none

theorem mem_of_lastSet {calls : List ConfigCall} (h : lastSet calls = some c) :
    .setScopeConfig c ∈ calls := by
  induction calls using List.reverseRecOn with
  | nil => cases h
  | append_singleton calls call ih =>
    rw [lastSet, List.foldl_append] at h
    rw [List.mem_append, List.mem_singleton]
    cases call with
    | setScopeConfig cfg =>
      cases h
      exact .inr rfl
    | sealScope => exact .inl (ih h)

namespace CfgHash

variable {m : CfgHash} {f : CfgField}

theorem lookup_setScopeConfig (c : ScopeConfig) (hf : f ≠ .isSealed) :
    (m.setScopeConfig c).lookup f = ((∅ : CfgHash).setScopeConfig c).lookup f := by
  cases f <;>
    simp_all [setScopeConfig, hset, cfgToHash, AList.lookup_insert_ne, -AList.insert_empty]

theorem sealed_setScopeConfig (c : ScopeConfig) :
    (m.setScopeConfig c).lookup .isSealed = m.lookup .isSealed := by
  simp [setScopeConfig, hset, cfgToHash, AList.lookup_insert_ne]

/-- The hash holds what was set last, and whether the scope was sealed. -/
theorem lookup_after (calls : List ConfigCall) (f : CfgField) : (after calls).lookup f =
    if f = .isSealed then (if .sealScope ∈ calls then some 1 else none)
    else ((lastSet calls).elim ∅ (∅ : CfgHash).setScopeConfig).lookup f := by
  induction calls using List.reverseRecOn with
  | nil => split <;> simp [after, lastSet]
  | append_singleton calls call ih =>
    rw [after, List.foldl_append, ← after, lastSet, List.foldl_append, ← lastSet]
    cases call with
    | setScopeConfig c =>
      rw [List.foldl_cons, List.foldl_nil, ConfigCall.exec]
      by_cases hf : f = .isSealed
      · subst hf
        rw [sealed_setScopeConfig, ih]
        simp
      · rw [lookup_setScopeConfig c hf, if_neg hf]
        rfl
    | sealScope =>
      rw [List.foldl_cons, List.foldl_nil, ConfigCall.exec, sealScope, hset,
        List.foldl_cons, List.foldl_nil]
      by_cases hf : f = .isSealed
      · subst hf
        simp
      · rw [AList.lookup_insert_ne hf, ih, if_neg hf, if_neg hf]
        rfl

theorem hashToCfg_congr {m₁ m₂ : CfgHash} (h : ∀ f, f ≠ .isSealed → m₁.lookup f = m₂.lookup f) :
    m₁.hashToCfg = m₂.hashToCfg := by
  have hatoi : ∀ f, f ≠ .isSealed → m₁.atoi64 f = m₂.atoi64 f := by
    intro f hf
    rw [atoi64, h f hf, atoi64]
  simp only [hashToCfg, ne_eq, reduceCtorEq, not_false_eq_true, hatoi]

theorem entries_length_eq_zero_iff :
    m.entries.length = 0 ↔ ∀ f, m.lookup f = none := by
  simp only [AList.lookup_eq_none, AList.mem_keys, AList.keys, List.length_eq_zero_iff]
  constructor
  · intro h f
    rw [h]
    exact List.not_mem_nil
  · intro h
    exact List.eq_nil_iff_forall_not_mem.mpr fun e he => h e.1 (List.mem_map_of_mem he)

end CfgHash

/-! ## One source of truth -/

/-- A whole number of milliseconds, or nothing, is applied as `Resolved` says. -/
theorem applied_delay {d fallbackMs : Int} (hd : millisecond ∣ d) (hf : 0 < fallbackMs) :
    (if orDefault (some (durToMs d)) fallbackMs ≤ 0 then fallbackMs
      else orDefault (some (durToMs d)) fallbackMs) * millisecond =
      DagWorker.orDefault d (fallbackMs * millisecond) := by
  obtain ⟨ms, rfl⟩ := hd
  have hms : durToMs (millisecond * ms) = ms := Int.mul_tdiv_cancel_left ms (by decide)
  simp only [hms]
  simp only [orDefault, DagWorker.orDefault, millisecond]
  split_ifs <;> omega

/-- The policy follows a configuration that was set without losing a duration. -/
theorem policy_follows {m : CfgHash}
    (hm : ∀ f, f ≠ .isSealed → m.lookup f = ((∅ : CfgHash).setScopeConfig c).lookup f)
    (hd : ∀ d ∈ c.durations, millisecond ∣ d) : m.fields.policy.Follows c := by
  have hattempts : m.fields.maxAttempts = some (c.maxAttempts : Int) := by
    apply (hm .maxAttempts (by decide)).trans
    simp [CfgHash.setScopeConfig, CfgHash.hset, cfgToHash]
  have hbase : m.fields.retryBaseMs = some (durToMs c.retryBaseDelay) := by
    apply (hm .retryBaseMs (by decide)).trans
    simp [CfgHash.setScopeConfig, CfgHash.hset, cfgToHash]
  have hmax : m.fields.retryMaxMs = some (durToMs c.retryMaxDelay) := by
    apply (hm .retryMaxMs (by decide)).trans
    simp [CfgHash.setScopeConfig, CfgHash.hset, cfgToHash]
  constructor
  · simp only [Cfg.policy, hattempts, orDefault, ScopeConfig.resolved]
    split_ifs <;> simp_all [defaultMaxAttempts, Default.maxAttempts]
  · simp only [Cfg.policy, hbase]
    exact applied_delay (hd _ (by simp [ScopeConfig.durations])) (by decide)
  · simp only [Cfg.policy, hmax]
    exact applied_delay (hd _ (by simp [ScopeConfig.durations])) (by decide)

/-- The defaults of the scripts are those of a configuration that leaves them open. -/
def ScriptDefaults (c : ScopeConfig) : Prop :=
  (c.maxAttempts = 0 ∨ c.maxAttempts = Default.maxAttempts) ∧
    (c.retryBaseDelay ≤ 0 ∨ c.retryBaseDelay = Default.retryBaseDelay) ∧
    (c.retryMaxDelay ≤ 0 ∨ c.retryMaxDelay = Default.retryMaxDelay)

theorem policy_follows_iff {m : CfgHash} (hm : ∀ f, f ≠ .isSealed → m.lookup f = none)
    (c : ScopeConfig) : m.fields.policy.Follows c ↔ ScriptDefaults c := by
  have hattempts : m.fields.maxAttempts = none := hm .maxAttempts (by decide)
  have hbase : m.fields.retryBaseMs = none := hm .retryBaseMs (by decide)
  have hmax : m.fields.retryMaxMs = none := hm .retryMaxMs (by decide)
  have hpolicy : m.fields.policy = ⟨3, 1000, 300000⟩ := by
    rw [Cfg.policy, hattempts, hbase, hmax]
    rfl
  have horDefault : ∀ d fallback : Int,
      fallback = DagWorker.orDefault d fallback ↔ d ≤ 0 ∨ d = fallback := by
    intro d fallback
    rw [DagWorker.orDefault]
    split_ifs <;> omega
  rw [hpolicy, ScriptDefaults, ← horDefault, ← horDefault]
  constructor
  · rintro ⟨h₁, h₂, h₃⟩
    refine ⟨?_, h₂, h₃⟩
    simp only [ScopeConfig.resolved] at h₁
    split_ifs at h₁ with h
    · exact .inl h
    · exact .inr (Int.natCast_inj.mp h₁.symm)
  · rintro ⟨h₁, h₂, h₃⟩
    refine ⟨?_, h₂, h₃⟩
    rcases h₁ with h₁ | h₁ <;> simp [ScopeConfig.resolved, h₁, Default.maxAttempts]

/-- The hash keeps the configuration that was set last; or none was set, and the defaults
of the store are what a sealed hash reads as, or have the limits of the scripts. -/
def SingleSource (defaults : ScopeConfig) (calls : List ConfigCall) : Prop :=
  match lastSet calls with
  | some c => c.maxClaimBatch = 0 ∧ ∀ d ∈ c.durations, millisecond ∣ d
  | none =>
    if .sealScope ∈ calls then defaults = {}
    else ScriptDefaults defaults

/-- `ScopeConfig` reports, and the scripts apply, what was set last or the defaults, exactly
under `SingleSource`. -/
theorem oneSource_iff (defaults : ScopeConfig) (calls : List ConfigCall)
    (htyped : ∀ c, .setScopeConfig c ∈ calls → c.Typed) :
    (∀ (s : State) id n reason msg nowMs, s.cfg = (CfgHash.after calls).fields →
      s.node id = some n → n.Inherits → s.failAttempt id reason msg nowMs =
        s.failUnder (CfgHash.after calls).fields.policy id n reason msg nowMs) ∧
    ((CfgHash.after calls).scopeConfig defaults = (lastSet calls).getD defaults ∧
      (CfgHash.after calls).fields.policy.Follows ((lastSet calls).getD defaults) ↔
        SingleSource defaults calls) := by
  constructor
  · intro s id n reason msg nowMs hcfg hn hinherits
    rw [State.failAttempt_eq hn hinherits, hcfg]
  have hlookup := CfgHash.lookup_after calls
  rw [SingleSource]
  cases hlast : lastSet calls with
  | some c =>
    rw [hlast] at hlookup
    have hfields : ∀ f, f ≠ .isSealed → (CfgHash.after calls).lookup f =
        ((∅ : CfgHash).setScopeConfig c).lookup f := by
      intro f hf
      rw [hlookup, if_neg hf]
      rfl
    have hconfig : (CfgHash.after calls).scopeConfig defaults =
        ((∅ : CfgHash).setScopeConfig c).scopeConfig defaults := by
      rw [CfgHash.scopeConfig_setScopeConfig, ← CfgHash.hashToCfg_congr hfields]
      apply if_neg
      rw [CfgHash.entries_length_eq_zero_iff]
      intro h
      have hsome := (hfields .maxAttempts (by decide)).symm.trans (h .maxAttempts)
      simp [CfgHash.setScopeConfig, CfgHash.hset, cfgToHash, AList.lookup_insert_ne] at hsome
    rw [hconfig, Option.getD_some,
      CfgHash.scopeConfig_eq_iff defaults ∅ (htyped c (mem_of_lastSet hlast))]
    exact and_iff_left_of_imp fun h => policy_follows hfields h.2
  | none =>
    rw [hlast] at hlookup
    have hfields : ∀ f, f ≠ .isSealed → (CfgHash.after calls).lookup f = none := by
      intro f hf
      rw [hlookup, if_neg hf]
      rfl
    rw [Option.getD_none, policy_follows_iff hfields]
    by_cases hsealed : .sealScope ∈ calls
    · have hhash : (CfgHash.after calls).hashToCfg = (∅ : CfgHash).hashToCfg :=
        CfgHash.hashToCfg_congr hfields
      have hconfig : (CfgHash.after calls).scopeConfig defaults = {} := by
        rw [CfgHash.scopeConfig, if_neg, hhash]
        · rfl
        rw [CfgHash.entries_length_eq_zero_iff]
        intro h
        have hnone := (hlookup .isSealed).symm.trans (h .isSealed)
        simp [hsealed] at hnone
      simp only [if_pos hsealed, hconfig]
      constructor
      · exact fun h => h.1.symm
      · rintro rfl
        exact ⟨rfl, .inl rfl, .inl le_rfl, .inl le_rfl⟩
    · have hconfig : (CfgHash.after calls).scopeConfig defaults = defaults := by
        apply if_pos
        rw [CfgHash.entries_length_eq_zero_iff]
        intro f
        by_cases hf : f = .isSealed
        · rw [hlookup, if_pos hf, if_neg hsealed]
        · exact hfields f hf
      simp only [if_neg hsealed, hconfig, true_and]

/-- Five attempts, two seconds apart at first. -/
def fiveAttempts : ScopeConfig := { maxAttempts := 5, retryBaseDelay := 2 * second }

/-- A policy set on a sealed scope is reported and applied. -/
theorem fiveAttempts_set :
    (∀ c, .setScopeConfig c ∈ [ConfigCall.sealScope, .setScopeConfig fiveAttempts] → c.Typed) ∧
    SingleSource {} [.sealScope, .setScopeConfig fiveAttempts] ∧
    (CfgHash.after [.sealScope, .setScopeConfig fiveAttempts]).scopeConfig {} = fiveAttempts ∧
    (CfgHash.after [.sealScope, .setScopeConfig fiveAttempts]).fields.policy.Follows
      fiveAttempts := by
  have htyped : ∀ c, .setScopeConfig c ∈ [ConfigCall.sealScope, .setScopeConfig fiveAttempts] →
      c.Typed := by
    intro c hc
    have hc : c = fiveAttempts := by simpa using hc
    subst hc
    constructor <;> decide
  have hsource : SingleSource {} [.sealScope, .setScopeConfig fiveAttempts] :=
    ⟨rfl, by decide⟩
  exact ⟨htyped, hsource, (oneSource_iff {} _ htyped).2.mpr hsource⟩

/-- As defaults of the store the same policy is reported, but the scripts allow three
attempts; once the scope is sealed it is not reported either. -/
theorem fiveAttempts_default :
    (∀ d ∈ fiveAttempts.durations, millisecond ∣ d) ∧
    (CfgHash.after []).scopeConfig fiveAttempts = fiveAttempts ∧
    (CfgHash.after []).fields.policy.maxAttempts = 3 ∧ fiveAttempts.resolved.maxAttempts = 5 ∧
    (CfgHash.after [.sealScope]).scopeConfig fiveAttempts = {} := by
  decide

end DagWorker.Redis
