import DagWorker.Core.Policy

/-!
# Configurations on the wire

A configuration travels with its durations as text, the empty text standing for an unset
one.  Reading it back reports the first field that does not parse.
-/

namespace DagWorker.Http

structure ScopeConfigWire where
  defaultLeaseTimeout : String
  minLeaseTimeout : String
  maxLeaseTimeout : String
  maxAttempts : ℕ
  retryBaseDelay : String
  retryMaxDelay : String
  terminalRetention : String
  maxSubscriberLag : String
  maxInFlight : ℕ
  payloadCap : Int
  maxBatchSize : Int
  sweepBatchSize : Int
  sweepInterval : String
  partitionCount : ℕ
deriving DecidableEq, Repr

def formatDuration (d : Int) : String := if d ≤ 0 then "" else durationString d

def scopeConfigToWire (c : ScopeConfig) : ScopeConfigWire :=
  { defaultLeaseTimeout := formatDuration c.defaultLeaseTimeout
    minLeaseTimeout := formatDuration c.minLeaseTimeout
    maxLeaseTimeout := formatDuration c.maxLeaseTimeout
    maxAttempts := c.maxAttempts
    retryBaseDelay := formatDuration c.retryBaseDelay
    retryMaxDelay := formatDuration c.retryMaxDelay
    terminalRetention := formatDuration c.terminalRetention
    maxSubscriberLag := formatDuration c.maxSubscriberLag
    maxInFlight := c.maxInFlight
    payloadCap := c.payloadCap
    maxBatchSize := c.maxBatchSize
    sweepBatchSize := c.sweepBatchSize
    sweepInterval := formatDuration c.sweepInterval
    partitionCount := c.partitionCount }

section Parsing

-- `time.ParseDuration`, with the text of its error
variable (parse : String → Except String Int)

def parseDuration (s : String) : Except String Int := if s = "" then .ok 0 else parse s

/-- One duration of a message; an error names its field. -/
def durationField (field s : String) : Except Err Int :=
  match parseDuration parse s with
  | .ok d => .ok d
  | .error err => .error (.wrapped .invalidArgument (field ++ ": " ++ err))

def ScopeConfigWire.toDomain (w : ScopeConfigWire) : Except Err ScopeConfig := do
  let defaultLeaseTimeout ← durationField parse "default_lease_timeout" w.defaultLeaseTimeout
  let minLeaseTimeout ← durationField parse "min_lease_timeout" w.minLeaseTimeout
  let maxLeaseTimeout ← durationField parse "max_lease_timeout" w.maxLeaseTimeout
  let retryBaseDelay ← durationField parse "retry_base_delay" w.retryBaseDelay
  let retryMaxDelay ← durationField parse "retry_max_delay" w.retryMaxDelay
  let terminalRetention ← durationField parse "terminal_retention" w.terminalRetention
  let maxSubscriberLag ← durationField parse "max_subscriber_lag" w.maxSubscriberLag
  let sweepInterval ← durationField parse "sweep_interval" w.sweepInterval
  pure
    { defaultLeaseTimeout := defaultLeaseTimeout
      minLeaseTimeout := minLeaseTimeout
      maxLeaseTimeout := maxLeaseTimeout
      maxAttempts := w.maxAttempts
      retryBaseDelay := retryBaseDelay
      retryMaxDelay := retryMaxDelay
      terminalRetention := terminalRetention
      maxSubscriberLag := maxSubscriberLag
      maxInFlight := w.maxInFlight
      payloadCap := w.payloadCap
      maxBatchSize := w.maxBatchSize
      sweepBatchSize := w.sweepBatchSize
      sweepInterval := sweepInterval
      partitionCount := w.partitionCount }

end Parsing

/-! ## There and back -/

variable {parse : String → Except String Int}

theorem durationString_ne_empty (d : Int) : durationString d ≠ "" := by
  simp only [durationString]
  split_ifs <;> simp [String.append_eq_empty_iff]

theorem durationField_formatDuration {d : Int} (hd : 0 ≤ d)
    (hparse : 0 < d → parse (durationString d) = .ok d) (field : String) :
    durationField parse field (formatDuration d) = .ok d := by
  by_cases hpos : 0 < d
  · have hformat : formatDuration d = durationString d := if_neg (by omega)
    rw [durationField, parseDuration, hformat, if_neg (durationString_ne_empty d), hparse hpos]
  · obtain rfl : d = 0 := by omega
    rfl

/-- A configuration comes back without its `MaxClaimBatch`, which has no field on the wire. -/
theorem toDomain_scopeConfigToWire {c : ScopeConfig} (hd : ∀ d ∈ c.durations, 0 ≤ d)
    (hparse : ∀ d ∈ c.durations, 0 < d → parse (durationString d) = .ok d) :
    (scopeConfigToWire c).toDomain parse = .ok { c with maxClaimBatch := 0 } := by
  have hfield : ∀ d ∈ c.durations, ∀ field,
      durationField parse field (formatDuration d) = .ok d :=
    fun d hmem field => durationField_formatDuration (hd d hmem) (hparse d hmem) field
  simp only [ScopeConfig.durations, List.forall_mem_cons] at hfield
  obtain ⟨h₁, h₂, h₃, h₄, h₅, h₆, h₇, h₈, -⟩ := hfield
  simp only [ScopeConfigWire.toDomain, scopeConfigToWire, h₁, h₂, h₃, h₄, h₅, h₆, h₇, h₈]
  rfl

end DagWorker.Http
