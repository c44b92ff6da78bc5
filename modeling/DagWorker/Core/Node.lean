import DagWorker.Core.Config

/-!
# Nodes, requests, results and errors

The value types that cross the storage port, and the validation of a node specification.
Times are Unix nanoseconds, zero standing for the zero `time.Time`; Go strings are Lean
strings, so that the UTF-8 checks of the source, which reject nothing here, are left out.
-/

namespace DagWorker

abbrev Bytes := List UInt8

abbrev Labels := GoMap String String

/-- `maps.Equal`: the same keys with the same values, in whatever order. -/
def Labels.equal (a b : Labels) : Bool :=
  a.entries.length = b.entries.length &&
    a.entries.all fun e => b.lookup e.1 = some e.2

theorem Labels.equal_self (a : Labels) : a.equal a = true := by
  rw [equal, decide_eq_true rfl, Bool.true_and, List.all_eq_true]
  exact fun e he => decide_eq_true (AList.mem_lookup_iff.mpr he)

/-! ## Errors -/

/-- The sentinel errors of the public taxonomy that a store returns. -/
inductive Sentinel
  | notFound
  | idConflict
  | cycle
  | alreadyTerminal
  | nodeInFlight
  | hasSuccessors
  | leaseMismatch
  | scopeSealed
  | closed
  | payloadTooLarge
  | cursorExpired
  | invalidArgument
  | unsupported
deriving DecidableEq, Repr

inductive Err
  /-- A sentinel returned as it is. -/
  | bare (s : Sentinel)
  /-- A sentinel wrapped with a text, `fmt.Errorf("%w: ...", s, ...)`. -/
  | wrapped (s : Sentinel) (text : String)
  /-- `InvalidArgumentError`. -/
  | invalidArg (field detail : String)
  /-- `PayloadTooLargeError`. -/
  | payloadTooLarge (size : ℕ) (cap : Int)
  /-- `CycleError`: the rejected edge and the existing route closing it. -/
  | cycle (scope : String) (fromID toID : NodeID) (path : List NodeID)
deriving DecidableEq, Repr

/-- The sentinel an error unwraps to. -/
def Err.sentinel : Err → Sentinel
  | .bare s => s
  | .wrapped s _ => s
  | .invalidArg _ _ => .invalidArgument
  | .payloadTooLarge _ _ => .payloadTooLarge
  | .cycle _ _ _ _ => .cycle

/-! ## Durations as text -/

/-- The decimal fraction `v / 10 ^ digits` without trailing zeros, `fmtFrac`. -/
def fmtFrac (v digits : ℕ) : String :=
  let frac := (toString (v % 10 ^ digits + 10 ^ digits)).toList.drop 1
  let frac := (frac.reverse.dropWhile (· = '0')).reverse
  toString (v / 10 ^ digits) ++
    if frac.isEmpty then "" else "." ++ String.ofList frac

def durationString (d : Int) : String :=
  let u := d.natAbs
  let sign := if d < 0 then "-" else ""
  if u = 0 then "0s"
  else if u < 1000 then sign ++ toString u ++ "ns"
  else if u < 1000000 then sign ++ fmtFrac u 3 ++ "µs"
  else if u < 1000000000 then sign ++ fmtFrac u 6 ++ "ms"
  else
    let seconds := fmtFrac (u % 60000000000) 9 ++ "s"
    let minutes := u / 60000000000
    if minutes = 0 then sign ++ seconds
    else if minutes < 60 then sign ++ toString minutes ++ "m" ++ seconds
    else sign ++ toString (minutes / 60) ++ "h" ++ toString (minutes % 60) ++ "m" ++ seconds

/-! ## Specifications -/

structure NodeSpec where
  id : NodeID
  kind : String := ""
  payload : Bytes := []
  labels : Labels := ∅
  priority : Int := 0
  trigger : TriggerRule := .allSuccess
  retry : RetryPolicy := {}
  deps : List NodeID := []

def maxNodeIDLen : ℕ := 255
def maxKindLen : ℕ := 64
def maxLabelKeyLen : ℕ := 64
def maxLabelValueLen : ℕ := 256
def maxLabels : ℕ := 32

/-- Length check of an identifier-like field. -/
def checkLen (field s : String) (limit : ℕ) : Except Err Unit :=
  if limit < s.utf8ByteSize then
    .error (.invalidArg field
      ("is " ++ toString s.utf8ByteSize ++ " bytes, limit is " ++ toString limit))
  else .ok ()

def maxScopeLen : ℕ := 255

def validateScope (s : String) : Except Err Unit :=
  if s.utf8ByteSize = 0 then .error (.invalidArg "scope" "must not be empty")
  else checkLen "scope" s maxScopeLen

def validateNodeID (n : NodeID) : Except Err Unit :=
  if n.utf8ByteSize = 0 then .error (.invalidArg "node id" "must not be empty")
  else checkLen "node id" n maxNodeIDLen

def validateKind (kind : String) : Except Err Unit :=
  checkLen "kind" kind maxKindLen

/-- One label of `validateLabels`. -/
def validateLabel (k v : String) : Except Err Unit :=
  if k.utf8ByteSize = 0 then .error (.invalidArg "label key" "must not be empty")
  else if maxLabelKeyLen < k.utf8ByteSize then
    .error (.invalidArg "label key"
      (k.quote ++ " is " ++ toString k.utf8ByteSize ++ " bytes, limit is " ++
        toString maxLabelKeyLen))
  else if maxLabelValueLen < v.utf8ByteSize then
    .error (.invalidArg "label value"
      ("for " ++ k.quote ++ " is " ++ toString v.utf8ByteSize ++ " bytes, limit is " ++
        toString maxLabelValueLen))
  else .ok ()

/-- `validateLabels`, which ranges over the map in the order of its entries;
another order changes which offending label an error names. -/
def validateLabels (labels : Labels) : Except Err Unit :=
  if maxLabels < labels.entries.length then
    .error (.invalidArg "labels"
      ("has " ++ toString labels.entries.length ++ " entries, limit is " ++
        toString maxLabels))
  else labels.entries.forM fun e => validateLabel e.1 e.2

def TriggerRule.validate : TriggerRule → Except Err Unit
  | .unknown v => .error (.invalidArg "trigger rule" ("unknown value " ++ toString v))
  | _ => .ok ()

def RetryPolicy.validate (r : RetryPolicy) : Except Err Unit :=
  if r.baseDelay < 0 then .error (.invalidArg "retry base delay" "must not be negative")
  else if r.maxDelay < 0 then .error (.invalidArg "retry max delay" "must not be negative")
  else if 0 < r.baseDelay ∧ 0 < r.maxDelay ∧ r.maxDelay < r.baseDelay then
    .error (.invalidArg "retry policy"
      ("base delay " ++ durationString r.baseDelay ++ " exceeds max delay " ++
        durationString r.maxDelay))
  else .ok ()

/-- The dependency loop of `NodeSpec.Validate`. -/
def validateDeps (id : NodeID) : List NodeID → List NodeID → Except Err Unit
  | [], _ => .ok ()
  | d :: ds, seen => do
    validateNodeID d
    if d = id then
      throw (.invalidArg "deps" ("node " ++ id.quote ++ " depends on itself"))
    if d ∈ seen then
      throw (.invalidArg "deps" ("duplicate dependency " ++ d.quote))
    validateDeps id ds (d :: seen)

def NodeSpec.validate (s : NodeSpec) : Except Err Unit := do
  validateNodeID s.id
  validateKind s.kind
  validateLabels s.labels
  s.trigger.validate
  s.retry.validate
  validateDeps s.id s.deps []

/-! ## Snapshots, effects and events -/

/-- A snapshot of one work item. -/
structure Node where
  scope : String := ""
  id : NodeID := ""
  kind : String := ""
  status : Status := .new
  reason : Reason := .none
  message : String := ""
  attempt : ℕ := 0
  priority : Int := 0
  trigger : TriggerRule := .allSuccess
  retry : RetryPolicy := {}
  payload : Bytes := []
  labels : Labels := ∅
  seq : ℕ := 0
  createdAt : Int := 0
  updatedAt : Int := 0

/-- One observable state change a store made. -/
structure Effect where
  nodeID : NodeID
  kind : EventKind
  fromStatus : Status
  toStatus : Status
  reason : Reason
  message : String
  attempt : ℕ
  nodeKind : String
  seq : ℕ
  cursor : ℕ
  time : Int
deriving DecidableEq, Repr

/-- One entry of a scope's event log. -/
structure Event where
  scope : String
  effect : Effect
deriving DecidableEq, Repr

/-- Where a stream of events begins: after a cursor, at the oldest retained event, or
from now. -/
structure WatchRequest where
  scope : String
  fromCursor : ℕ := 0
  replay : Bool := false

/-- A directed dependency: `toID` must not run until `fromID` resolves. -/
structure Edge where
  fromID : NodeID
  toID : NodeID
deriving DecidableEq, Repr

/-! ## The lease protocol -/

/-- A fenced grant of the right to complete a node. -/
structure Lease where
  scope : String
  nodeID : NodeID
  epoch : ℕ
  deadline : Int := 0
  node : Node := {}
  token : Bytes := []

/-- A lease that looks like one this library issued. -/
def Lease.valid (l : Lease) : Bool :=
  l.scope ≠ "" && l.nodeID ≠ "" && decide (0 < l.epoch)

structure ClaimRequest where
  scope : String
  kinds : List String := []
  max : Int := 1
  timeout : Int := 0
  workerID : String := ""
deriving DecidableEq, Repr

structure ClaimResult where
  leases : List Lease := []
  effects : List Effect := []

structure CompleteRequest where
  lease : Lease
  success : Bool
  reason : Reason := .none
  message : String := ""
  result : Bytes := []

structure CompleteResult where
  effects : List Effect := []
  retrying : Bool := false
  nextAttemptAt : Int := 0
deriving DecidableEq, Repr

structure ExtendRequest where
  lease : Lease
  timeout : Int := 0

structure SweepResult where
  reclaimed : ℕ := 0
  effects : List Effect := []
  more : Bool := false
deriving DecidableEq, Repr

/-! ## Statistics -/

/-- The incremental summary of a scope.  The counters are `uint64` in the
source; as integers an underflow would show. -/
structure ScopeStats where
  total : Int := 0
  blocked : Int := 0
  scheduled : Int := 0
  ready : Int := 0
  inProgress : Int := 0
  succeeded : Int := 0
  failed : Int := 0
  isSealed : Bool := false
  complete : Bool := false
deriving DecidableEq, Repr

/-- Nodes that have not reached a final status. -/
def ScopeStats.nonTerminal (s : ScopeStats) : Int :=
  s.blocked + s.scheduled + s.ready + s.inProgress

end DagWorker
