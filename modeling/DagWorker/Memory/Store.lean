import DagWorker.Memory.Snapshot
import DagWorker.Support.Trace

/-!
# The in-memory store and its runs

Each operation of the storage port is atomic on one scope: it finds or creates the scope,
works under its lock, and puts it back.  `Op` lists every operation that can change a store,
and `Run` is a sequence of them with the result each one returned.
-/

namespace DagWorker.Memory

open Function

/-- The default retained event count. -/
def defaultEventLogSize : ℕ := 4096

structure Store where
  scopes : GoMap String Scope := ∅
  defaults : ScopeConfig := {}
  logCap : ℕ := defaultEventLogSize
  closed : Bool := false

namespace Store

def new (defaults : ScopeConfig) (logCap : ℕ) : Store :=
  { defaults := defaults, logCap := if logCap = 0 then defaultEventLogSize else logCap }

variable {α : Type} (st : Store) (name : String)

def setScope (s : Scope) : Store :=
  { st with scopes := st.scopes.insert name s }

/-- Work on an existing scope, put back afterwards. -/
def onScope (s : Scope) (f : Scope → Prog (α × Scope)) : Prog (α × Store) := do
  let (a, s) ← f s
  pure (a, st.setScope name s)

/-- `scopeFor(name, true)`: the named scope, created if it does not exist. -/
def creating (fail : Err → α) (f : Scope → Prog (α × Scope)) : Prog (α × Store) :=
  if st.closed then pure (fail (.bare .closed), st)
  else match st.scopes.lookup name with
    | some s => st.onScope name s f
    | none => st.onScope name (Scope.newScope name st.defaults st.logCap) f

/-- `mustScope`: the named scope, or `ErrNotFound`. -/
def existing (fail : Err → α) (f : Scope → Prog (α × Scope)) : Prog (α × Store) :=
  if st.closed then pure (fail (.bare .closed), st)
  else match st.scopes.lookup name with
    | some s => st.onScope name s f
    | none => pure (fail (.bare .notFound), st)

/-- `scopeFor(name, false)` where an absent scope has an ordinary answer. -/
def optional (fail : Err → α) (absent : α) (f : Scope → Prog (α × Scope)) : Prog (α × Store) :=
  if st.closed then pure (fail (.bare .closed), st)
  else match st.scopes.lookup name with
    | some s => st.onScope name s f
    | none => pure (absent, st)

/-! ## Operations of the storage port -/

def setScopeConfig (cfg : ScopeConfig) : Prog (Except Err Unit × Store) :=
  st.creating name .error fun s => pure (.ok (), { s with cfg := cfg })

def sealScope : Prog (Except Err Unit × Store) :=
  st.creating name .error fun s =>
    pure (.ok (), { s with
      isSealed := true
      stats := { s.stats with
        isSealed := true
        complete := decide (s.stats.nonTerminal = 0) } })

/-- The scope creation of `Watch` and `WaitForWork`. -/
def openScope : Prog (Except Err Unit × Store) :=
  st.creating name .error fun s => pure (.ok (), s)

def failed (e : Err) : Scope.EffectsResult := { err := some e }

def addNodes (specs : List NodeSpec) : Prog (Scope.EffectsResult × Store) :=
  if specs.isEmpty then pure ({}, st)
  else st.creating name failed fun s => s.addNodes specs

def addEdges (edges : List Edge) : Prog (Scope.EffectsResult × Store) :=
  if edges.isEmpty then pure ({}, st)
  else st.existing name failed fun s => s.addEdges edges

def removeEdges (edges : List Edge) : Prog (Scope.EffectsResult × Store) :=
  if edges.isEmpty then pure ({}, st)
  else st.existing name failed fun s => s.removeEdges edges

def removeNode (id : NodeID) (policy : CascadePolicy) : Prog (Scope.EffectsResult × Store) :=
  st.existing name failed fun s => s.removeNode id policy

def cancel (ids : List NodeID) : Prog (Scope.EffectsResult × Store) :=
  if ids.isEmpty then pure ({}, st)
  else st.existing name failed fun s => s.cancel ids

def cancelScope : Prog (Scope.EffectsResult × Store) :=
  st.optional name failed {} fun s => s.cancelScope

def claim (req : ClaimRequest) : Prog (Except Err ClaimResult × Store) :=
  st.optional req.scope .error (.ok {}) fun s => do
    let (res, s) ← s.claim req
    pure (.ok res, s)

def malformedLease : Err := .wrapped .invalidArgument "lease is not well formed"

def complete (req : CompleteRequest) : Prog (Except Err CompleteResult × Store) :=
  if req.lease.valid = false then pure (.error malformedLease, st)
  else st.existing req.lease.scope .error fun s => s.complete req

def extend (req : ExtendRequest) : Prog (Except Err Int × Store) :=
  if req.lease.valid = false then pure (.error malformedLease, st)
  else st.existing req.lease.scope .error fun s => s.extend req

def sweep (limit : Int) : Prog (Except Err SweepResult × Store) :=
  st.optional name .error (.ok {}) fun s => do
    let (res, s) ← s.sweep limit
    pure (.ok res, s)

def collectTerminal (cutoff : Int) (limit : Int) : Prog (Except Err (ℕ × Bool) × Store) :=
  st.optional name .error (.ok (0, false)) fun s => do
    let (res, s) ← s.collectTerminal cutoff limit
    pure (.ok res, s)

/-! ## Snapshot and Restore -/

/-- The store's state, its scopes in name order. -/
def snapshot : List ScopeSnapshot :=
  (st.scopes.keys.insertionSort (· ≤ ·)).filterMap fun name =>
    (st.scopes.lookup name).map Scope.snapshotScope

/-- The loop of `Restore`. -/
def restoreScopes (logCap : ℕ) : List ScopeSnapshot → Store → Except Err Store
  | [], st => .ok st
  | ss :: rest, st =>
    if ss.name = "" then
      .error (.wrapped .invalidArgument "snapshot contains a scope with no name")
    else do
      let s ← Scope.restoreScope ss logCap
      restoreScopes logCap rest (st.setScope ss.name s)

def restore (snap : List ScopeSnapshot) (defaults : ScopeConfig) (logCap : ℕ) : Except Err Store :=
  let st := new defaults logCap
  restoreScopes st.logCap snap st

end Store

/-! ## Runs -/

/-- The operations that can change a store.  `restore` replaces it by one built
from its own snapshot. -/
inductive Op
  | setScopeConfig (name : String) (cfg : ScopeConfig)
  | sealScope (name : String)
  | openScope (name : String)
  | addNodes (name : String) (specs : List NodeSpec)
  | addEdges (name : String) (edges : List Edge)
  | removeEdges (name : String) (edges : List Edge)
  | removeNode (name : String) (id : NodeID) (policy : CascadePolicy)
  | cancel (name : String) (ids : List NodeID)
  | cancelScope (name : String)
  | claim (req : ClaimRequest)
  | complete (req : CompleteRequest)
  | extend (req : ExtendRequest)
  | sweep (name : String) (limit : Int)
  | collectTerminal (name : String) (cutoff : Int) (limit : Int)
  | restore (defaults : ScopeConfig) (logCap : ℕ)
  | close

/-- What an operation returned. -/
inductive Out
  | unit (r : Except Err Unit)
  | effects (r : Scope.EffectsResult)
  | claim (r : Except Err ClaimResult)
  | complete (r : Except Err CompleteResult)
  | extend (r : Except Err Int)
  | sweep (r : Except Err SweepResult)
  | collect (r : Except Err (ℕ × Bool))

def errOf {α : Type} : Except Err α → Option Err
  | .error e => some e
  | .ok _ => none

def Out.err : Out → Option Err
  | .unit r => errOf r
  | .effects r => r.err
  | .claim r => errOf r
  | .complete r => errOf r
  | .extend r => errOf r
  | .sweep r => errOf r
  | .collect r => errOf r

def Out.leases : Out → List Lease
  | .claim (.ok res) => res.leases
  | _ => []

namespace Op

/-- Pair the result of an operation with the store it leaves. -/
def outcome {α : Type} (f : α → Out) (p : Prog (α × Store)) : Prog (Out × Store) := do
  let (a, st) ← p
  pure (f a, st)

def exec (st : Store) : Op → Prog (Out × Store)
  | .setScopeConfig name cfg => outcome .unit (st.setScopeConfig name cfg)
  | .sealScope name => outcome .unit (st.sealScope name)
  | .openScope name => outcome .unit (st.openScope name)
  | .addNodes name specs => outcome .effects (st.addNodes name specs)
  | .addEdges name edges => outcome .effects (st.addEdges name edges)
  | .removeEdges name edges => outcome .effects (st.removeEdges name edges)
  | .removeNode name id policy => outcome .effects (st.removeNode name id policy)
  | .cancel name ids => outcome .effects (st.cancel name ids)
  | .cancelScope name => outcome .effects (st.cancelScope name)
  | .claim req => outcome .claim (st.claim req)
  | .complete req => outcome .complete (st.complete req)
  | .extend req => outcome .extend (st.extend req)
  | .sweep name limit => outcome .sweep (st.sweep name limit)
  | .collectTerminal name cutoff limit =>
    outcome .collect (st.collectTerminal name cutoff limit)
  | .restore defaults logCap =>
    match Store.restore st.snapshot defaults logCap with
    | .ok st' => pure (.unit (.ok ()), st')
    | .error e => pure (.unit (.error e), st)
  | .close => pure (.unit (.ok ()), { st with closed := true })

end Op

/-- Taking one call after another. -/
abbrev exec (st : Store) (op : Op) : Prog (Out × Store) := op.exec st

abbrev StepRecord := Trace.Step Store Op Out

/-- A run from `st`. -/
abbrev Run (st : Store) (steps : List StepRecord) (st' : Store) : Prop :=
  Trace.Run exec st steps st'

abbrev Call := Trace.Call Op

def Reachable (st : Store) : Prop :=
  ∃ defaults logCap steps, Run (Store.new defaults logCap) steps st

end DagWorker.Memory
