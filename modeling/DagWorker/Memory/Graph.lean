import DagWorker.Memory.Topo

/-!
# Graph operations of a scope

`AddNodes`, `AddEdges`, `RemoveEdges`, `RemoveNode`, `Cancel` and `CancelScope`
under the scope lock.  A batch that fails after it has begun to write is undone
from its journal: structure is restored, ranks are not.
-/

namespace DagWorker.Memory

open Function

/-- What a batch mutated, in the order it did. -/
structure Journal where
  created : List ℕ := []
  edges : List (ℕ × ℕ) := []

def addOnce (items : List ℕ) (h : ℕ) : List ℕ :=
  if h ∈ items then items else items ++ [h]

namespace Scope

/-! ## Undoing a batch -/

def unlinkEdges : List (ℕ × ℕ) → Scope → Scope
  | [], s => s
  | (u, v) :: es, s => unlinkEdges es (s.unlinkEdge u v).1

variable (s : Scope)

@[simps -fullyApplied]
def eraseIndex (id : NodeID) : Scope := { s with index := s.index.erase id }

/-- Take a node out of the statistics and the index, and free its slot. -/
def deleteNode (id : NodeID) (h : ℕ) : Scope :=
  let s := s.leaveBucket h
  let s := s.addTotal (-1)
  let s := s.eraseIndex id
  s.release h

def deleteNodes : List ℕ → Scope → Scope
  | [], s => s
  | h :: hs, s => deleteNodes hs (s.deleteNode (s.recs h).id h)

def rollback (j : Journal) : Scope :=
  deleteNodes j.created.reverse (unlinkEdges j.edges.reverse s)

/-! ## Building a batch -/

@[simps -fullyApplied]
def insertIndex (id : NodeID) (h : ℕ) : Scope :=
  { s with index := s.index.insert id h }

/-- `s.nextOrd++` and `s.ord[h] = s.nextOrd`. -/
@[simps -fullyApplied]
def stampOrd (h : ℕ) : Scope :=
  { s with nextOrd := s.nextOrd + 1, ord := update s.ord h (s.nextOrd + 1) }

/-- Materialise a node in the blocked phase. -/
def create (spec : NodeSpec) (now : Int) : ℕ × Scope :=
  let (h, s) := s.alloc
  let s := s.modRec h fun r =>
    { r with
      id := spec.id
      kind := spec.kind
      priority := spec.priority
      trigger := spec.trigger
      retry := spec.retry
      status := .new
      phase := .blocked
      alive := true
      epoch := s.epochFloor
      createdAt := now
      updatedAt := now
      payload := spec.payload
      labels := spec.labels }
  let s := s.insertIndex spec.id h
  let s := s.stampOrd h
  let s := s.addTotal 1
  (h, s.enterBucket h)

def cycleError (u v : ℕ) (path : List ℕ) : Err :=
  .cycle s.name (s.recs u).id (s.recs v).id (path.map fun h => (s.recs h).id)

/-- The loop of `validateBatch`. -/
def validateSpecs (cfg : ScopeConfig) : List NodeSpec → List NodeID → Except Err Unit
  | [], _ => .ok ()
  | spec :: specs, seen => do
    spec.validate
    if cfg.payloadCap < (spec.payload.length : Int) then
      throw (.payloadTooLarge spec.payload.length cfg.payloadCap)
    if spec.id ∈ seen then
      throw (.wrapped .invalidArgument
        ("node " ++ spec.id.quote ++ " appears twice in the batch"))
    validateSpecs cfg specs (spec.id :: seen)

/-- Reject a malformed batch before anything is written. -/
def validateBatch (cfg : ScopeConfig) (specs : List NodeSpec) : Except Err Unit :=
  if cfg.maxBatchSize < (specs.length : Int) then
    .error (.wrapped .invalidArgument
      ("batch of " ++ toString specs.length ++ " exceeds the scope's limit of " ++
        toString cfg.maxBatchSize))
  else validateSpecs cfg specs []

def materialise (now : Int) :
    List NodeSpec → Scope → Journal → List ℕ → Option Err × Scope × Journal × List ℕ
  | [], s, j, fresh => (none, s, j, fresh)
  | spec :: specs, s, j, fresh =>
    match s.lookup spec.id with
    | some h =>
      if s.specMatches h spec then materialise now specs s j fresh
      else (some (.wrapped .idConflict ("node " ++ spec.id.quote)), s, j, fresh)
    | none =>
      let (h, s) := s.create spec now
      materialise now specs s { j with created := j.created ++ [h] } (fresh ++ [h])

/-- One dependency of a spec, or one edge of `AddEdges` past its lookups: skip
it if it exists, refuse a terminal target, keep the order, link. -/
def tryLink (u v : ℕ) (id : NodeID) (j : Journal) : Except Err Bool × Scope × Journal :=
  if s.hasEdge u v then (.ok false, s, j)
  else if (s.recs v).phase = .done then
    (.error (.wrapped .alreadyTerminal id.quote), s, j)
  else
    match s.addEdgeOrder u v with
    | ({ cyclePath := some path, .. }, s) => (.error (s.cycleError u v path), s, j)
    | ({ cyclePath := none, .. }, s) =>
      (.ok true, s.linkEdge u v, { j with edges := j.edges ++ [(u, v)] })

/-- The dependencies of one spec in `linkBatch`. -/
def linkDeps (id : NodeID) (v : ℕ) : List NodeID → Scope → Journal → Option Err × Scope × Journal
  | [], s, j => (none, s, j)
  | dep :: deps, s, j =>
    match s.lookup dep with
    | none =>
      (some (.wrapped .notFound
        (id.quote ++ " depends on " ++ dep.quote ++ ", which does not exist")), s, j)
    | some u =>
      match s.tryLink u v id j with
      | (.error e, s, j) => (some e, s, j)
      | (.ok _, s, j) => linkDeps id v deps s j

/-- Record each spec's declared dependencies. -/
def linkBatch : List NodeSpec → Scope → Journal → List ℕ → Option Err × Scope × Journal × List ℕ
  | [], s, j, touched => (none, s, j, touched)
  | spec :: specs, s, j, touched =>
    let v := (s.lookup spec.id).getD 0
    match linkDeps spec.id v spec.deps s j with
    | (some e, s, j) => (some e, s, j, touched)
    | (none, s, j) => linkBatch specs s j (addOnce touched v)

def recordCreated : List ℕ → Scope → List Effect → Prog (Scope × List Effect)
  | [], s, out => pure (s, out)
  | h :: hs, s, out => do
    let (ef, s) ← s.record h .created .new
    recordCreated hs s (out ++ [ef])

/-- The result of an operation that returns effects and possibly an error. -/
structure EffectsResult where
  effects : List Effect := []
  err : Option Err := none
deriving DecidableEq, Repr

/-- `AddNodes` past the scope lookup, on a non-empty batch. -/
def addNodes (specs : List NodeSpec) : Prog (EffectsResult × Scope) :=
  if s.isSealed then pure ({ err := some (.bare .scopeSealed) }, s)
  else match validateBatch s.cfg.resolved specs with
    | .error e => pure ({ err := some e }, s)
    | .ok () => do
      let now ← Prog.getNow
      match materialise now specs s {} [] with
      | (some e, s, j, _) => pure ({ err := some e }, s.rollback j)
      | (none, s, j, fresh) =>
        match linkBatch specs s j [] with
        | (some e, s, j, _) => pure ({ err := some e }, s.rollback j)
        | (none, s, _, touched) =>
          let (s, effects) ← recordCreated fresh s []
          let (s, effects) ← settleAll touched s effects
          pure ({ effects := effects }, s.refreshComplete)

/-- The loop of `AddEdges`. -/
def linkEdgeList : List Edge → Scope → Journal → List ℕ → Option Err × Scope × Journal × List ℕ
  | [], s, j, touched => (none, s, j, touched)
  | e :: es, s, j, touched =>
    match s.lookup e.fromID with
    | none => (some (.wrapped .notFound ("edge source " ++ e.fromID.quote)), s, j, touched)
    | some u =>
      match s.lookup e.toID with
      | none => (some (.wrapped .notFound ("edge target " ++ e.toID.quote)), s, j, touched)
      | some v =>
        if u = v then
          (some (.wrapped .cycle (e.fromID.quote ++ " depends on itself")), s, j, touched)
        else
          match s.tryLink u v e.toID j with
          | (.error err, s, j) => (some err, s, j, touched)
          | (.ok linked, s, j) =>
            linkEdgeList es s j (if linked then addOnce touched v else touched)

/-- `AddEdges` past the scope lookup. -/
def addEdges (edges : List Edge) : Prog (EffectsResult × Scope) :=
  match linkEdgeList edges s {} [] with
  | (some e, s, j, _) => pure ({ err := some e }, s.rollback j)
  | (none, s, _, touched) => do
    let (s, effects) ← settleAll touched s []
    pure ({ effects := effects }, s)

/-! ## Removal -/

def unlinkEdgeList : List Edge → Scope → List ℕ → Option Err × Scope × List ℕ
  | [], s, touched => (none, s, touched)
  | e :: es, s, touched =>
    match s.lookup e.fromID with
    | none => (some (.wrapped .notFound ("edge source " ++ e.fromID.quote)), s, touched)
    | some u =>
      match s.lookup e.toID with
      | none => (some (.wrapped .notFound ("edge target " ++ e.toID.quote)), s, touched)
      | some v =>
        match s.unlinkEdge u v with
        | (s, changed) =>
          unlinkEdgeList es s (if changed then addOnce touched v else touched)

/-- `RemoveEdges` past the scope lookup.  There is no journal: edges dropped
before an error stay dropped. -/
def removeEdges (edges : List Edge) : Prog (EffectsResult × Scope) :=
  match unlinkEdgeList edges s [] with
  | (some e, s, _) => pure ({ err := some e }, s)
  | (none, s, touched) => do
    let (s, effects) ← settleAll touched s []
    pure ({ effects := effects }, s)

def terminateAll (status : Status) (reason : Reason) (msg : String) :
    List ℕ → Scope → List Effect → Prog (Scope × List Effect)
  | [], s, out => pure (s, out)
  | w :: ws, s, out => do
    let (s, out) ← s.terminate w status reason msg out
    terminateAll status reason msg ws s out

/-- `RemoveNode` once the successors have been dealt with: drop the incident
edges, forget the node, and settle the former successors under `detach`. -/
def detachAndDelete (id : NodeID) (h : ℕ) (policy : CascadePolicy)
    (effects : List Effect) : Prog (EffectsResult × Scope) :=
  let successors := s.succ h
  let s := unlinkEdges (successors.map fun w => (h, w)) s
  let s := unlinkEdges ((s.pred h).map fun e => (e.source, h)) s
  let s := s.removeReady (s.recs h).kind h
  let s := s.removeScheduled h
  let s := s.removeLease h
  let s := s.deleteNode id h
  if policy = .detach then do
    let (s, effects) ← settleAll successors s effects
    pure ({ effects := effects }, s.refreshComplete)
  else pure ({ effects := effects }, s.refreshComplete)

/-- `RemoveNode` past the scope lookup. -/
def removeNode (id : NodeID) (policy : CascadePolicy) : Prog (EffectsResult × Scope) :=
  match s.lookup id with
  | none => pure ({ err := some (.bare .notFound) }, s)
  | some h =>
    if (s.recs h).phase = .claimed then
      pure ({ err := some (.wrapped .nodeInFlight id.quote) }, s)
    else if s.succ h = [] then s.detachAndDelete id h policy []
    else match policy with
      | .reject =>
        let text := id.quote ++ " has " ++ toString (s.succ h).length ++ " successors"
        pure ({ err := some (.wrapped .hasSuccessors text) }, s)
      | .fail => do
        let (s, effects) ←
          terminateAll .error .removed (terminalMessage .removed) (s.succ h) s []
        s.detachAndDelete id h policy effects
      | .detach => s.detachAndDelete id h policy []
      | .unknown _ => s.detachAndDelete id h policy []

/-! ## Cancellation -/

/-- The loop of `Cancel`.  Nodes cancelled before an unknown identifier is met
stay cancelled. -/
def cancelLoop : List NodeID → Scope → List Effect → Prog (EffectsResult × Scope)
  | [], s, out => pure ({ effects := out }, s.refreshComplete)
  | id :: ids, s, out =>
    match s.lookup id with
    | none => pure ({ effects := out, err := some (.wrapped .notFound id.quote) }, s)
    | some h =>
      if (s.recs h).phase = .done then cancelLoop ids s out
      else do
        let (s, out) ← s.terminate h .error .cancelled (terminalMessage .cancelled) out
        cancelLoop ids s out

/-- `Cancel` past the scope lookup. -/
def cancel (ids : List NodeID) : Prog (EffectsResult × Scope) :=
  cancelLoop ids s []

/-- The second loop of `CancelScope`. -/
def cancelLive : List ℕ → Scope → List Effect → Prog (Scope × List Effect)
  | [], s, out => pure (s, out)
  | h :: hs, s, out =>
    if (s.recs h).phase = .done then cancelLive hs s out
    else do
      let (s, out) ← s.terminate h .error .cancelled (terminalMessage .cancelled) out
      cancelLive hs s out

/-- The handles of the listed identifiers whose node is not terminal. -/
def liveHandles (ids : List NodeID) : List ℕ :=
  (ids.filterMap s.lookup).filter fun h => (s.recs h).phase ≠ .done

/-- `CancelScope` past the scope lookup: the handles are collected by ranging
over the index. -/
def cancelScope : Prog (EffectsResult × Scope) := do
  let ids ← Prog.getRange s.index.keys
  let (s, effects) ← cancelLive (s.liveHandles ids) s []
  pure ({ effects := effects }, s.refreshComplete)

end Scope
end DagWorker.Memory
