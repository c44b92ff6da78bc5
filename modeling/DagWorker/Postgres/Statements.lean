import DagWorker.Postgres.Engine

/-!
# Statements and transactions

A transaction is a tree: each node is one statement, with a subtree for every result.  A
statement reads the tables as the transaction sees them and answers with a result and the
row versions it writes, so that a program has a meaning alone and amid others.  What a
statement takes from outside, such as clock readings or the order of an unordered result,
is in its `Answer`.
-/

namespace DagWorker

/-! ## Columns -/

/-- A counter of a scope, by its column. -/
def ScopeStats.column (s : ScopeStats) (col : String) : Int :=
  if col = "stat_total" then s.total
  else if col = "stat_blocked" then s.blocked
  else if col = "stat_scheduled" then s.scheduled
  else if col = "stat_ready" then s.ready
  else if col = "stat_in_progress" then s.inProgress
  else if col = "stat_succeeded" then s.succeeded
  else if col = "stat_failed" then s.failed
  else 0

/-- `SET col = col + d`. -/
def ScopeStats.addColumn (s : ScopeStats) (col : String) (d : Int) : ScopeStats :=
  if col = "stat_total" then { s with total := s.total + d }
  else if col = "stat_blocked" then { s with blocked := s.blocked + d }
  else if col = "stat_scheduled" then { s with scheduled := s.scheduled + d }
  else if col = "stat_ready" then { s with ready := s.ready + d }
  else if col = "stat_in_progress" then { s with inProgress := s.inProgress + d }
  else if col = "stat_succeeded" then { s with succeeded := s.succeeded + d }
  else if col = "stat_failed" then { s with failed := s.failed + d }
  else s

def Reason.known : Reason → Bool
  | .unknown _ => false
  | _ => true

def TriggerRule.known : TriggerRule → Bool
  | .unknown _ => false
  | _ => true

namespace Postgres

def narrowI32 (n : ℕ) : ℕ := min n (2 ^ 31 - 1)

/-- `narrowI32` of an `int`. -/
def narrowInt (n : Int) : Int := max (-(2 ^ 31)) (min n (2 ^ 31 - 1))

/-- `widenI64` of a counter. -/
def widenI64 (n : ℕ) : ℕ := min n (2 ^ 63 - 1)

/-- A configuration as its columns hold it. -/
def storedConfig (c : ScopeConfig) : ScopeConfig :=
  { c with
    maxAttempts := narrowI32 c.maxAttempts
    maxInFlight := narrowI32 c.maxInFlight
    payloadCap := narrowInt c.payloadCap
    maxBatchSize := narrowInt c.maxBatchSize
    maxClaimBatch := 0
    sweepBatchSize := narrowInt c.sweepBatchSize
    partitionCount := narrowI32 c.partitionCount }

/-- The checks of `dagw.nodes`. -/
def NodeRow.admissible (r : NodeRow) : Bool := r.reason.known && r.trigger.known

/-! ## Row versions -/

/-- A row version that a statement writes. -/
inductive Write
  | row (id : ℕ) (r : NodeRow)
  | dropRow (id : ℕ)
  | edge (k : ℕ × ℕ) (satisfied : Bool)
  | dropEdge (k : ℕ × ℕ)
  | scopeRow (s : ScopeRow)
  | identity (nextID nextRank : ℕ)

def Db.apply (db : Db) : Write → Db
  | .row id r => { db with rows := db.rows.insert id r }
  | .dropRow id => { db with rows := db.rows.erase id }
  | .edge k b => { db with edges := db.edges.insert k b }
  | .dropEdge k => { db with edges := db.edges.erase k }
  | .scopeRow s => { db with scopeRow := some s }
  | .identity i r => { db with nextID := i, nextRank := r }

def Db.applyAll (db : Db) (ws : List Write) : Db := ws.foldl Db.apply db

/-! ## Queries -/

/-- What a statement takes from outside.  `clock` are its readings of `clock_timestamp()`,
`jitter` is a draw of the store, `order` is the order of the rows where the query leaves it
open, `busy` are the rows that other transactions have locked, and `gaps` are the values of
the two identity columns that others have drawn. -/
structure Answer where
  clock : ℕ → Int := fun _ => 0
  jitter : Int := 0
  order : List ℕ → List ℕ := id
  busy : List ℕ := []
  gaps : ℕ × ℕ := (0, 0)

/-- The rows of a query without `ORDER BY`. -/
def Answer.unordered (a : Answer) (ids : List ℕ) : Option (List ℕ) :=
  if (a.order ids).Perm ids then some (a.order ids) else none

def limited (limit : Option ℕ) (rows : List ℕ) : List ℕ :=
  match limit with
  | none => rows
  | some n => rows.take n

/-- `ORDER BY … FOR UPDATE SKIP LOCKED LIMIT …`. -/
def Answer.skipLocked (a : Answer) (le : ℕ → ℕ → Prop) [DecidableRel le] (limit : Option ℕ)
    (ids : List ℕ) : Option (List ℕ) :=
  let free := ids.filter (· ∉ a.busy)
  let rows := a.order (free.insertionSort le)
  if rows.Perm free ∧ rows.Pairwise le then some (limited limit rows) else none

namespace Engine

def findExternal (e : Engine) (nodeID : NodeID) : Option (ℕ × NodeRow) :=
  (e.rows.entries.find? fun x => x.2.nodeID = nodeID).map fun x => (x.1, x.2)

/-- The identifiers of the rows that satisfy a condition, in ascending order. -/
def idsWhere (e : Engine) (p : NodeRow → Bool) : List ℕ :=
  ((e.rows.entries.filter fun x => p x.2).map fun x => x.1).insertionSort (· ≤ ·)

def rowsOf (e : Engine) (ids : List ℕ) : List (ℕ × NodeRow) :=
  ids.filterMap fun id => (e.rows.lookup id).map fun r => (id, r)

/-- The sources of the edges to a node, in ascending order. -/
def sources (e : Engine) (toID : ℕ) : List ℕ :=
  ((e.edges.keys.filter fun (k : ℕ × ℕ) => k.2 = toID).map Prod.fst).insertionSort (· ≤ ·)

/-- A column of a row, for `ORDER BY`. -/
def columnOf {β : Type} (e : Engine) (f : NodeRow → β) (default : β) (id : ℕ) : β :=
  ((e.rows.lookup id).map f).getD default

/-- `phase = claimed AND deadline < clock_timestamp()`. -/
def isExpired (now : Int) (r : NodeRow) : Bool :=
  r.phase = .claimed && r.deadline.any fun d => d < now

/-- `phase = scheduled AND ready_at <= clock_timestamp()`. -/
def isDue (now : Int) (r : NodeRow) : Bool :=
  r.phase = .scheduled && r.readyAt.any fun t => t ≤ now

/-- `phase = ready AND (kinds IS NULL OR kind = ANY(kinds))`. -/
def isClaimable (kinds : List String) (r : NodeRow) : Bool :=
  r.phase = .ready && (kinds = [] || r.kind ∈ kinds)

/-- `ORDER BY priority DESC, fifo`. -/
def before (e : Engine) (x y : ℕ) : Prop :=
  e.columnOf NodeRow.priority 0 y < e.columnOf NodeRow.priority 0 x ∨
    (e.columnOf NodeRow.priority 0 x = e.columnOf NodeRow.priority 0 y ∧
      e.columnOf NodeRow.fifo 0 x ≤ e.columnOf NodeRow.fifo 0 y)

instance (e : Engine) : DecidableRel e.before :=
  fun _ _ => inferInstanceAs (Decidable (_ ∨ _))

/-- `terminalCandidateWhere`, in ascending order. -/
def terminalCandidates (e : Engine) (cutoff : Int) : List ℕ :=
  (e.idsWhere fun r => r.phase = .done && r.updatedAt ≤ cutoff).filter fun id =>
    e.targets id = []

end Engine

def createdRow (spec : NodeSpec) (rank epoch : ℕ) (created updated : Int) : NodeRow :=
  { nodeID := spec.id
    rank := rank
    kind := spec.kind
    status := .new
    reason := .none
    phase := .blocked
    epoch := epoch
    priority := spec.priority
    trigger := spec.trigger
    retry := { spec.retry with maxAttempts := narrowI32 spec.retry.maxAttempts }
    payload := spec.payload
    labels := spec.labels
    createdAt := created
    updatedAt := updated }

def claimedRow (workerID : String) (deadline : Int) (r : NodeRow) : NodeRow :=
  { r with
    phase := .claimed
    status := .inProgress
    epoch := r.epoch + 1
    attempt := r.attempt + 1
    worker := workerID
    deadline := some deadline
    seq := r.seq + 1 }

/-! ## Statements -/

/-- A row of `insertEvent`. -/
structure PendingEvent where
  nodeID : NodeID
  nodeKind : String
  kind : EventKind
  fromStatus : Status
  toStatus : Status
  reason : Reason
  message : String
  attempt : ℕ
  seq : ℕ

/-- The SQL statements of the store, and the accesses to what the engine keeps on its own
side (`nextJitter`, `bump`, `pendingStat`, `takeStats`). -/
inductive Stmt
  | loadScope
  | ensureScope (defaults : ScopeConfig)
  | setScopeConfig (cfg : ScopeConfig)
  | setSealed
  | lockScopeGraph
  | loadForUpdate (id : ℕ)
  | loadForUpdateByExternal (nodeID : NodeID)
  | loadManyForUpdateByExternal (nodeIDs : List NodeID)
  | successorsForUpdate (fromID : ℕ)
  | findByExternal (nodeID : NodeID)
  | liveNodes
  | updateNode (id : ℕ) (f : NodeRow → NodeRow)
  | insertNode (spec : NodeSpec)
  | deleteNode (id : ℕ)
  | edgeExists (fromID toID : ℕ)
  | insertEdge (fromID toID : ℕ) (satisfied : Bool)
  | markEdgeSatisfied (fromID toID : ℕ)
  | deleteEdge (fromID toID : ℕ)
  | deleteEdgesTo (toID : ℕ)
  | ranksOf (ids : List ℕ)
  | successorRanks (id : ℕ)
  | predecessorRanks (id : ℕ)
  | externalIDs (ids : List ℕ)
  | insertEvent (ev : PendingEvent)
  | nextFifo
  | clockTimestamp
  | reclaimCandidates (limit : ℕ)
  | moreExpired
  | promoteCandidates
  | inProgress
  | claim (kinds : List String) (workerID : String) (leaseFor : Int)
  | extend (nodeID : NodeID) (epoch : ℕ) (leaseFor : Int)
  | findTerminalCandidates (cutoff : Int) (limit : ℕ)
  | moreTerminal (cutoff : Int)
  | raiseEpochFloor (epoch : ℕ)
  | addStats (deltas : List (String × Int))
  | nextJitter (bound : Int)
  | bump (col : String) (d : Int)
  | pendingStat (col : String)
  | takeStats

/-- What a statement returns.  An `UPDATE … WHERE id = $1` returns the new row, if there
is one. -/
@[reducible] def Stmt.Result : Stmt → Type
  | .loadScope => Option ScopeRow
  | .ensureScope _ => Unit
  | .setScopeConfig _ => Unit
  | .setSealed => Unit
  | .lockScopeGraph => Unit
  | .loadForUpdate _ => Option NodeRow
  | .loadForUpdateByExternal _ => Option (ℕ × NodeRow)
  | .loadManyForUpdateByExternal _ => List (ℕ × NodeRow)
  | .successorsForUpdate _ => List (ℕ × NodeRow)
  | .findByExternal _ => Option (ℕ × Phase)
  | .liveNodes => List ℕ
  | .updateNode _ _ => Option NodeRow
  | .insertNode _ => ℕ × NodeRow
  | .deleteNode _ => Unit
  | .edgeExists _ _ => Bool
  | .insertEdge _ _ _ => Unit
  | .markEdgeSatisfied _ _ => Bool
  | .deleteEdge _ _ => Option Bool
  | .deleteEdgesTo _ => Unit
  | .ranksOf _ => List (ℕ × ℕ)
  | .successorRanks _ => List (ℕ × ℕ)
  | .predecessorRanks _ => List (ℕ × ℕ)
  | .externalIDs _ => List (ℕ × NodeID)
  | .insertEvent _ => Effect
  | .nextFifo => ℕ
  | .clockTimestamp => Int
  | .reclaimCandidates _ => List ℕ
  | .moreExpired => Bool
  | .promoteCandidates => List ℕ
  | .inProgress => Int
  | .claim _ _ _ => Option (ℕ × NodeRow)
  | .extend _ _ _ => Option Int
  | .findTerminalCandidates _ _ => List (ℕ × Phase × Status)
  | .moreTerminal _ => Bool
  | .raiseEpochFloor _ => Unit
  | .addStats _ => Unit
  | .nextJitter _ => Int
  | .bump _ _ => Unit
  | .pendingStat _ => Int
  | .takeStats => List (String × Int)

namespace Stmt

/-- The scope row under `UPDATE dagw.scopes SET … WHERE scope = $1`. -/
def updateScope (e : Engine) (f : ScopeRow → ScopeRow) : List Write :=
  match e.scopeRow with
  | none => []
  | some s => [.scopeRow (f s)]

/-- The pairs of identifier and rank of some nodes. -/
def rankPairs (e : Engine) (ids : List ℕ) : List (ℕ × ℕ) :=
  (e.rowsOf ids).map fun x => (x.1, x.2.rank)

def eventEffect (srv : Server) (e : Engine) (ev : PendingEvent) : Effect :=
  { nodeID := ev.nodeID
    kind := ev.kind
    fromStatus := ev.fromStatus
    toStatus := ev.toStatus
    reason := ev.reason
    message := ev.message
    attempt := ev.attempt
    nodeKind := ev.nodeKind
    seq := ev.seq
    cursor := (srv.event e.events.length).1
    time := (srv.event e.events.length).2 }

/-- Result, row versions written and own side of a statement; `none` when the server
reports an error. -/
def perform (srv : Server) (a : Answer) (e : Engine) :
    (s : Stmt) → Option (s.Result × List Write × Local)
  | .loadScope => some (e.scopeRow, [], e.toLocal)
  | .ensureScope defaults =>
    match e.scopeRow with
    | some _ => some ((), [], e.toLocal)
    | none => some ((), [.scopeRow { cfg := storedConfig defaults }], e.toLocal)
  | .setScopeConfig cfg =>
    some ((), updateScope e fun s => { s with cfg := storedConfig cfg }, e.toLocal)
  | .setSealed => some ((), updateScope e fun s => { s with isSealed := true }, e.toLocal)
  | .lockScopeGraph => some ((), [], e.toLocal)
  | .loadForUpdate id => some (e.loadForUpdate id, [], e.toLocal)
  | .loadForUpdateByExternal nodeID => some (e.findExternal nodeID, [], e.toLocal)
  | .loadManyForUpdateByExternal nodeIDs =>
    some (e.rowsOf (e.idsWhere fun r => r.nodeID ∈ nodeIDs), [], e.toLocal)
  | .successorsForUpdate fromID => some (e.successorsForUpdate fromID, [], e.toLocal)
  | .findByExternal nodeID =>
    some ((e.findExternal nodeID).map fun x => (x.1, x.2.phase), [], e.toLocal)
  | .liveNodes => do
    let ids ← a.unordered (e.idsWhere fun r => r.phase ≠ .done)
    pure (ids, [], e.toLocal)
  | .updateNode id f =>
    match e.rows.lookup id with
    | none => some (none, [], e.toLocal)
    | some r =>
      if (f r).admissible then some (some (f r), [.row id (f r)], e.toLocal) else none
  | .insertNode spec =>
    let id := e.nextID + a.gaps.1
    let rank := e.nextRank + a.gaps.2
    let floor := (e.scopeRow.map ScopeRow.epochFloor).getD 0
    let r := createdRow spec rank floor (a.clock 0) (a.clock 1)
    -- the keys `id` and `(scope, node_id)`, and the checks
    if (e.rows.lookup id).isNone ∧ (e.findExternal spec.id).isNone ∧ r.admissible then
      some ((id, r), [.row id r, .identity (id + 1) (rank + 1)], e.toLocal)
    else none
  | .deleteNode id =>
    -- `ON DELETE CASCADE`
    let incident := e.edges.keys.filter fun (k : ℕ × ℕ) => k.1 = id ∨ k.2 = id
    some ((), incident.map .dropEdge ++ [.dropRow id], e.toLocal)
  | .edgeExists fromID toID => some ((e.edges.lookup (fromID, toID)).isSome, [], e.toLocal)
  | .insertEdge fromID toID satisfied =>
    if (e.edges.lookup (fromID, toID)).isNone ∧ (e.rows.lookup fromID).isSome ∧
        (e.rows.lookup toID).isSome then
      some ((), [.edge (fromID, toID) satisfied], e.toLocal)
    else none
  | .markEdgeSatisfied fromID toID =>
    match e.edges.lookup (fromID, toID) with
    | some false => some (true, [.edge (fromID, toID) true], e.toLocal)
    | _ => some (false, [], e.toLocal)
  | .deleteEdge fromID toID =>
    match e.edges.lookup (fromID, toID) with
    | none => some (none, [], e.toLocal)
    | some b => some (some b, [.dropEdge (fromID, toID)], e.toLocal)
  | .deleteEdgesTo toID =>
    some ((), (e.edges.keys.filter fun (k : ℕ × ℕ) => k.2 = toID).map .dropEdge, e.toLocal)
  | .ranksOf ids => some (rankPairs e ids, [], e.toLocal)
  | .successorRanks id => do
    let ids ← a.unordered (e.targets id)
    pure (rankPairs e ids, [], e.toLocal)
  | .predecessorRanks id => do
    let ids ← a.unordered (e.sources id)
    pure (rankPairs e ids, [], e.toLocal)
  | .externalIDs ids => some ((e.rowsOf ids).map fun x => (x.1, x.2.nodeID), [], e.toLocal)
  | .insertEvent ev =>
    let ef := eventEffect srv e ev
    some (ef, [], { e.toLocal with events := e.events ++ [ef], notify := true })
  | .nextFifo => some (srv.fifo e.fifos, [], { e.toLocal with fifos := e.fifos + 1 })
  | .clockTimestamp => some (a.clock 0, [], e.toLocal)
  | .reclaimCandidates limit => do
    let ids ← a.skipLocked
      (fun x y => e.columnOf (fun r => r.deadline.getD 0) 0 x ≤
        e.columnOf (fun r => r.deadline.getD 0) 0 y)
      (some limit) (e.idsWhere (Engine.isExpired (a.clock 0)))
    pure (ids, [], e.toLocal)
  | .moreExpired => some (!(e.idsWhere (Engine.isExpired (a.clock 0))).isEmpty, [], e.toLocal)
  | .promoteCandidates => do
    let ids ← a.skipLocked
      (fun x y => e.columnOf (fun r => r.readyAt.getD 0) 0 x ≤
        e.columnOf (fun r => r.readyAt.getD 0) 0 y)
      none (e.idsWhere (Engine.isDue (a.clock 0)))
    pure (ids, [], e.toLocal)
  | .inProgress =>
    match e.scopeRow with
    | none => none
    | some s => some (s.stats.inProgress, [], e.toLocal)
  | .claim kinds workerID leaseFor => do
    let ids ← a.skipLocked e.before (some 1) (e.idsWhere (Engine.isClaimable kinds))
    match e.rowsOf ids with
    | [] => pure (none, [], e.toLocal)
    | (id, r) :: _ =>
      let r := claimedRow workerID (a.clock 0 + leaseFor) r
      -- `bigint out of range`
      if r.epoch < 2 ^ 63 then pure (some (id, r), [.row id r], e.toLocal) else none
  | .extend nodeID epoch leaseFor =>
    match e.findExternal nodeID with
    | none => some (none, [], e.toLocal)
    | some (id, r) =>
      if r.phase = .claimed ∧ r.epoch = epoch then
        let deadline := a.clock 0 + leaseFor
        some (some deadline, [.row id { r with deadline := some deadline }], e.toLocal)
      else some (none, [], e.toLocal)
  | .findTerminalCandidates cutoff limit => do
    let ids ← a.skipLocked (· ≤ ·) (some limit) (e.terminalCandidates cutoff)
    pure ((e.rowsOf ids).map fun x => (x.1, x.2.phase, x.2.status), [], e.toLocal)
  | .moreTerminal cutoff => some (!(e.terminalCandidates cutoff).isEmpty, [], e.toLocal)
  | .raiseEpochFloor epoch =>
    some ((), updateScope e fun s => { s with epochFloor := max s.epochFloor epoch }, e.toLocal)
  | .addStats deltas =>
    some ((), updateScope e fun s =>
      { s with stats := deltas.foldl (fun st d => st.addColumn d.1 d.2) s.stats }, e.toLocal)
  | .nextJitter _ => some (a.jitter, [], e.toLocal)
  | .bump col d => some ((), [], (e.bump col d).toLocal)
  | .pendingStat col => some ((e.stats.lookup col).getD 0, [], e.toLocal)
  | .takeStats =>
    some (e.stats.entries.map fun x => (x.1, x.2), [], { e.toLocal with stats := ∅ })

/-- A statement on the tables as the transaction sees them. -/
def exec (srv : Server) (a : Answer) (s : Stmt) (e : Engine) : Option (s.Result × Engine) :=
  (s.perform srv a e).map fun x =>
    (x.1, { toDb := e.toDb.applyAll x.2.1, toLocal := x.2.2 })

theorem perform_of_exec {srv : Server} {a : Answer} {s : Stmt} {e e' : Engine} {r : s.Result}
    (h : s.exec srv a e = some (r, e')) : ∃ ws l, s.perform srv a e = some (r, ws, l) ∧
      e' = { toDb := e.toDb.applyAll ws, toLocal := l } := by
  obtain ⟨⟨x, ws, l⟩, hp, heq⟩ := Option.map_eq_some_iff.mp h
  obtain ⟨rfl, rfl⟩ := Prod.mk.inj heq
  exact ⟨ws, l, hp, rfl⟩

end Stmt

end Postgres
end DagWorker
