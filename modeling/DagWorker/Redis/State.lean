import DagWorker.Core.Node
import Mathlib.Data.List.Sort
import Mathlib.Logic.Function.Basic

/-!
# The keys of a scope in Redis

One record holds what the scripts keep under the prefix of a scope.  Numbers are integers
here; in Lua they are doubles, exact below `2 ^ 53`.  A hash that does not exist has no
fields; the scripts write fields of a node hash only where the node exists, and the updates
below leave a missing node missing.
-/

namespace DagWorker.Redis

open Function

/-- The fields of `n:<id>`. -/
structure NodeHash where
  id : NodeID
  kind : String
  status : Status := .new
  phase : Phase := .blocked
  reason : Reason := .none
  message : String := ""
  priority : Int
  trigger : TriggerRule
  retryMaxAttempts : Int
  retryBaseMs : Int
  retryMaxMs : Int
  attempt : ℕ := 0
  epoch : ℕ
  seq : ℕ := 0
  createdAt : Int
  updatedAt : Int
  ord : ℕ
  deadline : Int := 0
  readyAt : Int := 0
  fifo : ℕ := 0
  deps : DepCounts := {}
  worker : String := ""
deriving DecidableEq, Repr

/-- The fields of `b:<id>`. -/
structure Blob where
  payload : Bytes
  result : Bytes := []
  labels : String
deriving DecidableEq, Repr

/-- The fields of `stats`. -/
structure Stats where
  total : Int := 0
  blocked : Int := 0
  scheduled : Int := 0
  ready : Int := 0
  inProgress : Int := 0
  succeeded : Int := 0
  failed : Int := 0
  epochFloor : ℕ := 0
deriving DecidableEq, Repr

/-- The fields of `cfg` the scripts read. -/
structure Cfg where
  isSealed : Bool := false
  maxAttempts : Option Int := none
  retryBaseMs : Option Int := none
  retryMaxMs : Option Int := none
deriving DecidableEq, Repr

/-! ## Sorted sets -/

/-- A sorted set: members with their scores. -/
abbrev ZSet := GoMap NodeID Int

/-- The members with their scores, by score and then by member. -/
def ZSet.sorted (z : ZSet) : List (NodeID × Int) :=
  (z.entries.map fun e => (e.1, e.2)).insertionSort
    fun a b => a.2 < b.2 ∨ a.2 = b.2 ∧ a.1 ≤ b.1

/-- `ZRANGE z 0 0 WITHSCORES`. -/
def ZSet.first (z : ZSet) : Option (NodeID × Int) := z.sorted.head?

/-- `ZRANGEBYSCORE z -inf upto LIMIT 0 limit`. -/
def ZSet.upTo (z : ZSet) (upto : Int) (limit : ℕ) : List NodeID :=
  ((z.sorted.filter fun p => p.2 ≤ upto).take limit).map Prod.fst

/-! ## The state -/

structure State where
  nodes : GoMap NodeID NodeHash := ∅
  blobs : GoMap NodeID Blob := ∅
  /-- `s:<id>`, a set. -/
  succ : NodeID → List NodeID := fun _ => []
  /-- `p:<id>`: the predecessors, and whether each edge is satisfied. -/
  pred : NodeID → GoMap NodeID Bool := fun _ => ∅
  ready : String → ZSet := fun _ => ∅
  sched : ZSet := ∅
  leases : ZSet := ∅
  stats : Stats := {}
  /-- `idx`, a sorted set with all scores equal. -/
  idx : List NodeID := []
  kinds : List String := []
  cfg : Cfg := {}
  cursor : ℕ := 0
  nextOrd : ℕ := 0
  nextFifo : ℕ := 0
  events : List Effect := []

namespace State

variable (s : State)

/-- `HMGET n:<id> ...`; `none` when there is no such node. -/
def node (id : NodeID) : Option NodeHash := s.nodes.lookup id

/-- `EXISTS n:<id>`. -/
def has (id : NodeID) : Bool := (s.node id).isSome

/-- `HSET` and `HINCRBY` on `n:<id>`. -/
def modNode (id : NodeID) (f : NodeHash → NodeHash) : State :=
  match s.node id with
  | none => s
  | some n => { s with nodes := s.nodes.insert id (f n) }

/-- `SADD s:<id>`. -/
def addSucc (id w : NodeID) : State :=
  { s with succ := update s.succ id (if w ∈ s.succ id then s.succ id else s.succ id ++ [w]) }

/-- `SREM s:<id>`. -/
def remSucc (id w : NodeID) : State :=
  { s with succ := update s.succ id ((s.succ id).filter (· ≠ w)) }

/-- `HSET p:<id>`. -/
def setPred (id source : NodeID) (satisfied : Bool) : State :=
  { s with pred := update s.pred id ((s.pred id).insert source satisfied) }

/-- `HDEL p:<id>`. -/
def delPred (id source : NodeID) : State :=
  { s with pred := update s.pred id ((s.pred id).erase source) }

def zremReady (kind : String) (id : NodeID) : State :=
  { s with ready := update s.ready kind ((s.ready kind).erase id) }

def zremSched (id : NodeID) : State := { s with sched := s.sched.erase id }

def zremLeases (id : NodeID) : State := { s with leases := s.leases.erase id }

end State

end DagWorker.Redis
