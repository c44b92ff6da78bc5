import DagWorker.Memory.Scope
import DagWorker.Support.Rank

/-!
# Incremental topological order

The rank maintenance of `topo.go`: accept an edge whose endpoints are in order, and
otherwise search the region between them, report the cycle, or reassign the ranks of the
region.  The recursive searches carry fuel: ranks increase along every edge, so a search
bounded by ranks `lb` and `ub` is at most `ub - lb` calls deep.
-/

namespace DagWorker.Memory.Scope

open Function

/-- The loop of `tracePath`: walk parent pointers back to `start`, collecting
the path in forward order. -/
def traceLoop (parent : ℕ → Option ℕ) (start : ℕ) : ℕ → ℕ → List ℕ → List ℕ
  | 0, _, rev => rev
  | fuel + 1, n, rev =>
    if n = start then n :: rev
    else match parent n with
      | none => n :: rev
      | some p => traceLoop parent start fuel p (n :: rev)

/-- The state of a search: the parent map, the nodes seen, and the region in
the order in which it was entered. -/
structure Search where
  parent : ℕ → Option ℕ := fun _ => none
  seen : List ℕ := []
  region : List ℕ := []
  cycle : Option (List ℕ) := none

def Search.enter (st : Search) (n : ℕ) : Search :=
  { st with seen := n :: st.seen, region := st.region ++ [n] }

/-- The loop over the successors of `n` in `forwardSearch`; `true` when a cycle
was found. -/
def forwardLoop (s : Scope) (y ub : ℕ) (walk : ℕ → Search → Search × Bool) (n : ℕ) :
    List ℕ → Search → Search × Bool
  | [], st => (st, false)
  | w :: ws, st =>
    if s.ord w = ub then
      let parent := update st.parent w (some n)
      let path := traceLoop parent y (st.seen.length + 1) w []
      ({ st with parent := parent, cycle := some path }, true)
    else if w ∉ st.seen ∧ s.ord w < ub then
      match walk w { st with parent := update st.parent w (some n) } with
      | (st, true) => (st, true)
      | (st, false) => forwardLoop s y ub walk n ws st
    else forwardLoop s y ub walk n ws st

def forwardWalk (s : Scope) (y ub : ℕ) : ℕ → ℕ → Search → Search × Bool
  | 0, _, st => (st, false)
  | fuel + 1, n, st =>
    forwardLoop s y ub (forwardWalk s y ub fuel) n (s.succ n) (st.enter n)

/-- Collect every node reachable from `y` with a rank below `ub`, or the path
back when `y` already reaches the node of rank `ub`. -/
def forwardSearch (s : Scope) (y ub : ℕ) : Search :=
  (forwardWalk s y ub (ub - s.ord y) y {}).1

/-- The loop over the predecessors of a node in `backwardSearch`. -/
def backwardLoop (s : Scope) (lb : ℕ) (walk : ℕ → Search → Search) :
    List PredEdge → Search → Search
  | [], st => st
  | e :: es, st =>
    if e.source ∉ st.seen ∧ lb < s.ord e.source then
      backwardLoop s lb walk es (walk e.source st)
    else backwardLoop s lb walk es st

def backwardWalk (s : Scope) (lb : ℕ) : ℕ → ℕ → Search → Search
  | 0, _, st => st
  | fuel + 1, n, st =>
    backwardLoop s lb (backwardWalk s lb fuel) (s.pred n) (st.enter n)

/-- Collect every node that reaches `x` with a rank above `lb`. -/
def backwardSearch (s : Scope) (x lb : ℕ) : Search :=
  backwardWalk s lb (s.ord x - lb) x {}

def byOrd (s : Scope) (xs : List ℕ) : List ℕ :=
  xs.insertionSort fun a b => s.ord a ≤ s.ord b

/-- Reassign the rank values the two regions occupy so that every node of
`deltaB` precedes every node of `deltaF`. -/
def reorder (s : Scope) (deltaB deltaF : List ℕ) : Scope :=
  let deltaB := s.byOrd deltaB
  let deltaF := s.byOrd deltaF
  let pool := ((deltaB ++ deltaF).map s.ord).insertionSort (· ≤ ·)
  { s with ord := Rank.assign s.ord (deltaB ++ deltaF) pool }

/-- What an edge insertion did to the ordering. -/
structure TopoResult where
  fastPath : Bool := false
  visited : ℕ := 0
  cyclePath : Option (List ℕ) := none
deriving DecidableEq, Repr

/-- Restore the topological invariant for a proposed edge from `x` to `y`, or
report the cycle it would create. -/
def addEdgeOrder (s : Scope) (x y : ℕ) : TopoResult × Scope :=
  if s.ord x < s.ord y then ({ fastPath := true }, s)
  else
    let forward := s.forwardSearch y (s.ord x)
    match forward.cycle with
    | some path => ({ visited := forward.seen.length, cyclePath := some path }, s)
    | none =>
      let backward := s.backwardSearch x (s.ord y)
      ({ visited := forward.seen.length + backward.seen.length },
        s.reorder backward.region forward.region)

end DagWorker.Memory.Scope
