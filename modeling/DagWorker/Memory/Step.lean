import DagWorker.Memory.Lease

/-!
# Elementary transitions of a scope

Every operation works on a scope through a small number of elementary transitions.  `Step`
lists all of them but the grant of a lease, each with what the code has checked before it.
Facts about whole runs are proved by looking at these one by one; the loops of the
operations are followed only once, to show that they consist of them.
-/

namespace DagWorker.Memory.Scope

open Function

/-- The part of a scope that a change of a node's phase leaves alone. -/
structure Graph where
  name : String
  index : GoMap NodeID ℕ
  size : ℕ
  free : List ℕ
  succ : ℕ → List ℕ
  pred : ℕ → List PredEdge
  ord : ℕ → ℕ
  nextOrd : ℕ
  epochFloor : ℕ
  suppressed : ℕ
  cfg : ScopeConfig
  isSealed : Bool

def graph (s : Scope) : Graph :=
  { name := s.name
    index := s.index
    size := s.size
    free := s.free
    succ := s.succ
    pred := s.pred
    ord := s.ord
    nextOrd := s.nextOrd
    epochFloor := s.epochFloor
    suppressed := s.suppressed
    cfg := s.cfg
    isSealed := s.isSealed }

/-- The ranks `ord` can replace those of `s`: distinct on the nodes, within the
counter, and increasing along every edge. -/
structure Reranks (s : Scope) (ord : ℕ → ℕ) : Prop where
  inj : ∀ u v, (s.recs u).alive = true → (s.recs v).alive = true → ord u = ord v → u = v
  le : ∀ u, (s.recs u).alive = true → ord u ≤ s.nextOrd
  edge : ∀ u v, v ∈ s.succ u → ord u < ord v

/-- A node's rule is neither satisfied nor unsatisfiable. -/
def Undecided (r : NodeRec) : Prop :=
  r.deps.ready r.trigger = false ∧ r.deps.unsatisfiable r.trigger = false

/-- Take a node out of every queue it may be in. -/
def unqueue (s : Scope) (h : ℕ) : Scope :=
  ((s.removeReady (s.recs h).kind h).removeScheduled h).removeLease h

/-- `Extend` past its checks. -/
def renew (s : Scope) (h : ℕ) (t : Int) : Scope :=
  let s := s.setDeadline h t
  { s with leases := s.leases.fix s.leaseLess h }

/-- `Seal` on a scope. -/
def sealed (s : Scope) : Scope :=
  { s with
    isSealed := true
    stats := { s.stats with
      isSealed := true
      complete := decide (s.stats.nonTerminal = 0) } }

/-- One elementary transition other than the grant of a lease, with what the code
has checked before it. -/
inductive Step (s : Scope) : Scope → Prop
  | refresh : Step s s.refreshComplete
  | configure (cfg : ScopeConfig) : Step s { s with cfg := cfg }
  | sealing : Step s s.sealed
  | create (spec : NodeSpec) (now : Int) :
      s.lookup spec.id = none → (∀ v, spec.trigger ≠ .unknown v) →
      Step s (s.create spec now).2
  | rerank (ord : ℕ → ℕ) : s.Reranks ord → Step s { s with ord := ord }
  | link (u v : ℕ) :
      (s.recs u).alive = true → (s.recs v).alive = true → (s.recs v).phase ≠ .done →
      s.hasEdge u v = false → s.ord u < s.ord v → Step s (s.linkEdge u v)
  | unlink (u v : ℕ) : Step s (s.unlinkEdge u v).1
  | delete (h : ℕ) :
      (s.recs h).alive = true → (s.recs h).phase = .blocked →
      s.succ h = [] → s.pred h = [] → Step s (s.deleteNode (s.recs h).id h)
  | discard (h : ℕ) :
      (s.recs h).alive = true → s.succ h = [] → s.pred h = [] →
      Step s ((s.unqueue h).deleteNode (s.recs h).id h)
  | collect (h : ℕ) :
      (s.recs h).alive = true → (s.recs h).phase = .done → s.succ h = [] →
      Step s ((detachPreds h (s.pred h) s).deleteNode (s.recs h).id h)
  | finish (it : Item) (now : Int) :
      (s.recs it.h).alive = true → (s.recs it.h).phase ≠ .done →
      it.status.terminal = true → Step s (s.finish it now)
  | mark (w u : ℕ) :
      (s.recs u).phase = .done →
      Step s (s.markSatisfied w u (s.recs u).status (s.recs u).reason).1
  | makeReady (h : ℕ) :
      (s.recs h).alive = true → (s.recs h).phase = .blocked →
      (s.recs h).deps.ready (s.recs h).trigger = true → Step s (s.makeReady h)
  | promote (h : ℕ) : s.scheduled.peek = some h → Step s (s.promote h)
  | makeBlocked (h : ℕ) :
      (s.recs h).alive = true → (s.recs h).phase = .ready → Undecided (s.recs h) →
      Step s (s.makeBlocked h)
  | retry (h : ℕ) (reason : Reason) (msg : String) (now delay : Int) :
      (s.recs h).alive = true → (s.recs h).phase = .claimed →
      Step s (s.retry h reason msg now delay)
  | annotate (h : ℕ) (result : Bytes) (worker : String) :
      (s.recs h).alive = true →
      Step s (s.modRec h fun r => { r with result := result, worker := worker })
  | renew (h : ℕ) (t : Int) :
      (s.recs h).alive = true → (s.recs h).phase = .claimed → Step s (s.renew h t)

/-- Any number of elementary transitions and of recorded events, with the
effects of the events in order. -/
inductive Path (s : Scope) : List Effect → Scope → Prop
  | nil : Path s [] s
  | step {es : List Effect} {s₁ s₂ : Scope} : Path s es s₁ → Step s₁ s₂ → Path s es s₂
  | emit {es : List Effect} {s₁ : Scope} (h : ℕ) (kind : EventKind) (fromStatus : Status)
      (t : Int) : Path s es s₁ → (s₁.recs h).alive = true →
      Path s (es ++ [(s₁.recordAt h kind fromStatus t).1]) (s₁.recordAt h kind fromStatus t).2

namespace Path

variable {s s₁ s₂ : Scope} {es es' : List Effect}

theorem trans (h₁ : Path s es s₁) (h₂ : Path s₁ es' s₂) : Path s (es ++ es') s₂ := by
  induction h₂ with
  | nil => simpa using h₁
  | step _ hstep ih => exact ih.step hstep
  | emit h kind fromStatus t _ hh ih =>
    rw [← List.append_assoc]
    exact ih.emit h kind fromStatus t hh

theorem single (hstep : Step s s₁) : Path s [] s₁ :=
  Path.nil.step hstep

theorem event (h : ℕ) (kind : EventKind) (fromStatus : Status) (t : Int)
    (hh : (s.recs h).alive = true) :
    Path s [(s.recordAt h kind fromStatus t).1] (s.recordAt h kind fromStatus t).2 :=
  Path.nil.emit h kind fromStatus t hh

/-- A property that every transition and every event preserves holds at the
end. -/
theorem preserves {P : Scope → Prop} (hstep : ∀ a b, P a → Step a b → P b)
    (hemit : ∀ a h kind fromStatus t, P a → (a.recs h).alive = true →
      P (a.recordAt h kind fromStatus t).2)
    (hpath : Path s es s₁) (hs : P s) : P s₁ := by
  induction hpath with
  | nil => exact hs
  | step _ hst ih => exact hstep _ _ ih hst
  | emit h kind fromStatus t _ hh ih => exact hemit _ h kind fromStatus t ih hh

end Path

/-! ## What the elementary transitions write -/

section Writes

variable (s : Scope) (h : ℕ)
variable (kind : String) (status : Status) (reason : Reason) (msg : String)

@[simp] theorem removeReady_recs : (s.removeReady kind h).recs = s.recs := rfl

@[simp] theorem pushReady_recs : (s.pushReady kind h).recs = s.recs := rfl

theorem appendLog_eq (ef : Effect) :
    ∃ log start, s.appendLog ef =
      { s with log := log, logStart := start, logBell := s.logBell + 1 } := by
  unfold appendLog
  dsimp only
  split
  · exact ⟨_, _, rfl⟩
  · exact ⟨_, _, rfl⟩

/-- An event changes the node's sequence number, the cursor and the log. -/
theorem recordAt_eq (kind : EventKind) (fromStatus : Status) (t : Int) :
    ∃ log start, (s.recordAt h kind fromStatus t).2 =
      { s with
        recs := update s.recs h { s.recs h with seq := (s.recs h).seq + 1 }
        cursor := s.cursor + 1
        log := log
        logStart := start
        logBell := s.logBell + 1 } := by
  obtain ⟨log, start, heq⟩ := appendLog_eq
    (s.modRec h fun r => { r with seq := r.seq + 1 }).bumpCursor
    (effectOf (s.modRec h fun r => { r with seq := r.seq + 1 }).bumpCursor h kind fromStatus t)
  exact ⟨log, start, heq⟩

theorem recordAt_recs (kind : EventKind) (fromStatus : Status) (t : Int) :
    (s.recordAt h kind fromStatus t).2.recs =
      update s.recs h { s.recs h with seq := (s.recs h).seq + 1 } := by
  obtain ⟨log, start, heq⟩ := s.recordAt_eq h kind fromStatus t
  rw [heq]

theorem recordAt_graph (kind : EventKind) (fromStatus : Status) (t : Int) :
    (s.recordAt h kind fromStatus t).2.graph = s.graph := by
  obtain ⟨log, start, heq⟩ := s.recordAt_eq h kind fromStatus t
  rw [heq]
  rfl

theorem makeReady_recs :
    (s.makeReady h).recs =
      update s.recs h { s.recs h with phase := .ready, status := .new } := by
  simp [makeReady]

theorem makeReady_graph : (s.makeReady h).graph = s.graph := by
  simp [makeReady, pushReady, graph]

theorem promote_recs :
    (s.promote h).recs =
      update s.recs h { s.recs h with phase := .ready, status := .new } :=
  makeReady_recs _ _

theorem promote_graph : (s.promote h).graph = s.graph :=
  makeReady_graph _ _

theorem makeBlocked_recs :
    (s.makeBlocked h).recs =
      update s.recs h { s.recs h with phase := .blocked, status := .new } := by
  simp [makeBlocked]

theorem makeBlocked_graph : (s.makeBlocked h).graph = s.graph := by
  simp [makeBlocked, removeReady, graph]

/-- The record of a node that has just been leased. -/
def grantedRec (r : NodeRec) (worker : String) (now : Int) : NodeRec :=
  { r with
    epoch := uint64 (r.epoch + 1)
    attempt := bumpAttempt r.attempt
    phase := .claimed
    status := .inProgress
    worker := worker
    updatedAt := now }

theorem grant_recs (worker : String) (now leaseFor : Int) :
    (s.grant h kind worker now leaseFor).recs =
      update s.recs h (grantedRec (s.recs h) worker now) := by
  simp [grant, popKind, grantedRec]

theorem grant_graph (worker : String) (now leaseFor : Int) :
    (s.grant h kind worker now leaseFor).graph = s.graph := by
  simp [grant, popKind, graph]

/-- The record of a node that waits out a backoff. -/
def retriedRec (r : NodeRec) (reason : Reason) (msg : String) (now : Int) : NodeRec :=
  { r with
    reason := reason
    message := msg
    worker := ""
    updatedAt := now
    phase := .scheduled
    status := .new }

theorem retry_recs (now delay : Int) :
    (s.retry h reason msg now delay).recs =
      update s.recs h (retriedRec (s.recs h) reason msg now) := by
  simp [retry, schedule, dropLease, retriedRec]

theorem retry_graph (now delay : Int) : (s.retry h reason msg now delay).graph = s.graph := by
  simp [retry, schedule, dropLease, removeReady, graph]

/-- The record of a node driven to a final status. -/
def finishedRec (r : NodeRec) (it : Item) (now : Int) : NodeRec :=
  { r with
    phase := .done
    status := it.status
    reason := it.reason
    message := it.msg
    updatedAt := now }

theorem finish_recs (it : Item) (now : Int) :
    (s.finish it now).recs =
      update s.recs it.h (finishedRec (s.recs it.h) it now) := by
  simp [finish, finishedRec]

theorem finish_graph (it : Item) (now : Int) : (s.finish it now).graph = s.graph := by
  simp [finish, removeReady, graph]

def slot : ℕ := s.free.headD s.size

/-- The record of a node that has just been created. -/
def newRec (spec : NodeSpec) (now : Int) (epoch : ℕ) : NodeRec :=
  { id := spec.id
    kind := spec.kind
    priority := spec.priority
    trigger := spec.trigger
    retry := spec.retry
    alive := true
    epoch := epoch
    createdAt := now
    updatedAt := now
    payload := spec.payload
    labels := spec.labels }

@[simps -fullyApplied]
def created (spec : NodeSpec) (now : Int) : Scope :=
  { s with
    size := if s.free = [] then s.size + 1 else s.size
    free := s.free.tail
    recs := update s.recs s.slot (newRec spec now s.epochFloor)
    succ := update s.succ s.slot []
    pred := update s.pred s.slot []
    ord := update s.ord s.slot (s.nextOrd + 1)
    deadline := update s.deadline s.slot 0
    readyAt := update s.readyAt s.slot 0
    fifo := update s.fifo s.slot 0
    index := s.index.insert spec.id s.slot
    nextOrd := s.nextOrd + 1
    stats := addCounter { s.stats with total := s.stats.total + 1 } 1 .blocked }

theorem create_eq (spec : NodeSpec) (now : Int) :
    s.create spec now = (s.slot, s.created spec now) := by
  unfold create alloc created slot
  cases s.free with
  | nil | cons =>
    simp [stampOrd, insertIndex, addTotal, enterBucket, modRec, clearSlot, newRec, bucket]

@[simps -fullyApplied]
def deleted (id : NodeID) : Scope :=
  { s with
    stats := addCounter { s.stats with total := s.stats.total + -1 } (-1) (bucket (s.recs h))
    index := s.index.erase id
    epochFloor := if s.epochFloor < (s.recs h).epoch then (s.recs h).epoch else s.epochFloor
    recs := update s.recs h {}
    succ := update s.succ h []
    pred := update s.pred h []
    free := h :: s.free }

theorem addCounter_total (st : ScopeStats) (d t : Int) (b : Bucket) :
    { addCounter st d b with total := (addCounter st d b).total + t } =
      addCounter { st with total := st.total + t } d b := by
  cases b <;> rfl

theorem deleteNode_eq (id : NodeID) : s.deleteNode id h = s.deleted h id := by
  simp only [deleteNode, release, eraseIndex, addTotal, leaveBucket, addCounter_total, deleted]

theorem unlinkEdge_of_none {u v : ℕ} (hf : (s.pred v).find? (fun e => e.source = u) = none) :
    s.unlinkEdge u v = (s, false) := by
  simp [unlinkEdge, hf]

@[simps -fullyApplied]
def unlinked (u v : ℕ) (e : PredEdge) : Scope :=
  { s with
    pred := update s.pred v ((s.pred v).eraseP fun e => e.source = u)
    succ := update s.succ u ((s.succ u).erase v)
    recs := update s.recs v
      { s.recs v with deps := (s.recs v).deps.decr (edgeOutcome e.satisfied (s.recs u)) }
    suppressed := s.suppressed +
      if 0 < (s.recs v).deps.count (edgeOutcome e.satisfied (s.recs u)) then 0 else 1 }

theorem unlinkEdge_of_some {u v : ℕ} {e : PredEdge}
    (hf : (s.pred v).find? (fun e => e.source = u) = some e) :
    s.unlinkEdge u v = (s.unlinked u v e, true) := by
  simp [unlinkEdge, hf, setPred, setSucc, decrDeps, unlinked]
  rfl

theorem unlinkEdge_cases {C : Scope → Prop} {u v : ℕ} (hnone : C s)
    (hsome : ∀ e, (s.pred v).find? (fun e => e.source = u) = some e → C (s.unlinked u v e)) :
    C (s.unlinkEdge u v).1 := by
  cases hf : (s.pred v).find? fun e => e.source = u with
  | none =>
    rw [unlinkEdge_of_none s hf]
    exact hnone
  | some e =>
    rw [unlinkEdge_of_some s hf]
    exact hsome e hf

@[simps -fullyApplied]
def linked (u v : ℕ) : Scope :=
  { s with
    pred := update s.pred v
      (s.pred v ++ [{ source := u, satisfied := decide ((s.recs u).phase = .done) }])
    succ := update s.succ u (s.succ u ++ [v])
    recs := update s.recs v
      { s.recs v with
        deps := (s.recs v).deps.incr
          (edgeOutcome (decide ((s.recs u).phase = .done)) (s.recs u)) } }

theorem linkEdge_eq (u v : ℕ) : s.linkEdge u v = s.linked u v := by
  simp [linkEdge, setPred, setSucc, incrDeps, modRec, linked]

theorem markSatisfied_of_none {w u : ℕ} (hf : flipFirst u (s.pred w) = none) :
    s.markSatisfied w u status reason = (s, false) := by
  simp [markSatisfied, hf]

/-- The scope once an edge has been marked satisfied. -/
@[simps -fullyApplied]
def marked (w : ℕ) (es : List PredEdge) (o : DepCounts.Outcome) : Scope :=
  { s with
    pred := update s.pred w es
    recs := update s.recs w
      { s.recs w with deps := ((s.recs w).deps.decr .unsatisfied).incr o }
    suppressed := s.suppressed + if 0 < (s.recs w).deps.count .unsatisfied then 0 else 1 }

theorem markSatisfied_of_some {w u : ℕ} {es : List PredEdge}
    (hf : flipFirst u (s.pred w) = some es) :
    s.markSatisfied w u status reason = (s.marked w es (.ofTerminal status reason), true) := by
  simp [markSatisfied, hf, setPred, decrDeps, incrDeps, modRec, marked]
  rfl

theorem markSatisfied_cases {C : Scope → Prop} {w u : ℕ} (hnone : C s)
    (hsome : ∀ es, flipFirst u (s.pred w) = some es →
      C (s.marked w es (.ofTerminal status reason))) :
    C (s.markSatisfied w u status reason).1 := by
  cases hf : flipFirst u (s.pred w) with
  | none =>
    rw [markSatisfied_of_none s _ _ hf]
    exact hnone
  | some es =>
    rw [markSatisfied_of_some s _ _ hf]
    exact hsome es hf

end Writes
end DagWorker.Memory.Scope
