import DagWorker.File.Gate
import DagWorker.Memory.Store

/-!
# The file store

The graph lives in an in-memory store; every mutation is applied to it first, and then
appended to the log with the readings it took.  `Open` reads the snapshot and the log
and re-runs the recorded commands on the recorded readings.
-/

namespace DagWorker.File

open Prog

/-! ## Mutations and their records -/

/-- The mutations of the storage port the file store logs. -/
inductive Mutation
  | setScopeConfig (scope : String) (cfg : ScopeConfig)
  | sealScope (scope : String)
  | addNodes (scope : String) (specs : List NodeSpec)
  | addEdges (scope : String) (edges : List Edge)
  | removeEdges (scope : String) (edges : List Edge)
  | removeNode (scope : String) (id : NodeID) (policy : CascadePolicy)
  | cancel (scope : String) (ids : List NodeID)
  | cancelScope (scope : String)
  | claim (req : ClaimRequest)
  | complete (req : CompleteRequest)
  | extend (req : ExtendRequest)
  | sweep (scope : String) (limit : Int)

namespace Mutation

/-- What `run` calls in the in-memory store. -/
def op : Mutation → Memory.Op
  | .setScopeConfig scope cfg => .setScopeConfig scope cfg
  | .sealScope scope => .sealScope scope
  | .addNodes scope specs => .addNodes scope specs
  | .addEdges scope edges => .addEdges scope edges
  | .removeEdges scope edges => .removeEdges scope edges
  | .removeNode scope id policy => .removeNode scope id policy
  | .cancel scope ids => .cancel scope ids
  | .cancelScope scope => .cancelScope scope
  | .claim req => .claim req
  | .complete req => .complete req
  | .extend req => .extend req
  | .sweep scope limit => .sweep scope limit

/-- The record `mutate` writes, as `fill` completes it. -/
def record (rd : Readings) : Mutation → Record
  | .setScopeConfig scope cfg =>
    { op := .setScopeConfig, scope := scope, readings := rd, config := some cfg }
  | .sealScope scope => { op := .sealScope, scope := scope, readings := rd }
  | .addNodes scope specs => { op := .addNodes, scope := scope, readings := rd, specs := specs }
  | .addEdges scope edges => { op := .addEdges, scope := scope, readings := rd, edges := edges }
  | .removeEdges scope edges =>
    { op := .removeEdges, scope := scope, readings := rd, edges := edges }
  | .removeNode scope id policy =>
    { op := .removeNode, scope := scope, readings := rd, nodeID := id, policy := policy }
  | .cancel scope ids => { op := .cancel, scope := scope, readings := rd, ids := ids }
  | .cancelScope scope => { op := .cancelScope, scope := scope, readings := rd }
  | .claim req => { op := .claim, scope := req.scope, readings := rd, claim := some req }
  | .complete req =>
    { op := .complete, scope := req.lease.scope, readings := rd, done := some req }
  | .extend req =>
    { op := .extend, scope := req.lease.scope, readings := rd, extend := some req }
  | .sweep scope limit => { op := .sweep, scope := scope, readings := rd, limit := limit }

end Mutation

/-! ## Replay -/

def OpKind.number : OpKind → ℕ
  | .setScopeConfig => 1
  | .sealScope => 2
  | .addNodes => 3
  | .addEdges => 4
  | .removeEdges => 5
  | .removeNode => 6
  | .cancel => 7
  | .cancelScope => 8
  | .claim => 9
  | .complete => 10
  | .extend => 11
  | .sweep => 12
  | .unknown v => v

/-- Run a command for its error alone. -/
def attempt (mem : Memory.Store) (op : Memory.Op) : Prog (Option Err × Memory.Store) := do
  let (out, mem) ← op.exec mem
  pure (out.err, mem)

/-- A record that cannot be applied. -/
def malformed (mem : Memory.Store) (text : String) : Prog (Option Err × Memory.Store) :=
  pure (some (.wrapped .invalidArgument text), mem)

/-- The shape-changing commands; `none` for an operation that is not one of them. -/
def applyGraph (mem : Memory.Store) (r : Record) :
    Option (Prog (Option Err × Memory.Store)) :=
  match r.op with
  | .setScopeConfig => some <|
      match r.config with
      | none => malformed mem "SetScopeConfig record with no config"
      | some cfg => attempt mem (.setScopeConfig r.scope cfg)
  | .sealScope => some (attempt mem (.sealScope r.scope))
  | .addNodes => some (attempt mem (.addNodes r.scope r.specs))
  | .addEdges => some (attempt mem (.addEdges r.scope r.edges))
  | .removeEdges => some (attempt mem (.removeEdges r.scope r.edges))
  | .removeNode => some (attempt mem (.removeNode r.scope r.nodeID r.policy))
  | .cancel => some (attempt mem (.cancel r.scope r.ids))
  | .cancelScope => some (attempt mem (.cancelScope r.scope))
  | .claim => none
  | .complete => none
  | .extend => none
  | .sweep => none
  | .unknown _ => none

/-- The commands that move a node through the lease protocol. -/
def applyLease (mem : Memory.Store) (r : Record) : Prog (Option Err × Memory.Store) :=
  match r.op with
  | .claim =>
    match r.claim with
    | none => malformed mem "Claim record with no request"
    | some req => attempt mem (.claim req)
  | .complete =>
    match r.done with
    | none => malformed mem "Complete record with no request"
    | some req => attempt mem (.complete req)
  | .extend =>
    match r.extend with
    | none => malformed mem "Extend record with no request"
    | some req => attempt mem (.extend req)
  | .sweep => attempt mem (.sweep r.scope r.limit)
  | .unknown v => malformed mem ("unknown log op " ++ toString v)
  | op => malformed mem ("op " ++ toString op.number ++ " was routed to the lease half")

def apply (mem : Memory.Store) (r : Record) : Prog (Option Err × Memory.Store) :=
  match applyGraph mem r with
  | some p => p
  | none => applyLease mem r

/-- A record applies the command it was written for. -/
theorem apply_record (mem : Memory.Store) (m : Mutation) (rd : Readings) :
    apply mem (m.record rd) = attempt mem m.op := by
  cases m <;> rfl

/-- Why `Open` refuses a directory. -/
inductive OpenError
  | restoring (e : Err)
  | replaying (i : ℕ) (op : OpKind) (scope : String) (e : Err)
  | drift (i : ℕ) (op : OpKind)
deriving DecidableEq, Repr

/-- The loop of `replay`, from record `i` on, with the gate as each applied record left
it. -/
inductive Replay :
    ℕ → List Record → Memory.Store → Gate → List Gate → Except OpenError Memory.Store → Prop
  | done (i : ℕ) (mem : Memory.Store) (g : Gate) : Replay i [] mem g [] (.ok mem)
  | rejected {i : ℕ} {r : Record} {rs : List Record} {mem mem' : Memory.Store} {g g' : Gate}
      {e : Err} : Replays (apply mem r) (g.feed r.readings) (some e, mem') g' →
      Replay i (r :: rs) mem g [g'] (.error (.replaying i r.op r.scope e))
  | drifted {i : ℕ} {r : Record} {rs : List Record} {mem mem' : Memory.Store} {g g' : Gate} :
      Replays (apply mem r) (g.feed r.readings) (none, mem') g' → g'.drifted = true →
      Replay i (r :: rs) mem g [g'] (.error (.drift i r.op))
  | step {i : ℕ} {r : Record} {rs : List Record} {mem mem' : Memory.Store} {g g' : Gate}
      {gates : List Gate} {res : Except OpenError Memory.Store} :
      Replays (apply mem r) (g.feed r.readings) (none, mem') g' → g'.drifted = false →
      Replay (i + 1) rs mem' g' gates res → Replay i (r :: rs) mem g (g' :: gates) res

/-- The replay that ranges over maps in the order their keys are listed in. -/
def replayAll : ℕ → List Record → Memory.Store → Gate → List Gate × Except OpenError Memory.Store
  | _, [], mem, _ => ([], .ok mem)
  | i, r :: rs, mem, g =>
    let x := replayOf (apply mem r) (g.feed r.readings)
    match x.1.1 with
    | some e => ([x.2], .error (.replaying i r.op r.scope e))
    | none =>
      if x.2.drifted then ([x.2], .error (.drift i r.op))
      else
        let rest := replayAll (i + 1) rs x.1.2 x.2
        (x.2 :: rest.1, rest.2)

theorem replay_replayAll (i : ℕ) (rs : List Record) (mem : Memory.Store) (g : Gate) :
    Replay i rs mem g (replayAll i rs mem g).1 (replayAll i rs mem g).2 := by
  induction rs generalizing i mem g with
  | nil => exact Replay.done i mem g
  | cons r rs ih =>
    have hr := replays_replayOf (apply mem r) (g.feed r.readings)
    rw [replayAll]
    generalize replayOf (apply mem r) (g.feed r.readings) = x at hr ⊢
    obtain ⟨⟨err, mem'⟩, g'⟩ := x
    cases err with
    | some e => exact Replay.rejected hr
    | none =>
      dsimp only
      split
      · exact Replay.drifted hr ‹_›
      · exact Replay.step hr (Bool.eq_false_iff.mpr ‹_›) (ih _ _ _)

/-! ## Directories and stores -/

structure Store where
  disk : Disk := {}
  mem : Memory.Store
  closed : Bool := false

def Store.fresh (defaults : ScopeConfig) : Store := { mem := Memory.Store.new defaults 0 }

/-- What `Open` found on disk. -/
structure Recovery where
  records : ℕ
  discardedBytes : ℕ
  fromSnapshot : Bool
deriving DecidableEq, Repr

/-- The store replay starts from, and whether it comes from a snapshot. -/
def base (cdc : Codec) (defaults : ScopeConfig) (disk : Disk) :
    Except OpenError (Memory.Store × Bool) :=
  match cdc.readSnapshot disk.snapshot with
  | none => .ok (Memory.Store.new defaults 0, false)
  | some snap =>
    match Memory.Store.restore snap defaults 0 with
    | .error e => .error (.restoring e)
    | .ok mem => .ok (mem, true)

/-- A result of `Open`: one for every order of maps met in replay. -/
inductive Opens (cdc : Codec) (defaults : ScopeConfig) (disk : Disk) :
    Except OpenError (Store × Recovery) → Prop
  | restoring {e : OpenError} : base cdc defaults disk = .error e →
      Opens cdc defaults disk (.error e)
  | replaying {mem : Memory.Store} {fromSnapshot : Bool} {gates : List Gate} {e : OpenError} :
      base cdc defaults disk = .ok (mem, fromSnapshot) →
      Replay 0 (cdc.readAll disk.log).1 mem {} gates (.error e) →
      Opens cdc defaults disk (.error e)
  | opened {mem mem' : Memory.Store} {fromSnapshot : Bool} {gates : List Gate} :
      base cdc defaults disk = .ok (mem, fromSnapshot) →
      Replay 0 (cdc.readAll disk.log).1 mem {} gates (.ok mem') →
      Opens cdc defaults disk (.ok
        ({ disk := cutLog cdc disk, mem := mem' },
          { records := (cdc.readAll disk.log).1.length
            discardedBytes := (cdc.readAll disk.log).2
            fromSnapshot := fromSnapshot }))

/-- `Open` always succeeds, with a store whose graph satisfies `P`. -/
def Recovers (cdc : Codec) (defaults : ScopeConfig) (disk : Disk) (P : Memory.Store → Prop) :
    Prop :=
  (∃ res, Opens cdc defaults disk res) ∧
    ∀ res, Opens cdc defaults disk res → ∃ s rec, res = .ok (s, rec) ∧ P s.mem

/-! ## Steps and runs -/

/-- What a call on an open store comes to. -/
inductive Event
  /-- The mutation is in the log and its call returned success. -/
  | acked (m : Mutation) (rd : Readings)
  /-- The in-memory command returned an error, or the store is closed. -/
  | rejected (m : Mutation) (e : Err)
  /-- The mutation is applied, and writing its record failed after some bytes. -/
  | failed (m : Mutation) (rd : Readings) (written : Bytes)
  | compacted
  | closed

inductive Step (cdc : Codec) : Store → Event → Store → Prop
  | acked {s : Store} {m : Mutation} {rd : Readings} {out : Memory.Out} {mem : Memory.Store} :
      s.closed = false → Reads (m.op.exec s.mem) rd.clock rd.jitter (out, mem) →
      out.err = none →
      Step cdc s (.acked m rd)
        { s with
          mem := mem
          disk := { s.disk with log := s.disk.log ++ cdc.frame (m.record rd) } }
  | rejected {s : Store} {m : Mutation} {rd : Readings} {out : Memory.Out}
      {mem : Memory.Store} {e : Err} :
      s.closed = false → Reads (m.op.exec s.mem) rd.clock rd.jitter (out, mem) →
      out.err = some e → Step cdc s (.rejected m e) { s with mem := mem }
  | failed {s : Store} {m : Mutation} {rd : Readings} {out : Memory.Out} {mem : Memory.Store}
      {written : Bytes} :
      s.closed = false → Reads (m.op.exec s.mem) rd.clock rd.jitter (out, mem) →
      out.err = none → written <+: cdc.frame (m.record rd) →
      Step cdc s (.failed m rd written)
        { s with mem := mem, disk := { s.disk with log := s.disk.log ++ written } }
  | refused {s : Store} {m : Mutation} :
      s.closed = true → Step cdc s (.rejected m (.bare .closed)) s
  | compacted {s : Store} :
      s.closed = false →
      Step cdc s .compacted
        { s with disk := { snapshot := some (cdc.snapshotBytes s.mem.snapshot) } }
  | closed {s : Store} :
      Step cdc s .closed { s with closed := true, mem := { s.mem with closed := true } }

structure StepRecord where
  before : Store
  event : Event
  after : Store

/-- A run from `s`: its steps in order, ending in the last store. -/
inductive Run (cdc : Codec) (s : Store) : List StepRecord → Store → Prop
  | nil : Run cdc s [] s
  | snoc {steps : List StepRecord} {r : StepRecord} :
      Run cdc s steps r.before → Step cdc r.before r.event r.after →
      Run cdc s (steps ++ [r]) r.after

def Event.logged : Event → Option Record
  | .acked m rd => some (m.record rd)
  | _ => none

def logged (steps : List StepRecord) : List Record := steps.filterMap fun r => r.event.logged

theorem Run.append {cdc : Codec} {s s' s'' : Store} {steps steps' : List StepRecord}
    (h : Run cdc s steps s') (h' : Run cdc s' steps' s'') : Run cdc s (steps ++ steps') s'' := by
  induction h' with
  | nil => rwa [List.append_nil]
  | snoc _ hstep ih =>
    rw [← List.append_assoc]
    exact Run.snoc ih hstep

theorem Run.single {cdc : Codec} {s s' : Store} {e : Event} (h : Step cdc s e s') :
    Run cdc s [⟨s, e, s'⟩] s' := by
  have hrun : Run cdc s ([] ++ [⟨s, e, s'⟩]) s' := Run.snoc (r := ⟨s, e, s'⟩) Run.nil h
  exact hrun

/-! ## Runs on given readings -/

/-- The in-memory store after some mutations with the readings they take; `none` when
one of them is rejected, does not take the readings, or starts from a store it is not
to start from. -/
def rehearse (ok : Memory.Store → Mutation → Bool) :
    List (Mutation × Readings) → Memory.Store → Option Memory.Store
  | [], mem => some mem
  | (m, rd) :: ms, mem => do
    let (out, mem') ← (m.op.exec mem).takes rd.clock rd.jitter
    if out.err.isSome || !ok mem m then none else rehearse ok ms mem'

def recordsOf (ms : List (Mutation × Readings)) : List Record := ms.map fun x => x.1.record x.2

/-- What a rehearsal says about a run of the file store, in any encoding. -/
structure Rehearsed (ok : Memory.Store → Mutation → Bool) (ms : List (Mutation × Readings))
    (steps : List StepRecord) : Prop where
  logged_eq : logged steps = recordsOf ms
  acked : ∀ r ∈ steps, ∃ m rd, (m, rd) ∈ ms ∧ r.event = .acked m rd ∧ ok r.before.mem m = true

theorem run_of_rehearse (cdc : Codec) {ok : Memory.Store → Mutation → Bool}
    {ms : List (Mutation × Readings)} {mem mem' : Memory.Store}
    (h : rehearse ok ms mem = some mem') (disk : Disk) :
    ∃ steps, Rehearsed ok ms steps ∧
      Run cdc { disk := disk, mem := mem } steps
        { disk := { disk with log := disk.log ++ (recordsOf ms).flatMap cdc.frame }
          mem := mem' } := by
  induction ms generalizing mem disk with
  | nil =>
    simp only [rehearse, Option.some.injEq] at h
    subst h
    refine ⟨[], ⟨rfl, by simp⟩, ?_⟩
    simp only [recordsOf, List.map_nil, List.flatMap_nil, List.append_nil]
    exact Run.nil
  | cons x ms ih =>
    obtain ⟨m, rd⟩ := x
    simp only [rehearse, Option.bind_eq_bind, Option.bind_eq_some_iff] at h
    obtain ⟨⟨out, mid⟩, htakes, h⟩ := h
    split at h
    · cases h
    rename_i hcond
    simp only [Bool.or_eq_true, Bool.not_eq_true', not_or, Bool.not_eq_true,
      Option.isSome_eq_false_iff, Option.isNone_iff_eq_none, Bool.not_eq_false] at hcond
    have hstep : Step cdc { disk := disk, mem := mem } (.acked m rd) _ :=
      Step.acked rfl (reads_of_takes htakes) hcond.1
    obtain ⟨steps, hre, hrun⟩ :=
      ih h { disk with log := disk.log ++ cdc.frame (m.record rd) }
    have happ := (Run.single hstep).append hrun
    rw [List.append_assoc, ← List.flatMap_cons] at happ
    refine ⟨_, ⟨?_, ?_⟩, happ⟩
    · simp only [logged, List.singleton_append, List.filterMap_cons, Event.logged, recordsOf,
        List.map_cons]
      exact congrArg _ hre.logged_eq
    intro r hr
    rcases List.mem_cons.mp hr with rfl | hr
    · exact ⟨m, rd, .head _, rfl, hcond.2⟩
    · obtain ⟨m', rd', hmem, hrest⟩ := hre.acked r hr
      exact ⟨m', rd', .tail _ hmem, hrest⟩

end DagWorker.File
