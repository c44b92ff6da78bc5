import DagWorker.Core.Node
import DagWorker.Support.Actions

/-!
# Watch sessions

One stream multiplexes watches under identifiers that the client chooses.  The handler's
goroutine takes the requests one after another; each open watch has a goroutine of its own,
`pumpWatch`.  They share the map of the open watches, which `mu` protects, and the stream.

A step of a goroutine is one critical section, one `Send`, or one call of a cancel function.
The map holds the number of a subscription where the source has its cancel function.
-/

namespace DagWorker.Grpc

inductive Stage
  /-- Subscribed, but not in the map yet. -/
  | opened
  /-- In the map, without a pump yet. -/
  | registered
  /-- The pump is in its loop. -/
  | forwarding
  /-- An event could not be sent. -/
  | dropping
  /-- The loop has ended. -/
  | closing
  /-- The pump has removed the entry of its identifier and is to say so. -/
  | reporting
  | returned
  /-- `Created` could not be sent, and there is no pump. -/
  | abandoned
deriving DecidableEq, Repr

structure Sub where
  id : Int
  /-- Events of other nodes are skipped, unless it is empty. -/
  filter : NodeID
  /-- Its context is cancelled. -/
  cancelled : Bool := false
  /-- The events in the channel, by node. -/
  ch : List NodeID := []
  /-- The channel is closed. -/
  ended : Bool := false
  /-- The text of `Err()`. -/
  err : String := ""
  stage : Stage := .opened
deriving DecidableEq, Repr

inductive Main
  | ready
  /-- `createWatch` is about to subscribe. -/
  | opening (id : Int) (filter : NodeID)
  /-- It is about to enter the subscription into the map. -/
  | registering (id : Int) (k : ℕ)
  /-- It is about to send `Created`. -/
  | announcing (id : Int) (k : ℕ)
  | launching (k : ℕ)
  | aborting (k : ℕ)
  /-- It is about to report why there is no watch. -/
  | refusing (id : Int) (reason : String) (compacted : ℕ)
  /-- `cancelWatch` has removed the entry and is about to call the cancel function. -/
  | cancelling (id : Int) (k : ℕ)
  | acking (id : Int)
  /-- `closeAll` is about to cancel what is in the map. -/
  | closing
  /-- In `wg.Wait`. -/
  | waiting
  | returned
deriving DecidableEq, Repr

inductive Response
  | created (id : Int)
  | event (id : Int) (node : NodeID)
  | canceled (id : Int) (reason : String) (compacted : ℕ)
deriving DecidableEq, Repr

structure Session where
  watches : GoMap Int ℕ := ∅
  subs : List Sub := []
  main : Main := .ready
  /-- The stream's context has ended. -/
  ctxDone : Bool := false
  sent : List Response := []
deriving DecidableEq

inductive Action
  /-- Requests, taken by the handler's loop. -/
  | create (id : Int) (scope : String) (filter : NodeID)
  | cancel (id : Int)
  /-- The loop ends: a shutdown, the end of the context or an error of the stream. -/
  | leave
  /-- `Subscribe` succeeds, or not. -/
  | subscribe
  | refuse (err : String) (compacted : ℕ)
  /-- The handler goes on; `delivered` is whether a `Send` it makes succeeds. -/
  | main (delivered : Bool)
  /-- A pump goes on. -/
  | pump (k : ℕ) (delivered : Bool)
  /-- An event arrives in the channel of a subscription. -/
  | offer (k : ℕ) (node : NodeID)
  /-- A subscription ends. -/
  | finish (k : ℕ) (err : String)
  | ctxEnd
deriving DecidableEq

/-- The pump goroutine exists. -/
def Stage.pumping : Stage → Bool
  | .forwarding | .dropping | .closing | .reporting => true
  | _ => false

namespace Sub

def cancel (sub : Sub) : Sub := { sub with cancelled := true }

/-- The watch is open: it is in the map or was, it is not cancelled, and its pump has not
left the loop. -/
def live (sub : Sub) : Bool :=
  !sub.cancelled && (sub.stage == .registered || sub.stage == .forwarding)

/-- The pump is to be started or has not returned. -/
def unfinished (sub : Sub) : Bool := sub.stage == .registered || sub.stage.pumping

end Sub

namespace Session

variable (s : Session)

def modSub (k : ℕ) (f : Sub → Sub) : Session :=
  { s with subs := s.subs.modify k f }

def setStage (k : ℕ) (stage : Stage) : Session :=
  s.modSub k fun sub => { sub with stage := stage }

def goto (main : Main) : Session := { s with main := main }

def send (delivered : Bool) (r : Response) : Session :=
  if delivered then { s with sent := s.sent ++ [r] } else s

/-- `createWatch` up to `Subscribe`. -/
def create (id : Int) (scope : String) (filter : NodeID) : Session :=
  if scope = "" then s.goto (.refusing id "scope must not be empty" 0)
  else
    match s.watches.lookup id with
    | some old => (s.modSub old Sub.cancel).goto (.opening id filter)
    | none => s.goto (.opening id filter)

/-- The critical section of `cancelWatch`. -/
def cancelWatch (id : Int) : Session :=
  match s.watches.lookup id with
  | some k => { s with watches := s.watches.erase id, main := .cancelling id k }
  | none => s

/-- The critical section of `closeAll`. -/
def cancelAll : Session :=
  { s with
    subs := s.subs.mapIdx fun k sub => if k ∈ s.watches.entries.map (·.2) then sub.cancel else sub }

/-- The next step of the handler's goroutine past `Subscribe`. -/
def mainStep (delivered : Bool) : Option Session :=
  match s.main with
  | .registering id k =>
    some { s.setStage k .registered with
      watches := s.watches.insert id k, main := .announcing id k }
  | .announcing id k =>
    some ((s.send delivered (.created id)).goto
      (if delivered then .launching k else .aborting k))
  | .launching k => some ((s.setStage k .forwarding).goto .ready)
  | .aborting k =>
    some ((s.modSub k fun sub => { sub.cancel with stage := .abandoned }).goto .ready)
  | .refusing id reason compacted =>
    some ((s.send delivered (.canceled id reason compacted)).goto .ready)
  | .cancelling id k => some ((s.modSub k Sub.cancel).goto (.acking id))
  | .acking id => some ((s.send delivered (.canceled id "canceled by client" 0)).goto .ready)
  | .closing => some (s.cancelAll.goto .waiting)
  | .waiting => if s.subs.any (·.stage.pumping) then none else some (s.goto .returned)
  | .ready | .opening _ _ | .returned => none

/-- The next step of `pumpWatch`. -/
def pumpStep (k : ℕ) (sub : Sub) (delivered : Bool) : Option Session :=
  match sub.stage with
  | .forwarding =>
    match sub.ch with
    | ev :: rest =>
      let s := s.modSub k fun sub => { sub with ch := rest }
      if sub.filter ≠ "" ∧ ev ≠ sub.filter then some s
      else if delivered then some (s.send true (.event sub.id ev))
      else some (s.setStage k .dropping)
    | [] => if sub.ended then some (s.setStage k .closing) else none
  | .dropping => some { s.setStage k .returned with watches := s.watches.erase sub.id }
  | .closing =>
    if (s.watches.lookup sub.id).isSome then
      some { s.setStage k .reporting with watches := s.watches.erase sub.id }
    else some (s.setStage k .returned)
  | .reporting =>
    some ((s.send delivered (.canceled sub.id sub.err 0)).setStage k .returned)
  | _ => none

def act : Action → Option Session
  | .create id scope filter => if s.main = .ready then some (s.create id scope filter) else none
  | .cancel id => if s.main = .ready then some (s.cancelWatch id) else none
  | .leave => if s.main = .ready then some (s.goto .closing) else none
  | .subscribe =>
    match s.main with
    | .opening id filter =>
      some { s with
        subs := s.subs ++ [{ id := id, filter := filter, cancelled := s.ctxDone }]
        main := .registering id s.subs.length }
    | _ => none
  | .refuse err compacted =>
    match s.main with
    | .opening id _ => some (s.goto (.refusing id err compacted))
    | _ => none
  | .main delivered => s.mainStep delivered
  | .pump k delivered => (s.subs[k]?).bind fun sub => s.pumpStep k sub delivered
  | .offer k node =>
    (s.subs[k]?).bind fun sub =>
      if sub.ended then none
      else some (s.modSub k fun sub => { sub with ch := sub.ch ++ [node] })
  | .finish k err =>
    (s.subs[k]?).bind fun sub =>
      if sub.ended then none
      else some (s.modSub k fun sub => { sub with ended := true, err := err })
  | .ctxEnd => some { s with ctxDone := true, subs := s.subs.map Sub.cancel }

/-! ## What a session should keep to -/

/-- No watch under `id` is open. -/
def Quiet (id : Int) : Prop := ∀ sub ∈ s.subs, sub.id = id → sub.live = false

/-- A step with which pumps return: one of a pump, or the end of a cancelled subscription. -/
def Winds (s s' : Session) : Prop :=
  (∃ k delivered, s.act (.pump k delivered) = some s') ∨
    ∃ k err sub, s.subs[k]? = some sub ∧ sub.cancelled = true ∧ s.act (.finish k err) = some s'

/-- The wait ends: such steps run out, and when they have, no pump is left. -/
def WaitEnds : Prop :=
  Acc (fun b a => Winds a b) s ∧
    ∀ s', Relation.ReflTransGen Winds s s' → (∀ s'', ¬Winds s' s'') →
      ∀ sub ∈ s'.subs, sub.stage.pumping = false

/-- The session tracks its watches: a pump in its loop whose subscription is not cancelled
can be reached under its identifier, or `cancelWatch` has just done so; `closeAll` does not
wait for ever; and an identifier is not reported as cancelled while a watch is open
under it. -/
structure Tracks (s : Session) : Prop where
  reached : ∀ k sub, s.subs[k]? = some sub → sub.stage = .forwarding → sub.cancelled = false →
    s.watches.lookup sub.id = some k ∨ s.main = .cancelling sub.id k
  waits : s.main = .waiting → s.WaitEnds
  reports : ∀ a s' id reason compacted, s.act a = some s' →
    s'.sent = s.sent ++ [.canceled id reason compacted] → s.Quiet id

end Session
end DagWorker.Grpc
