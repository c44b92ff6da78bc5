import DagWorker.Manager.Subscription
import DagWorker.Memory.Offsets
import DagWorker.Support.Actions

/-!
# Durable subscriptions

A goroutine forwards the events of a `Watch` to the subscription's channel.  The parties
are the store's pump, the forwarder, the consumer, and whoever closes or cancels; they meet
in the channel of the pump, which has no buffer, and in that of the subscription.  The pump
computes with 64 bits, and a panic of it ends the process.
-/

namespace DagWorker.Manager

open Memory (Watched)
open Subscription (Offering)
open Relation (ReflTransGen)

variable {w : Watched} {opts : SubscribeOptions}

/-! ## The parties -/

/-- Where the forwarder stands. -/
inductive Forward
  | starting
  | selecting
  | offering (o : Offering)
  /-- `s.isDone()`. -/
  | checking
  | returning
  | finished
deriving DecidableEq

structure Durable where
  source : Watched
  sub : Subscription
  stage : Forward := .starting
  /-- The argument of the deferred `finish`, which is evaluated when the goroutine
  starts. -/
  finishErr : Option SubErr := none
  /-- What the consumer has received. -/
  received : List Delivery := []
  managerClosed : Bool := false
  /-- The subscriber called `Close`. -/
  subscriberClosed : Bool := false
  panicked : Bool := false

inductive Action
  | start
  /-- A move of the pump that sends nothing. -/
  | pump (m : Memory.Move)
  /-- The pump sends an event and the forwarder receives it. -/
  | handOver
  | offer
  | check
  /-- The forwarder finds the pump's channel closed. -/
  | sourceClosed
  | subClosed
  | managerClosed
  | contextDone
  | finish
  /-- The consumer receives an event. -/
  | receive
  | closeSubscription
  | closeManager
  | cancelContext
  | closeStore
deriving DecidableEq

namespace Durable

variable {stage : Forward}

def ctxErr (d : Durable) : Option SubErr := if d.source.ctxDone then some .context else none

def perform (d : Durable) : Action → Option Durable
  | .start =>
    if d.stage = .starting then some { d with stage := .selecting, finishErr := d.ctxErr }
    else none
  | .pump m =>
    if m = .send then none
    else (d.source.pump.move64 d.source.scope d.source.ctxDone d.source.closed m).map fun
      | some p => { d with source := { d.source with pump := p } }
      | none => { d with panicked := true }
  | .handOver =>
    match d.stage, d.source.pump.batch with
    | .selecting, ev :: _ =>
      (d.source.pump.move d.source.scope d.source.ctxDone d.source.closed .send).map fun p =>
        { d with
          source := { d.source with pump := p }
          stage := if d.sub.opts.wants ev then .offering (.first ev) else .selecting }
    | _, _ => none
  | .offer =>
    match d.stage with
    | .offering o =>
      match d.sub.offer o with
      | (sub, some o) => some { d with sub := sub, stage := .offering o }
      | (sub, none) => some { d with sub := sub, stage := .checking }
    | _ => none
  | .check =>
    if d.stage = .checking then
      some { d with stage := if d.sub.done then .returning else .selecting }
    else none
  | .sourceClosed =>
    match d.stage, d.source.pump.stage with
    | .selecting, .ended _ => some { d with stage := .returning }
    | _, _ => none
  | .subClosed =>
    if d.stage = .selecting ∧ d.sub.done = true then some { d with stage := .returning } else none
  | .managerClosed =>
    if d.stage = .selecting ∧ d.managerClosed = true then some { d with stage := .returning }
    else none
  | .contextDone =>
    if d.stage = .selecting ∧ d.source.ctxDone = true then some { d with stage := .returning }
    else none
  | .finish =>
    if d.stage = .returning then
      some { d with sub := d.sub.closeLocked d.finishErr, stage := .finished }
    else none
  | .receive =>
    match d.sub.ch with
    | x :: ch => some { d with sub := { d.sub with ch := ch }, received := d.received ++ [x] }
    | [] => none
  | .closeSubscription =>
    match d.stage with
    -- `offer` holds the lock
    | .offering (.evict _) | .offering (.last _) => none
    | _ => some { d with sub := d.sub.closeLocked none, subscriberClosed := true }
  | .closeManager => some { d with managerClosed := true }
  | .cancelContext => some { d with source := { d.source with ctxDone := true } }
  | .closeStore => some { d with source := { d.source with closed := true } }

/-- What an action does, while the process runs. -/
def act (d : Durable) (a : Action) : Option Durable := if d.panicked then none else d.perform a

/-- One step of the system: an action, or operations on the scope. -/
inductive Step (d : Durable) : Option Action → Durable → Prop
  | write {es : List Effect} {s' : Memory.Scope} : d.panicked = false →
      d.source.scope.Writes es s' → Step d none
        { d with source := { d.source with scope := s', history := d.source.history ++ es } }
  | act {d' : Durable} (a : Action) : d.act a = some d' → Step d (some a) d'

/-- Nothing is lost at this action: an event that does not fit ends the subscription,
and the forwarder does not return over a closed source or Manager while the
subscription goes on.  The log that is read has a length, and its cursor has not wrapped. -/
def spared (d : Durable) : Action → Bool
  | .pump .read => decide d.source.Sized
  | .offer => d.sub.done || decide (d.sub.ch.length < d.sub.size) || decide (d.sub.pol = .closeSlow)
  | .sourceClosed | .managerClosed => d.sub.done || d.source.ctxDone
  | _ => true

def SparedStep (d d' : Durable) : Prop :=
  ∃ a, Step d a d' ∧ ∀ x, a = some x → d.spared x = true

/-! ## The invariant -/

/-- The events received or waiting in the channel. -/
def delivered (d : Durable) : List Event := (d.received ++ d.sub.ch).map Delivery.event

/-- The events of the source that pass the filter. -/
def matching (d : Durable) : List Event := d.source.pump.sent.filter d.sub.opts.wants

def inFlight (d : Durable) : List Event :=
  match d.stage with
  | .offering (.first ev) => [ev]
  | _ => []

def Staged (d : Durable) : Prop :=
  match d.stage with
  | .offering (.evict _) | .offering (.last _) => False
  | .returning => d.sub.done = true ∨ d.source.ctxDone = true
  | .finished => d.sub.done = true
  | _ => True

structure Inv (start : ℕ) (d : Durable) : Prop where
  source : d.source.Inv start
  near : start < d.source.scope.logStart + 2 ^ 63
  running : d.panicked = false
  delivered : d.delivered <+: d.matching
  complete : d.sub.done = false → d.delivered ++ d.inFlight = d.matching
  unmarked : d.sub.gap = false ∧ ∀ x ∈ d.received ++ d.sub.ch, x.gap = false
  staged : d.Staged
  ended : d.sub.done = true →
    d.subscriberClosed = true ∨ d.source.ctxDone = true ∨ d.sub.err ≠ none

variable {start : ℕ} {d d' : Durable}

theorem act_of_running (hrun : d.panicked = false) (a : Action) : d.act a = d.perform a := by
  rw [act, hrun]
  rfl

theorem sized_of_spared (hspared : d.spared (.pump .read) = true) : d.source.Sized :=
  of_decide_eq_true hspared

/-- The stages in which the forwarder holds no event. -/
theorem inFlight_of_stage (h : ∀ o, d.stage ≠ .offering o) : d.inFlight = [] := by
  unfold inFlight
  split
  · exact absurd ‹_› (h _)
  · rfl

section

variable (h : d.Inv start)
include h

/-- The source goes on without sending. -/
theorem Inv.advance (hw : w.Inv start) (hsent : w.pump.sent = d.source.pump.sent)
    (hctx : d.source.ctxDone = true → w.ctxDone = true)
    (hlog : d.source.scope.logStart ≤ w.scope.logStart) : Inv start { d with source := w } := by
  have hmatching : matching { d with source := w } = d.matching := by
    rw [matching, hsent]
    rfl
  refine ⟨hw, h.near.trans_le (Nat.add_le_add_right hlog _), h.running, ?_, ?_, h.unmarked, ?_,
    ?_⟩
  · rw [hmatching]
    exact h.delivered
  · rw [hmatching]
    exact h.complete
  · have hstaged := h.staged
    unfold Staged at hstaged ⊢
    dsimp only
    split at hstaged
    · exact hstaged
    · exact hstaged
    · exact hstaged.imp id hctx
    · exact hstaged
    · trivial
  · intro hdone
    exact (h.ended hdone).imp id (Or.imp hctx id)

/-- The forwarder goes on without an event in its hands. -/
theorem Inv.restage (hstage : ∀ o, d.stage ≠ .offering o) {finishErr : Option SubErr}
    (hnew : inFlight { d with stage := stage } = []) (hstaged : Staged { d with stage := stage }) :
    Inv start { d with stage := stage, finishErr := finishErr } := by
  refine ⟨h.source, h.near, h.running, h.delivered, ?_, h.unmarked, hstaged, h.ended⟩
  intro hopen
  have hcomplete := h.complete hopen
  rw [inFlight_of_stage hstage, ← hnew] at hcomplete
  exact hcomplete

/-- Closing the subscription, for a reason the consumer knows or can read. -/
theorem Inv.close {err : Option SubErr} {byUser : Bool} (hwhy : d.sub.done = false →
      byUser = true ∨ d.source.ctxDone = true ∨ (d.sub.closeLocked err).err ≠ none)
    (hkeep : d.subscriberClosed = true → byUser = true)
    (hstaged : Staged { d with sub := d.sub.closeLocked err, stage := stage }) :
    Inv start { d with
      sub := d.sub.closeLocked err, stage := stage, subscriberClosed := byUser } := by
  refine ⟨h.source, h.near, h.running, ?_, ?_, ?_, hstaged, ?_⟩
  · have hdelivered := h.delivered
    unfold Durable.delivered matching at hdelivered ⊢
    rw [Subscription.closeLocked_ch, Subscription.closeLocked_opts]
    exact hdelivered
  · intro hopen
    rw [Subscription.closeLocked_done] at hopen
    cases hopen
  · dsimp only
    rw [Subscription.closeLocked_ch, Subscription.closeLocked_gap]
    exact h.unmarked
  · intro _
    cases hdone : d.sub.done with
    | false => exact hwhy hdone
    | true =>
      rw [Subscription.closeLocked_of_done hdone]
      exact (h.ended hdone).imp hkeep id

theorem Inv.handOver (hd : d.perform .handOver = some d') : d'.Inv start := by
  simp only [perform] at hd
  split at hd
  · rename_i ev rest hstage hbatch
    obtain ⟨p, hmove, rfl⟩ := Option.map_eq_some_iff.mp hd
    have hsent := Memory.Pump.move_send hbatch hmove
    have hnone : d.inFlight = [] := by
      rw [inFlight, hstage]
    have hmatching : p.sent.filter d.sub.opts.wants =
        d.matching ++ [ev].filter d.sub.opts.wants := by
      rw [hsent, List.filter_append]
      rfl
    refine ⟨h.source.move .send hmove, h.near, h.running, ?_, ?_, h.unmarked, ?_, h.ended⟩
    · dsimp only [matching]
      rw [hmatching]
      exact h.delivered.trans (List.prefix_append _ _)
    · intro hopen
      have hcomplete := h.complete hopen
      rw [hnone, List.append_nil] at hcomplete
      dsimp only [matching]
      rw [hmatching, ← hcomplete]
      by_cases hwants : d.sub.opts.wants ev = true
      · simp [inFlight, hwants, Durable.delivered]
      · simp [inFlight, hwants, Durable.delivered]
    · by_cases hwants : d.sub.opts.wants ev = true
      · simp [Staged, hwants]
      · simp [Staged, hwants]
  · cases hd

theorem Inv.offer (hspared : d.spared .offer = true) (hd : d.perform .offer = some d') :
    d'.Inv start := by
  simp only [perform] at hd
  split at hd
  · rename_i o hstage
    have hstaged := h.staged
    rw [Staged, hstage] at hstaged
    cases o with
    | evict ev => exact hstaged.elim
    | last ev => exact hstaged.elim
    | first ev =>
      have hflight : d.inFlight = [ev] := by
        rw [inFlight, hstage]
      cases hdone : d.sub.done with
      | true =>
        rw [Subscription.offer_first_of_done hdone] at hd
        cases hd
        refine ⟨h.source, h.near, h.running, h.delivered, ?_, h.unmarked, trivial, h.ended⟩
        intro hopen
        rw [hdone] at hopen
        cases hopen
      | false =>
        by_cases hroom : d.sub.ch.length < d.sub.size
        · rw [Subscription.offer_first_of_room hdone hroom] at hd
          cases hd
          have hcomplete := h.complete hdone
          rw [hflight] at hcomplete
          have hdelivered : Durable.delivered
              { d with
                sub := { d.sub with ch := d.sub.ch ++ [⟨ev, d.sub.gap⟩], gap := false }
                stage := .checking } = d.delivered ++ [ev] := by
            simp [Durable.delivered]
          refine ⟨h.source, h.near, h.running, ?_, ?_, ⟨rfl, ?_⟩, trivial, h.ended⟩
          · rw [hdelivered, hcomplete]
            exact List.prefix_rfl
          · intro _
            rw [hdelivered, hcomplete]
            exact List.append_nil _
          intro x hx
          rw [← List.append_assoc, List.mem_append, List.mem_singleton] at hx
          rcases hx with hx | rfl
          · exact h.unmarked.2 x hx
          · exact h.unmarked.1
        · have hpol : d.sub.pol = .closeSlow := by
            simpa [spared, hdone, hroom] using hspared
          rw [Subscription.offer_first_of_full hdone hroom hpol] at hd
          cases hd
          exact h.close (fun hopen => .inr (.inr (Subscription.closeLocked_err_ne hopen)))
            id trivial
  · cases hd

theorem Inv.receive (hd : d.perform .receive = some d') : d'.Inv start := by
  simp only [perform] at hd
  split at hd
  · rename_i x ch hch
    cases hd
    have hsame : d.received ++ [x] ++ ch = d.received ++ d.sub.ch := by
      rw [hch, List.append_assoc, List.singleton_append]
    have hdelivered : Durable.delivered
        { d with sub := { d.sub with ch := ch }, received := d.received ++ [x] } =
          d.delivered := by
      unfold Durable.delivered
      rw [hsame]
    refine ⟨h.source, h.near, h.running, ?_, ?_, ⟨h.unmarked.1, ?_⟩, h.staged, h.ended⟩
    · rw [hdelivered]
      exact h.delivered
    · rw [hdelivered]
      exact h.complete
    · dsimp only
      rw [hsame]
      exact h.unmarked.2
  · cases hd

end

theorem Inv.act (h : d.Inv start) {a : Action} (hspared : d.spared a = true)
    (hd : d.act a = some d') : d'.Inv start := by
  rw [act_of_running h.running] at hd
  cases a with
  | start =>
    obtain ⟨hstage, ⟨⟩⟩ := Option.ite_none_right_eq_some.mp hd
    exact h.restage (by simp [hstage]) rfl trivial
  | pump m =>
    simp only [perform, Option.ite_none_left_eq_some] at hd
    obtain ⟨hm, hd⟩ := hd
    rw [h.source.move64_eq (fun hread => sized_of_spared (hread ▸ hspared)) h.near, Option.map_map,
      Option.map_eq_some_iff] at hd
    obtain ⟨p, hmove, rfl⟩ := hd
    exact h.advance (h.source.move m hmove) (Memory.Pump.move_sent hm hmove) id le_rfl
  | handOver => exact h.handOver hd
  | offer => exact h.offer hspared hd
  | check =>
    obtain ⟨hstage, ⟨⟩⟩ := Option.ite_none_right_eq_some.mp hd
    cases hdone : d.sub.done with
    | true => exact h.restage (by simp [hstage]) rfl (.inl hdone)
    | false => exact h.restage (by simp [hstage]) rfl trivial
  | sourceClosed =>
    simp only [perform] at hd
    split at hd
    · rename_i why hstage _
      cases hd
      exact h.restage (by simp [hstage]) rfl (Bool.or_eq_true_iff.mp hspared)
    · cases hd
  | subClosed =>
    obtain ⟨⟨hstage, hdone⟩, ⟨⟩⟩ := Option.ite_none_right_eq_some.mp hd
    exact h.restage (by simp [hstage]) rfl (.inl hdone)
  | managerClosed =>
    obtain ⟨⟨hstage, -⟩, ⟨⟩⟩ := Option.ite_none_right_eq_some.mp hd
    exact h.restage (by simp [hstage]) rfl (Bool.or_eq_true_iff.mp hspared)
  | contextDone =>
    obtain ⟨⟨hstage, hctx⟩, ⟨⟩⟩ := Option.ite_none_right_eq_some.mp hd
    exact h.restage (by simp [hstage]) rfl (.inr hctx)
  | finish =>
    obtain ⟨hstage, ⟨⟩⟩ := Option.ite_none_right_eq_some.mp hd
    refine h.close (fun hopen => .inr (.inl ?_)) id (Subscription.closeLocked_done _ _)
    have hstaged := h.staged
    rw [Staged, hstage] at hstaged
    rcases hstaged with hdone | hctx
    · rw [hopen] at hdone
      cases hdone
    · exact hctx
  | receive => exact h.receive hd
  | closeSubscription =>
    simp only [perform] at hd
    have hstaged := h.staged
    split at hd
    · cases hd
    · cases hd
    cases hd
    refine h.close (fun _ => .inl rfl) (fun _ => rfl) ?_
    unfold Staged at hstaged ⊢
    dsimp only
    split at hstaged
    · exact hstaged
    · exact hstaged
    · exact .inl (Subscription.closeLocked_done _ _)
    · exact Subscription.closeLocked_done _ _
    · trivial
  | closeManager =>
    cases hd
    exact ⟨h.source, h.near, h.running, h.delivered, h.complete, h.unmarked, h.staged, h.ended⟩
  | cancelContext =>
    cases hd
    exact h.advance (h.source.step .cancelContext) rfl (fun _ => rfl) le_rfl
  | closeStore =>
    cases hd
    exact h.advance (h.source.step .closeStore) rfl id le_rfl

theorem Inv.step (h : d.Inv start) (hstep : SparedStep d d') : d'.Inv start := by
  obtain ⟨a, hstep, hspared⟩ := hstep
  cases hstep with
  | write _ hw => exact h.advance (h.source.write hw) rfl id hw.logStart_le
  | act a hd => exact h.act (hspared a rfl) hd

theorem Inv.steps (h : d.Inv start) (hsteps : ReflTransGen SparedStep d d') :
    d'.Inv start := by
  induction hsteps with
  | refl => exact h
  | tail _ hstep ih => exact ih.step hstep

/-! ## Everything gets delivered -/

/-- The forwarder waits for the source, and the consumer has received everything. -/
structure Idle (d : Durable) (w : Watched) (opts : SubscribeOptions) : Prop where
  stage : d.stage = .selecting
  ch : d.sub.ch = []
  goesOn : d.sub.done = false
  source : d.source = w
  opts : d.sub.opts = opts
  running : d.panicked = false

theorem spared_act (a : Action) (hspared : d.spared a = true) (hd : d.act a = some d') :
    SparedStep d d' :=
  ⟨some a, .act a hd, fun _ hx => Option.some.inj hx ▸ hspared⟩

theorem spared_perform (hrun : d.panicked = false) (a : Action) (hspared : d.spared a = true)
    (hd : d.perform a = some d') : SparedStep d d' :=
  spared_act a hspared ((act_of_running hrun a).trans hd)

theorem receive_all (d : Durable) (hrun : d.panicked = false) :
    ReflTransGen SparedStep d
      { d with sub := { d.sub with ch := [] }, received := d.received ++ d.sub.ch } := by
  generalize hch : d.sub.ch = ch
  induction ch generalizing d with
  | nil => rw [List.append_nil, ← hch]
  | cons x ch ih =>
    have hd : d.perform .receive =
        some { d with sub := { d.sub with ch := ch }, received := d.received ++ [x] } := by
      simp only [perform, hch]
    have hrest := ih { d with sub := { d.sub with ch := ch }, received := d.received ++ [x] } hrun
      rfl
    rw [List.append_assoc, List.singleton_append] at hrest
    exact .head (spared_perform hrun .receive rfl hd) hrest

theorem offer_received {ev : Event} (hstage : d.stage = .offering (.first ev))
    (hch : d.sub.ch = []) (hopen : d.sub.done = false) (hrun : d.panicked = false) :
    ∃ d', ReflTransGen SparedStep d d' ∧ Idle d' d.source d.sub.opts := by
  have hroom : d.sub.ch.length < d.sub.size := by
    rw [hch]
    exact d.sub.size_pos
  have hoffer : d.perform .offer =
      some { d with
        sub := { d.sub with ch := d.sub.ch ++ [⟨ev, d.sub.gap⟩], gap := false }
        stage := .checking } := by
    simp only [perform, hstage, Subscription.offer_first_of_room hopen hroom]
  set d₁ : Durable := { d with
    sub := { d.sub with ch := d.sub.ch ++ [⟨ev, d.sub.gap⟩], gap := false }, stage := .checking }
    with hd₁
  have hopen₁ : d₁.sub.done = false := hopen
  have hcheck : d₁.perform .check = some { d₁ with stage := .selecting } := by
    rw [perform, if_pos rfl, hopen₁]
    rfl
  refine ⟨_, .head (spared_perform hrun .offer (by simp [spared, hroom]) hoffer)
    (.head (spared_perform hrun .check rfl hcheck) (receive_all _ hrun)), ?_⟩
  exact ⟨rfl, rfl, hopen, rfl, rfl, hrun⟩

/-- From any point of its loop the forwarder comes back to wait for the source. -/
theorem Inv.settle (h : d.Inv start) (hopen : d.sub.done = false)
    (hctx : d.source.ctxDone = false) :
    ∃ d', ReflTransGen SparedStep d d' ∧ Idle d' d.source d.sub.opts := by
  have hreceived := receive_all d h.running
  set d₁ : Durable :=
    { d with sub := { d.sub with ch := [] }, received := d.received ++ d.sub.ch } with hd₁
  have hstaged := h.staged
  cases hstage : d.stage with
  | starting =>
    have hstart : d₁.perform .start =
        some { d₁ with stage := .selecting, finishErr := d₁.ctxErr } := by
      rw [perform, if_pos hstage]
    exact ⟨_, .tail hreceived (spared_perform h.running .start rfl hstart), rfl, rfl, hopen, rfl,
      rfl, h.running⟩
  | selecting => exact ⟨d₁, hreceived, hstage, rfl, hopen, rfl, rfl, h.running⟩
  | offering o =>
    rw [Staged, hstage] at hstaged
    cases o with
    | evict ev => exact hstaged.elim
    | last ev => exact hstaged.elim
    | first ev =>
      obtain ⟨d', hsteps, hidle⟩ := offer_received (d := d₁) hstage rfl hopen h.running
      exact ⟨d', hreceived.trans hsteps, hidle⟩
  | checking =>
    have hopen₁ : d₁.sub.done = false := hopen
    have hcheck : d₁.perform .check = some { d₁ with stage := .selecting } := by
      rw [perform, if_pos hstage, hopen₁]
      rfl
    exact ⟨_, .tail hreceived (spared_perform h.running .check rfl hcheck), rfl, rfl, hopen, rfl,
      rfl, h.running⟩
  | returning =>
    rw [Staged, hstage] at hstaged
    simp [hopen, hctx] at hstaged
  | finished =>
    rw [Staged, hstage] at hstaged
    simp [hopen] at hstaged

/-- What the pump sends on its own reaches the consumer. -/
theorem Idle.drive {w' : Watched} {ms : List Memory.Move} (h : d.Idle w opts)
    (hinv : d.Inv start) (hsized : w.Sized) (hdrive : Watched.drive ms w = some w') :
    ∃ d', ReflTransGen SparedStep d d' ∧ Idle d' w' opts := by
  induction ms generalizing d w with
  | nil =>
    cases hdrive
    exact ⟨d, .refl, h⟩
  | cons m ms ih =>
    obtain ⟨hstage, hch, hopen, rfl, rfl, hrun⟩ := h
    rw [Watched.drive] at hdrive
    split at hdrive
    · rename_i p hp
      by_cases hm : m = .send
      · subst hm
        cases hbatch : d.source.pump.batch with
        | nil => simp [Memory.Pump.move, hbatch] at hp
        | cons ev rest =>
          have hhand : d.perform .handOver = some { d with
              source := { d.source with pump := p }
              stage := if d.sub.opts.wants ev then .offering (.first ev) else .selecting } := by
            simp only [perform, hstage, hbatch, hp, Option.map_some]
          have hstep := spared_perform hrun .handOver rfl hhand
          have hinv₁ := hinv.step hstep
          by_cases hwants : d.sub.opts.wants ev = true
          · rw [if_pos hwants] at hstep hinv₁
            obtain ⟨d₁, hoffered, hidle⟩ := offer_received (d := { d with
              source := { d.source with pump := p }, stage := .offering (.first ev) })
              rfl hch hopen hrun
            obtain ⟨d', hsteps, hidle'⟩ := ih hidle (hinv₁.steps hoffered) hsized hdrive
            exact ⟨d', .head hstep (hoffered.trans hsteps), hidle'⟩
          · rw [if_neg hwants] at hstep hinv₁
            obtain ⟨d', hsteps, hidle'⟩ := ih (d := { d with
              source := { d.source with pump := p }, stage := .selecting })
              ⟨rfl, hch, hopen, rfl, rfl, hrun⟩ hinv₁ hsized hdrive
            exact ⟨d', .head hstep hsteps, hidle'⟩
      · have hpump : d.perform (.pump m) =
            some { d with source := { d.source with pump := p } } := by
          rw [perform, if_neg hm, hinv.source.move64_eq (fun _ => hsized) hinv.near, hp]
          rfl
        have hspared : d.spared (.pump m) = true := by
          cases m with
          | read => exact decide_eq_true hsized
          | send | wake | cancel | close => rfl
        have hstep := spared_perform hrun (.pump m) hspared hpump
        obtain ⟨d', hsteps, hidle'⟩ := ih (d := { d with source := { d.source with pump := p } })
          ⟨hstage, hch, hopen, rfl, rfl, hrun⟩ (hinv.step hstep) hsized hdrive
        exact ⟨d', .head hstep hsteps, hidle'⟩
    · cases hdrive

theorem Inv.catchesUp (h : d.Inv start) (hsized : d.source.Sized) (hopen : d.sub.done = false)
    (hctx : d.source.ctxDone = false) (hlive : ∀ why, d.source.pump.stage ≠ .ended why) :
    ∃ d', ReflTransGen SparedStep d d' ∧
      (d'.received.map Delivery.event = (d.source.events.drop (start - 1)).filter d.sub.opts.wants ∨
        d'.source.pump.stage = .ended .evicted) := by
  obtain ⟨d₁, hsettled, hidle⟩ := h.settle hopen hctx
  obtain ⟨ms, w, -, hdrive, hdone⟩ := h.source.catchesUp hlive
  obtain ⟨d', hsteps, hidle'⟩ := hidle.drive (h.steps hsettled) hsized hdrive
  have hall := hsettled.trans hsteps
  refine ⟨d', hall, ?_⟩
  rcases hdone with hsent | hevicted
  · have hcomplete := (h.steps hall).complete hidle'.goesOn
    rw [inFlight_of_stage (by simp [hidle'.stage]), List.append_nil, Durable.delivered, matching,
      hidle'.ch, List.append_nil, hidle'.source, hidle'.opts, hsent] at hcomplete
    exact .inl hcomplete
  · rw [hidle'.source]
    exact .inr hevicted

end Durable

theorem Durable.steps_of_drive {as : List Action} {d d' : Durable}
    (h : Actions.drive Durable.act as d = some d') :
    ReflTransGen (fun d d' => ∃ a, Step d a d') d d' := by
  refine ReflTransGen.mono ?_ d d' (Actions.steps_of_drive_free h)
  rintro d d' ⟨a, ha, -⟩
  exact ⟨some a, .act a ha⟩

end DagWorker.Manager
