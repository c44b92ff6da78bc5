import DagWorker.Core.Node
import Mathlib.Data.List.Basic

/-!
# Subscriptions of a Manager

A subscription is a channel of bounded depth.  `offer` never blocks: when the channel is
full, the policy decides whether the oldest event is dropped or the subscription ends.
`offer` holds the subscription's lock, but the consumer receives without it, so that
`offer` is modelled by its single channel operations.
-/

namespace DagWorker.Manager

inductive OverflowPolicy
  | dropOldest
  | closeSlow
deriving DecidableEq, Repr

structure SubscribeOptions where
  scope : String := ""
  kinds : List EventKind := []
  nodeKinds : List String := []
  fromCursor : ℕ := 0
  replay : Bool := false
  bufferSize : ℕ := 0
  overflow : Option OverflowPolicy := none
  durable : Bool := false

def SubscribeOptions.wants (o : SubscribeOptions) (e : Event) : Bool :=
  (o.scope = "" || e.scope = o.scope) &&
    (o.kinds.isEmpty || o.kinds.contains e.effect.kind) &&
    (o.nodeKinds.isEmpty || o.nodeKinds.contains e.effect.nodeKind)

structure Config where
  subscriberBuffer : ℕ := 256
  overflow : OverflowPolicy := .dropOldest
  /-- `validate` rejects an empty buffer. -/
  subscriberBuffer_pos : 0 < subscriberBuffer := by decide

inductive SubErr
  /-- `ErrSubscriberLagged`. -/
  | lagged
  /-- `ctx.Err()` of a context that has ended. -/
  | context
  /-- `ErrClosed`. -/
  | closed
deriving DecidableEq, Repr

/-- An event as the consumer gets it. -/
structure Delivery where
  event : Event
  gap : Bool
deriving DecidableEq, Repr

structure Subscription where
  opts : SubscribeOptions
  pol : OverflowPolicy
  /-- The depth of the channel. -/
  size : ℕ
  size_pos : 0 < size
  /-- The events in the channel. -/
  ch : List Delivery := []
  err : Option SubErr := none
  /-- The channel is closed. -/
  done : Bool := false
  gap : Bool := false
  dropped : ℕ := 0

namespace Subscription

def new (cfg : Config) (opts : SubscribeOptions) : Subscription where
  opts := opts
  pol := opts.overflow.getD cfg.overflow
  size := if opts.bufferSize = 0 then cfg.subscriberBuffer else opts.bufferSize
  size_pos := by
    have hpos := cfg.subscriberBuffer_pos
    split
    · exact hpos
    · exact Nat.pos_of_ne_zero ‹_›

/-- A subscription is closed once, with the first error. -/
def closeLocked (s : Subscription) (err : Option SubErr) : Subscription :=
  if s.done then s
  else { s with done := true, err := if s.err = none then err else s.err }

/-- Where `offer` stands with an event. -/
inductive Offering
  /-- The first attempt to send. -/
  | first (ev : Event)
  /-- The oldest event is to be dropped. -/
  | evict (ev : Event)
  /-- The attempt to take its place. -/
  | last (ev : Event)
deriving DecidableEq

/-- One channel operation of `offer`, and what is left to do. -/
def offer (s : Subscription) : Offering → Subscription × Option Offering
  | .first ev =>
    if s.done then (s, none)
    else if s.ch.length < s.size then
      ({ s with ch := s.ch ++ [⟨ev, s.gap⟩], gap := false }, none)
    else if s.pol = .closeSlow then (s.closeLocked (some .lagged), none)
    else (s, some (.evict ev))
  | .evict ev =>
    ({ s with ch := s.ch.tail, dropped := s.dropped + 1, gap := true }, some (.last ev))
  | .last ev =>
    if s.ch.length < s.size then
      ({ s with ch := s.ch ++ [⟨ev, true⟩], gap := false }, none)
    else (s, none)

variable {s : Subscription}

@[simp] theorem closeLocked_opts (s : Subscription) (err : Option SubErr) :
    (s.closeLocked err).opts = s.opts := by
  unfold closeLocked
  split <;> rfl

@[simp] theorem closeLocked_ch (s : Subscription) (err : Option SubErr) :
    (s.closeLocked err).ch = s.ch := by
  unfold closeLocked
  split <;> rfl

@[simp] theorem closeLocked_gap (s : Subscription) (err : Option SubErr) :
    (s.closeLocked err).gap = s.gap := by
  unfold closeLocked
  split <;> rfl

@[simp] theorem closeLocked_done (s : Subscription) (err : Option SubErr) :
    (s.closeLocked err).done = true := by
  unfold closeLocked
  split
  · assumption
  · rfl

theorem closeLocked_err_ne (hopen : s.done = false) {err : SubErr} :
    (s.closeLocked (some err)).err ≠ none := by
  rw [closeLocked, hopen, if_neg (by simp)]
  split
  · simp
  · assumption

theorem closeLocked_of_done (h : s.done = true) (err : Option SubErr) :
    s.closeLocked err = s := if_pos h

/-- With room in the channel an event is delivered as it is. -/
theorem offer_first_of_room (hopen : s.done = false) (hroom : s.ch.length < s.size) (ev : Event) :
    s.offer (.first ev) = ({ s with ch := s.ch ++ [⟨ev, s.gap⟩], gap := false }, none) := by
  simp [offer, hopen, hroom]

theorem offer_first_of_done (hdone : s.done = true) (ev : Event) :
    s.offer (.first ev) = (s, none) := by
  simp [offer, hdone]

/-- A subscription that must not lose events ends instead. -/
theorem offer_first_of_full (hopen : s.done = false) (hfull : ¬s.ch.length < s.size)
    (hpol : s.pol = .closeSlow) (ev : Event) :
    s.offer (.first ev) = (s.closeLocked (some .lagged), none) := by
  simp [offer, hopen, hfull, hpol]

end Subscription
end DagWorker.Manager
