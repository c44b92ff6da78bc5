import DagWorker.Memory.Slots

/-!
# Queues

The lease heap, the backoff heap and the ready heap of each kind hold exactly the nodes of
their phase.  `Queues` describes their contents one step of the code at a time; `Queued`
says that they are those the phases prescribe.
-/

namespace DagWorker.Memory.Scope

open Function
open PQ (Heap)

variable {kind : String}

/-- Contents of the ready queues once `h` has entered the one of `kind`. -/
def withReady (ready : String → ℕ → Bool) (kind : String) (h : ℕ) : String → ℕ → Bool :=
  fun kd k => if kd = kind then decide (k = h) || ready kind k else ready kd k

/-- Contents of the ready queues once `h` has left the one of `kind`. -/
def withoutReady (ready : String → ℕ → Bool) (kind : String) (h : ℕ) : String → ℕ → Bool :=
  fun kd k => if kd = kind then decide (k ≠ h) && ready kind k else ready kd k

section Contents

variable (ready : String → ℕ → Bool) (kind kd : String) {h k : ℕ}

theorem withReady_of_ne (hk : k ≠ h) : withReady ready kind h kd k = ready kd k := by
  by_cases hkd : kd = kind <;> simp [withReady, hkd, hk]

theorem withReady_self : withReady ready kind h kd h = (decide (kd = kind) || ready kd h) := by
  by_cases hkd : kd = kind <;> simp [withReady, hkd]

theorem withoutReady_of_ne (hk : k ≠ h) : withoutReady ready kind h kd k = ready kd k := by
  by_cases hkd : kd = kind <;> simp [withoutReady, hkd, hk]

theorem withoutReady_self :
    withoutReady ready kind h kd h = (decide (kd ≠ kind) && ready kd h) := by
  by_cases hkd : kd = kind <;> simp [withoutReady, hkd]

end Contents

/-- The contents of the three kinds of queues. -/
structure Queues (s : Scope) (leased parked : ℕ → Bool) (ready : String → ℕ → Bool) :
    Prop where
  leases : s.leases.Holds leased
  scheduled : s.scheduled.Holds parked
  readyHeap : ∀ kind, (s.readyHeap kind).Holds (ready kind)

namespace Queues

variable {s s' : Scope} {h : ℕ} {leased parked leased' parked' : ℕ → Bool}
  {ready ready' : String → ℕ → Bool}

theorem frame (hq : s.Queues leased parked ready) (hl : s'.leases = s.leases)
    (hp : s'.scheduled = s.scheduled) (hr : s'.ready = s.ready) :
    s'.Queues leased parked ready := by
  refine ⟨hl ▸ hq.leases, hp ▸ hq.scheduled, fun kind => ?_⟩
  have hheap : s'.readyHeap kind = s.readyHeap kind := by simp only [Scope.readyHeap, hr]
  exact hheap ▸ hq.readyHeap kind

theorem congr (hq : s.Queues leased parked ready) (hl : ∀ k, leased' k = leased k)
    (hp : ∀ k, parked' k = parked k) (hr : ∀ kind k, ready' kind k = ready kind k) :
    s.Queues leased' parked' ready' :=
  ⟨hq.leases.congr hl, hq.scheduled.congr hp, fun kind => (hq.readyHeap kind).congr (hr kind)⟩

variable (hq : s.Queues leased parked ready)
include hq

theorem modRec (h : ℕ) (f : NodeRec → NodeRec) :
    (s.modRec h f).Queues leased parked ready := hq.frame rfl rfl rfl

theorem setReadyAt (h : ℕ) (t : Int) :
    (s.setReadyAt h t).Queues leased parked ready := hq.frame rfl rfl rfl

theorem setDeadline (h : ℕ) (t : Int) :
    (s.setDeadline h t).Queues leased parked ready := hq.frame rfl rfl rfl

theorem leaveBucket (h : ℕ) :
    (s.leaveBucket h).Queues leased parked ready := hq.frame rfl rfl rfl

theorem enterBucket (h : ℕ) :
    (s.enterBucket h).Queues leased parked ready := hq.frame rfl rfl rfl

theorem stampFifo (h : ℕ) :
    (s.stampFifo h).Queues leased parked ready := hq.frame rfl rfl rfl

theorem ringDoorbell : s.ringDoorbell.Queues leased parked ready := hq.frame rfl rfl rfl

theorem removeLease (h : ℕ) :
    (s.removeLease h).Queues (fun k => decide (k ≠ h) && leased k) parked ready :=
  ⟨hq.leases.remove _ h, hq.scheduled, hq.readyHeap⟩

theorem pushLease (h : ℕ) :
    (s.pushLease h).Queues (fun k => decide (k = h) || leased k) parked ready :=
  ⟨hq.leases.push _ h, hq.scheduled, hq.readyHeap⟩

theorem removeScheduled (h : ℕ) :
    (s.removeScheduled h).Queues leased (fun k => decide (k ≠ h) && parked k) ready :=
  ⟨hq.leases, hq.scheduled.remove _ h, hq.readyHeap⟩

theorem popScheduled (hp : s.scheduled.peek = some h) :
    s.popScheduled.Queues leased (fun k => decide (k ≠ h) && parked k) ready :=
  ⟨hq.leases, hq.scheduled.pop _ hp, hq.readyHeap⟩

theorem pushScheduled (h : ℕ) :
    (s.pushScheduled h).Queues leased (fun k => decide (k = h) || parked k) ready :=
  ⟨hq.leases, hq.scheduled.push _ h, hq.readyHeap⟩

theorem setReady {q : Heap} {p : ℕ → Bool} (hp : q.Holds p) :
    (s.setReady kind q).Queues leased parked
      (fun kd k => if kd = kind then p k else ready kd k) := by
  refine ⟨hq.leases, hq.scheduled, fun kd => ?_⟩
  by_cases hk : kd = kind
  · subst hk
    simpa [Scope.readyHeap] using hp
  · simpa [Scope.readyHeap, hk] using hq.readyHeap kd

theorem removeReady (kind : String) (h : ℕ) :
    (s.removeReady kind h).Queues leased parked (withoutReady ready kind h) :=
  hq.setReady ((hq.readyHeap kind).remove _ h)

theorem pushReady (kind : String) (h : ℕ) :
    (s.pushReady kind h).Queues leased parked (withReady ready kind h) :=
  hq.setReady ((hq.readyHeap kind).push _ h)

theorem popKind (hp : (s.readyHeap kind).peek = some h) :
    (s.popKind kind).Queues leased parked (withoutReady ready kind h) :=
  hq.setReady ((hq.readyHeap kind).pop _ hp)

theorem makeReady (h : ℕ) :
    (s.makeReady h).Queues leased (fun k => decide (k ≠ h) && parked k)
      (withReady ready (s.recs h).kind h) := by
  have hkind : ((s.makeReady h).recs h).kind = (s.recs h).kind := by simp [makeReady_recs]
  rw [← hkind]
  exact ((((((hq.leaveBucket h).modRec h _).setReadyAt h 0).removeScheduled h).stampFifo
    h).pushReady _ h).enterBucket h |>.ringDoorbell

theorem makeBlocked (h : ℕ) :
    (s.makeBlocked h).Queues leased (fun k => decide (k ≠ h) && parked k)
      (withoutReady ready (s.recs h).kind h) :=
  (((((hq.leaveBucket h).removeReady _ h).removeScheduled h).setReadyAt h 0).modRec
    h _).enterBucket h

theorem schedule (h : ℕ) (t : Int) :
    (s.schedule h t).Queues leased (fun k => decide (k = h) || parked k)
      (withoutReady ready (s.recs h).kind h) :=
  (((((hq.leaveBucket h).removeReady _ h).modRec h _).setReadyAt h t).pushScheduled
    h).enterBucket h

theorem retry (h : ℕ) (reason : Reason) (msg : String)
    (now delay : Int) :
    (s.retry h reason msg now delay).Queues (fun k => decide (k ≠ h) && leased k)
      (fun k => decide (k = h) || parked k) (withoutReady ready (s.recs h).kind h) := by
  have hdrop := (hq.removeLease h).setDeadline h 0
  have hsched := (hdrop.modRec h fun r =>
    { r with reason := reason, message := msg, worker := "", updatedAt := now }).schedule
      h (int64 (now + delay))
  simp only [modRec_recs, update_self] at hsched
  exact hsched

theorem finish (it : Item) (now : Int) :
    (s.finish it now).Queues (fun k => decide (k ≠ it.h) && leased k)
      (fun k => decide (k ≠ it.h) && parked k) (withoutReady ready (s.recs it.h).kind it.h) :=
  (((((((hq.leaveBucket it.h).removeReady _ it.h).removeScheduled it.h).removeLease
    it.h).setDeadline it.h 0).setReadyAt it.h 0).modRec it.h _).enterBucket it.h

theorem grant (worker : String) (now leaseFor : Int) (hp : (s.readyHeap kind).peek = some h) :
    (s.grant h kind worker now leaseFor).Queues (fun k => decide (k = h) || leased k) parked
      (withoutReady ready kind h) :=
  (((((hq.popKind hp).leaveBucket h).modRec h _).setDeadline h _).pushLease h).enterBucket h

theorem unqueue (h : ℕ) :
    (s.unqueue h).Queues (fun k => decide (k ≠ h) && leased k)
      (fun k => decide (k ≠ h) && parked k) (withoutReady ready (s.recs h).kind h) :=
  ((hq.removeReady _ h).removeScheduled h).removeLease h

theorem renew (h : ℕ) (t : Int) :
    (s.renew h t).Queues leased parked ready :=
  ⟨hq.leases.fix _ h, hq.scheduled, hq.readyHeap⟩

end Queues

def inPhase (s : Scope) (p : Phase) (h : ℕ) : Bool :=
  (s.recs h).alive && decide ((s.recs h).phase = p)

def readyOf (s : Scope) (kind : String) (h : ℕ) : Bool :=
  s.inPhase .ready h && decide ((s.recs h).kind = kind)

/-- Each queue holds exactly the nodes of its phase. -/
abbrev Queued (s : Scope) : Prop :=
  s.Queues (s.inPhase .claimed) (s.inPhase .scheduled) s.readyOf

section Move

variable {s s' : Scope} {h : ℕ} {r : NodeRec}

theorem inPhase_update (hrecs : s'.recs = update s.recs h r) (p : Phase) (k : ℕ) :
    s'.inPhase p k =
      if k = h then r.alive && decide (r.phase = p) else s.inPhase p k := by
  by_cases hk : k = h <;> simp [inPhase, hrecs, hk]

theorem readyOf_update (hrecs : s'.recs = update s.recs h r) (kind : String) (k : ℕ) :
    s'.readyOf kind k =
      if k = h then r.alive && decide (r.phase = .ready) && decide (r.kind = kind)
      else s.readyOf kind k := by
  by_cases hk : k = h <;> simp [readyOf, inPhase, hrecs, hk]

/-- A change of one record that keeps its phase and kind. -/
theorem Queued.update_rec (hq : s.Queued) (hl : s'.leases = s.leases)
    (hp : s'.scheduled = s.scheduled) (hr : s'.ready = s.ready)
    (hrecs : s'.recs = update s.recs h r) (halive : r.alive = (s.recs h).alive)
    (hphase : r.phase = (s.recs h).phase) (hkind : r.kind = (s.recs h).kind) :
    s'.Queued := by
  refine (hq.frame hl hp hr).congr ?_ ?_ ?_
  · intro k
    rw [inPhase_update hrecs, halive, hphase]
    split <;> simp_all [inPhase]
  · intro k
    rw [inPhase_update hrecs, halive, hphase]
    split <;> simp_all [inPhase]
  · intro kind k
    rw [readyOf_update hrecs, halive, hphase, hkind]
    split <;> simp_all [readyOf, inPhase]

/-- A node is in no ready queue but that of its kind. -/
theorem withoutReady_readyOf (kind : String) :
    withoutReady s.readyOf (s.recs h).kind h kind h = false := by
  rw [withoutReady_self]
  by_cases hk : kind = (s.recs h).kind
  · simp [hk]
  · simp [readyOf, Ne.symm hk]

/-- The queues after a node has moved to another phase, given their contents
there and elsewhere. -/
theorem Queued.of_move {leased parked : ℕ → Bool} {ready : String → ℕ → Bool}
    (hq : s'.Queues leased parked ready) (hrecs : s'.recs = update s.recs h r)
    (hleased : leased h = (r.alive && decide (r.phase = .claimed)))
    (hparked : parked h = (r.alive && decide (r.phase = .scheduled)))
    (hready : ∀ kind,
      ready kind h = (r.alive && decide (r.phase = .ready) && decide (r.kind = kind)))
    (hother : ∀ k ≠ h, leased k = s.inPhase .claimed k ∧ parked k = s.inPhase .scheduled k ∧
      ∀ kind, ready kind k = s.readyOf kind k) : s'.Queued := by
  refine hq.congr ?_ ?_ ?_
  · intro k
    rw [inPhase_update hrecs]
    split
    · simp_all
    · exact (hother k ‹_›).1.symm
  · intro k
    rw [inPhase_update hrecs]
    split
    · simp_all
    · exact (hother k ‹_›).2.1.symm
  · intro kind k
    rw [readyOf_update hrecs]
    split
    · simp_all
    · exact ((hother k ‹_›).2.2 kind).symm

variable (hq : s.Queued)
include hq

/-- Only the node at the head of a queue is in that queue. -/
theorem Queued.phase_of_peek (hp : (s.readyHeap kind).peek = some h) :
    s.Alive h ∧ (s.recs h).phase = .ready ∧ (s.recs h).kind = kind := by
  simpa [readyOf, inPhase, and_assoc] using (hq.readyHeap kind).of_peek hp

theorem Queued.scheduled_of_peek (hp : s.scheduled.peek = some h) :
    s.Alive h ∧ (s.recs h).phase = .scheduled := by
  simpa [inPhase] using hq.scheduled.of_peek hp

theorem Queued.claimed_of_peek (hp : s.leases.peek = some h) :
    s.Alive h ∧ (s.recs h).phase = .claimed := by
  simpa [inPhase] using hq.leases.of_peek hp

theorem Queued.makeReady (hh : s.Alive h) (hp : (s.recs h).phase = .blocked) :
    (s.makeReady h).Queued := by
  refine Queued.of_move (Queues.makeReady hq h) (makeReady_recs s h) ?_ ?_ ?_
    (by simp +contextual [withReady_of_ne])
  · simp [inPhase, hp]
  · simp
  · intro kind
    rw [withReady_self]
    simp [readyOf, inPhase, hp, hh, eq_comm]

theorem Queued.promote (hp : s.scheduled.peek = some h) : (s.promote h).Queued := by
  obtain ⟨hh, hphase⟩ := hq.scheduled_of_peek hp
  refine Queued.of_move (Queues.makeReady (hq.popScheduled hp) h) (promote_recs s h) ?_ ?_ ?_
    (by simp +contextual [withReady_of_ne])
  · simp [inPhase, hphase]
  · simp
  · intro kind
    rw [withReady_self]
    simp [readyOf, inPhase, hphase, hh, eq_comm]

theorem Queued.makeBlocked (hp : (s.recs h).phase = .ready) :
    (s.makeBlocked h).Queued := by
  refine Queued.of_move (Queues.makeBlocked hq h) (makeBlocked_recs s h) ?_ ?_ ?_
    (by simp +contextual [withoutReady_of_ne])
  · simp [inPhase, hp]
  · simp
  · intro kind
    rw [withoutReady_readyOf]
    simp

theorem Queued.retry (reason : Reason) (msg : String) (now delay : Int) (hh : s.Alive h) :
    (s.retry h reason msg now delay).Queued := by
  refine Queued.of_move (Queues.retry hq h reason msg now delay)
    (retry_recs s h reason msg now delay) ?_ ?_ ?_
    (by simp +contextual [withoutReady_of_ne])
  · simp [retriedRec]
  · simp [retriedRec, hh]
  · intro kind
    rw [withoutReady_readyOf]
    simp [retriedRec]

theorem Queued.finish (it : Item) (now : Int) :
    (s.finish it now).Queued := by
  refine Queued.of_move (Queues.finish hq it now) (finish_recs s it now) ?_ ?_ ?_
    (by simp +contextual [withoutReady_of_ne])
  · simp [finishedRec]
  · simp [finishedRec]
  · intro kind
    rw [withoutReady_readyOf]
    simp [finishedRec]

theorem Queued.grant (worker : String) (now leaseFor : Int)
    (hp : (s.readyHeap kind).peek = some h) : (s.grant h kind worker now leaseFor).Queued := by
  obtain ⟨hh, hphase, hkind⟩ := hq.phase_of_peek hp
  refine Queued.of_move (Queues.grant hq worker now leaseFor hp)
    (grant_recs s h kind worker now leaseFor) ?_ ?_ ?_
    (by simp +contextual [withoutReady_of_ne])
  · simp [grantedRec, hh]
  · simp [grantedRec, inPhase, hphase]
  · intro kd
    rw [← hkind, withoutReady_readyOf]
    simp [grantedRec]

theorem Queued.create (hs : s.Indexed) (spec : NodeSpec) (now : Int) :
    (s.created spec now).Queued := by
  have hdead : (s.recs s.slot).alive = false := by simpa using hs.not_alive_slot
  refine Queued.of_move (h := s.slot) (hq.frame rfl rfl rfl) (created_recs s spec now) ?_ ?_ ?_
    (by simp +contextual)
  · simp [inPhase, hdead, newRec]
  · simp [inPhase, hdead, newRec]
  · simp [readyOf, inPhase, hdead, newRec]

theorem Queued.delete (id : NodeID) (hp : (s.recs h).phase = .blocked ∨ (s.recs h).phase = .done) :
    (s.deleted h id).Queued := by
  refine Queued.of_move (h := h) (hq.frame rfl rfl rfl) (deleted_recs s h id) ?_ ?_ ?_
    (by simp +contextual)
  · rcases hp with hp | hp <;> simp [inPhase, hp]
  · rcases hp with hp | hp <;> simp [inPhase, hp]
  · rcases hp with hp | hp <;> simp [readyOf, inPhase, hp]

/-- Deleting a node once it has been taken out of its queue. -/
theorem Queued.discard (id : NodeID) : ((s.unqueue h).deleted h id).Queued := by
  have hrecs : ((s.unqueue h).deleted h id).recs = update s.recs h {} := rfl
  refine Queued.of_move ((Queues.unqueue hq h).frame rfl rfl rfl) hrecs ?_ ?_ ?_
    (by simp +contextual [withoutReady_of_ne])
  · simp
  · simp
  · intro kind
    rw [withoutReady_readyOf]
    simp

end Move

end DagWorker.Memory.Scope
