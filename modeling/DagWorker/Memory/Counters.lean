import DagWorker.Memory.Slots
import DagWorker.Support.Count

/-!
# Counters

The counters of a scope are changed around the mutation of the very fields that
select them.  Each of them counts the nodes that belong to it.
-/

namespace DagWorker.Memory.Scope

open Function

variable (st : ScopeStats) (d : Int)

def inBucket (s : Scope) (b : Bucket) (h : ℕ) : Bool :=
  (s.recs h).alive && decide (bucket (s.recs h) = b)

def sumCounters (st : ScopeStats) : Int :=
  st.blocked + st.scheduled + st.ready + st.inProgress + st.succeeded + st.failed

/-- Each counter counts the nodes that belong to it, and the total is their
sum. -/
structure Counted (s : Scope) : Prop where
  counter_eq : ∀ b, counter s.stats b = (Count.slots s.size (s.inBucket b) : ℕ)
  total_eq : s.stats.total = sumCounters s.stats

@[simp] theorem counter_addCounter (b b' : Bucket) :
    counter (addCounter st d b) b' = counter st b' + if b' = b then d else 0 := by
  cases b <;> cases b' <;> simp [addCounter, counter]

@[simp] theorem total_addCounter (b : Bucket) : (addCounter st d b).total = st.total := by
  cases b <;> rfl

@[simp] theorem sumCounters_addCounter (b : Bucket) :
    sumCounters (addCounter st d b) = sumCounters st + d := by
  cases b <;> simp only [addCounter, sumCounters] <;> omega

@[simp] theorem counter_total (t : Int) (b : Bucket) :
    counter { st with total := t } b = counter st b := by
  cases b <;> rfl

@[simp] theorem sumCounters_total (t : Int) :
    sumCounters { st with total := t } = sumCounters st := rfl

section Stats

variable (s : Scope) (h : ℕ)

/-- The statistics once node `h` has changed to the record `r`. -/
def movedStats (r : NodeRec) : ScopeStats :=
  addCounter (addCounter s.stats (-1) (bucket (s.recs h))) 1 (bucket r)

theorem makeReady_stats :
    (s.makeReady h).stats =
      s.movedStats h { s.recs h with phase := .ready, status := .new } := by
  simp [makeReady, pushReady, movedStats]

theorem promote_stats :
    (s.promote h).stats =
      s.movedStats h { s.recs h with phase := .ready, status := .new } :=
  makeReady_stats _ _

theorem makeBlocked_stats :
    (s.makeBlocked h).stats =
      s.movedStats h { s.recs h with phase := .blocked, status := .new } := by
  simp [makeBlocked, removeReady, movedStats]

theorem grant_stats (kind worker : String) (now leaseFor : Int) :
    (s.grant h kind worker now leaseFor).stats =
      s.movedStats h (grantedRec (s.recs h) worker now) := by
  simp [grant, popKind, movedStats, grantedRec]

theorem retry_stats (reason : Reason) (msg : String) (now delay : Int) :
    (s.retry h reason msg now delay).stats =
      s.movedStats h (retriedRec (s.recs h) reason msg now) := by
  simp [retry, schedule, dropLease, removeReady, movedStats, retriedRec, bucket]

theorem finish_stats (it : Item) (now : Int) :
    (s.finish it now).stats =
      s.movedStats it.h (finishedRec (s.recs it.h) it now) := by
  simp [finish, removeReady, movedStats, finishedRec]

end Stats

namespace Counted

variable {s s' : Scope} {h : ℕ} {r : NodeRec}

theorem inBucket_update (hrecs : s'.recs = update s.recs h r) (b : Bucket) (k : ℕ) :
    s'.inBucket b k =
      if k = h then r.alive && decide (bucket r = b) else s.inBucket b k := by
  by_cases hk : k = h <;> simp [inBucket, hrecs, hk]

theorem update_rec (hc : s.Counted) (hsize : s'.size = s.size)
    (hcount : ∀ b, counter s'.stats b = counter s.stats b)
    (htotal : s'.stats.total = s.stats.total)
    (hrecs : s'.recs = update s.recs h r) (halive : r.alive = (s.recs h).alive)
    (hbucket : bucket r = bucket (s.recs h)) : s'.Counted := by
  constructor
  · intro b
    rw [hcount, hc.counter_eq, hsize]
    congr 1
    refine Count.slots_congr fun k _ => ?_
    rw [inBucket_update hrecs, halive, hbucket]
    split <;> simp_all [inBucket]
  · have hsum : ∀ st : ScopeStats, sumCounters st =
        counter st .blocked + counter st .scheduled + counter st .ready +
          counter st .inProgress + counter st .succeeded + counter st .failed := fun _ => rfl
    rw [htotal, hc.total_eq, hsum, hsum]
    simp only [hcount]

theorem move (hc : s.Counted) (hsize : s'.size = s.size) (hlt : h < s.size)
    (hrecs : s'.recs = update s.recs h r) (hh : s.Alive h) (halive : r.alive = true)
    (hstats : s'.stats = s.movedStats h r) : s'.Counted := by
  constructor
  · intro b
    have hslots := Count.slots_change (p := s.inBucket b) (q := s'.inBucket b) hlt fun k hk => by
      rw [inBucket_update hrecs, if_neg hk]
    rw [inBucket_update hrecs, if_pos rfl, halive] at hslots
    have hold : s.inBucket b h = decide (bucket (s.recs h) = b) := by simp [inBucket, hh]
    rw [hold] at hslots
    rw [hstats, hsize, movedStats, counter_addCounter, counter_addCounter, hc.counter_eq]
    simp only [Bool.true_and, Bool.toNat, Bool.cond_decide, eq_comm (b := b)] at hslots
    split_ifs at hslots ⊢ <;> omega
  · rw [hstats, movedStats]
    simp [hc.total_eq]

theorem slots_created (hs : s.Indexed) (spec : NodeSpec) (now : Int) (b : Bucket) :
    Count.slots (s.created spec now).size ((s.created spec now).inBucket b) =
      Count.slots s.size (s.inBucket b) + (decide (b = .blocked)).toNat := by
  have hupd := inBucket_update (s := s) (created_recs s spec now) b
  have hnew : (s.created spec now).inBucket b s.slot = decide (b = .blocked) := by
    rw [hupd, if_pos rfl]
    simp [newRec, bucket, eq_comm]
  have hold : s.inBucket b s.slot = false := by
    have := hs.not_alive_slot
    simp_all [inBucket]
  have hslot := hs.slot_lt_created spec now
  rw [created_size] at hslot ⊢
  by_cases hfree : s.free = []
  · -- a slot past the end of the table
    have heq : s.slot = s.size := by simp [slot, hfree]
    rw [if_pos hfree, Count.slots_succ, ← heq, hnew]
    congr 1
    refine Count.slots_congr fun k hk => ?_
    rw [hupd, if_neg (by omega)]
  · -- a slot that was freed before
    rw [if_neg hfree] at hslot ⊢
    have hchange := Count.slots_change (p := s.inBucket b)
      (q := (s.created spec now).inBucket b) hslot fun k hk => by rw [hupd, if_neg hk]
    rw [hnew, hold] at hchange
    simpa using hchange

theorem create (hc : s.Counted) (hs : s.Indexed) (spec : NodeSpec) (now : Int) :
    (s.created spec now).Counted := by
  constructor
  · intro b
    rw [slots_created hs, created_stats, counter_addCounter, counter_total, hc.counter_eq]
    by_cases hb : b = .blocked <;> simp [hb]
  · simp [hc.total_eq]

theorem delete (hc : s.Counted) (hlt : h < s.size) (hh : s.Alive h) (id : NodeID) :
    (s.deleted h id).Counted := by
  constructor
  · intro b
    have hupd := inBucket_update (s := s) (deleted_recs s h id) b
    have hslots := Count.slots_change (p := s.inBucket b) (q := (s.deleted h id).inBucket b)
      hlt fun k hk => by rw [hupd, if_neg hk]
    have hold : s.inBucket b h = decide (b = bucket (s.recs h)) := by
      simp [inBucket, hh, eq_comm]
    rw [hupd, if_pos rfl, hold] at hslots
    rw [deleted_stats, counter_addCounter, counter_total, hc.counter_eq, deleted_size]
    simp only [Bool.false_and, Bool.toNat, Bool.cond_decide, cond_false] at hslots
    split_ifs at hslots ⊢ <;> omega
  · simp [hc.total_eq]

end Counted
end DagWorker.Memory.Scope
