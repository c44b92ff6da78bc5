import DagWorker.File.Log
import DagWorker.Support.Replay

/-!
# The gate

The one clock and the one jitter source the in-memory store sees.  A live command takes one
branch of its program, and the gate records its readings.  During replay the gate answers
from the recorded readings, and remembers when they ran out.
-/

namespace DagWorker.File

variable {J : Int → Prop}

/-- The gate in replay. -/
structure Gate where
  clock : List Int := []
  jitter : List Int := []
  lastClock : Int := 0
  exhausted : Bool := false
deriving DecidableEq, Repr

namespace Gate

/-- Load the readings for the next record to be replayed. -/
def feed (g : Gate) (rd : Readings) : Gate :=
  { g with clock := rd.clock, jitter := rd.jitter, exhausted := false }

/-- Replay asked for a reading the log did not have. -/
def drifted (g : Gate) : Bool := g.exhausted

def now (g : Gate) : Int × Gate :=
  match g.clock with
  | [] => (g.lastClock, { g with exhausted := true })
  | t :: c => (t, { g with clock := c, lastClock := t })

def draw (g : Gate) : Int × Gate :=
  match g.jitter with
  | [] => (0, { g with exhausted := true })
  | v :: j => (v, { g with jitter := j })

/-- The readings are taken, and all of them. -/
def Spent (g : Gate) : Prop := g.clock = [] ∧ g.jitter = [] ∧ g.exhausted = false

instance (g : Gate) : Decidable g.Spent := inferInstanceAs (Decidable (_ ∧ _))

end Gate

variable {α β : Type}

open Prog

/-- A program that gets its answers from the gate, and ranges over maps in any order. -/
inductive Replays : Prog α → Gate → α → Gate → Prop
  | ret (a : α) (g : Gate) : Replays (ret a) g a g
  | now {k : Int → Prog α} {g g' : Gate} {a : α} :
      Replays (k g.now.1) g.now.2 a g' → Replays (now k) g a g'
  | jitter {b : Int} {k : Int → Prog α} {g g' : Gate} {a : α} :
      Replays (k g.draw.1) g.draw.2 a g' → Replays (jitter b k) g a g'
  | range {keys : List String} {k : List String → Prog α} {g g' : Gate} {a : α}
      (l : List String) : l.Perm keys → Replays (k l) g a g' → Replays (range keys k) g a g'

/-- The replay that ranges over maps in the order their keys are listed in. -/
def replayOf : Prog α → Gate → α × Gate
  | .ret a, g => (a, g)
  | .now k, g => replayOf (k g.now.1) g.now.2
  | .jitter _ k, g => replayOf (k g.draw.1) g.draw.2
  | .range keys k, g => replayOf (k keys) g

theorem replays_replayOf (p : Prog α) (g : Gate) :
    Replays p g (replayOf p g).1 (replayOf p g).2 := by
  induction p generalizing g with
  | ret a => exact Replays.ret a g
  | now k ih => exact Replays.now (ih _ _)
  | jitter b k ih => exact Replays.jitter (ih _ _)
  | range keys k ih => exact Replays.range keys (List.Perm.refl keys) (ih _ _)

/-- A program that matches a recorded branch takes from the gate the readings of the
branch, no more and no fewer, and ends with a related result. -/
theorem Replays.of_matches {R : α → β → Prop} {p : Prog α} {q : Prog β} {c j c' j' : List Int}
    {a : α} {b : β} {g g' : Gate} (hm : Matches J R p q) (hp : Reads p c j a) (hj : ∀ v ∈ j, J v)
    (hq : Replays q g b g') (hc : g.clock = c ++ c') (hjs : g.jitter = j ++ j') :
    R a b ∧ g'.clock = c' ∧ g'.jitter = j' ∧ g'.exhausted = g.exhausted := by
  induction hp generalizing q g with
  | ret a =>
    cases hm with
    | ret hab =>
      cases hq
      exact ⟨hab, hc, hjs, rfl⟩
  | @now _ c _ _ t _ ih =>
    cases hm with
    | now hk =>
      cases hq with
      | now hq =>
        have hnow : g.now = (t, { g with clock := c ++ c', lastClock := t }) := by
          rw [Gate.now, hc, List.cons_append]
        rw [hnow] at hq
        have h := ih (hk t) hj hq rfl hjs
        exact h
  | @jitter _ _ _ j _ v _ ih =>
    cases hm with
    | jitter hk =>
      cases hq with
      | jitter hq =>
        have hdraw : g.draw = (v, { g with jitter := j ++ j' }) := by
          rw [Gate.draw, hjs, List.cons_append]
        rw [hdraw] at hq
        have h := ih (hk v (hj v (.head _)))
          (fun w hw => hj w (.tail _ hw)) hq hc rfl
        exact h
  | range l hl _ ih =>
    cases hm with
    | range hk =>
      cases hq with
      | range l' hl' hq => exact ih (hk l l' hl hl') hj hq hc hjs

/-- Fed with the readings of a branch, a matching program takes all of them. -/
theorem Replays.of_matches_feed {R : α → β → Prop} {p : Prog α} {q : Prog β} {rd : Readings} {a : α}
    {b : β} {g g' : Gate} (hm : Matches J R p q) (hp : Reads p rd.clock rd.jitter a)
    (hj : ∀ v ∈ rd.jitter, J v) (hq : Replays q (g.feed rd) b g') : R a b ∧ g'.Spent := by
  have hclock : (g.feed rd).clock = rd.clock ++ [] := (List.append_nil _).symm
  have hjitter : (g.feed rd).jitter = rd.jitter ++ [] := (List.append_nil _).symm
  obtain ⟨hR, hc, hjs, hex⟩ := hq.of_matches hm hp hj hclock hjitter
  exact ⟨hR, hc, hjs, hex⟩

end DagWorker.File
