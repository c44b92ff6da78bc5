import DagWorker.Memory.Runs

/-!
# The event log of a scope

`Diary` relates a scope to all the events ever recorded in it: their cursors have no gaps,
and the scope's log is their retained end.  Only `record` touches the log, so the diary of
an operation is extended by exactly the effects it returns.
-/

namespace DagWorker.Memory.Scope

open Function

theorem appendLog_ring (s : Scope) (ef : Effect) :
    (s.appendLog ef).ring = s.ring.push { scope := s.name, effect := ef } := by
  unfold appendLog Ring.push ring
  dsimp only
  split
  · rfl
  · rfl

theorem appendLog_cursor (s : Scope) (ef : Effect) : (s.appendLog ef).cursor = s.cursor := by
  unfold appendLog
  dsimp only
  split
  · rfl
  · rfl

/-- What operations do to the log, one append at a time. -/
inductive Writes (s : Scope) : List Effect → Scope → Prop
  | nil : Writes s [] s
  | quiet {es : List Effect} {s₁ s₂ : Scope} : Writes s es s₁ → SameLog s₁ s₂ → Writes s es s₂
  | record {es : List Effect} {s₁ : Scope} (k : ℕ) (kind : EventKind) (fromStatus : Status)
      (t : Int) : Writes s es s₁ →
      Writes s (es ++ [(s₁.recordAt k kind fromStatus t).1]) (s₁.recordAt k kind fromStatus t).2

namespace Writes

variable {s s₁ s₂ : Scope} {es es' : List Effect}

theorem trans (h₁ : Writes s es s₁) (h₂ : Writes s₁ es' s₂) : Writes s (es ++ es') s₂ := by
  induction h₂ with
  | nil =>
    rw [List.append_nil]
    exact h₁
  | quiet _ hsame ih => exact ih.quiet hsame
  | record k kind fromStatus t _ ih =>
    rw [← List.append_assoc]
    exact ih.record k kind fromStatus t

theorem of_path (h : Path s es s₁) : Writes s es s₁ := by
  induction h with
  | nil => exact nil
  | step _ hstep ih => exact ih.quiet hstep.sameLog
  | emit k kind fromStatus t _ _ ih => exact ih.record k kind fromStatus t

theorem of_grants {ls : List Lease} (h : Grants s ls es s₁) : Writes s es s₁ := by
  induction h with
  | nil => exact nil
  | @snoc ls es₁ s₁ k kind worker now leaseFor t _ _ ih =>
    have hsame : SameLog s₁ (s₁.grant k kind worker now leaseFor) := by
      constructor <;> simp [grant, popKind, Scope.ring]
    exact (ih.quiet hsame).record k .transition _ t

end Writes

/-! ## All events of a scope -/

/-- The events `es` are all that was ever recorded in the scope: their cursors have no
gaps, and the log is their retained end. -/
structure Diary (es : List Effect) (s : Scope) : Prop where
  cursor : s.cursor = es.length
  stamps : es.map Effect.cursor = List.range' 1 es.length
  window : s.ring.Window (es.map (Event.mk s.name))

namespace Diary

variable {es es' : List Effect} {s s' : Scope}

theorem newScope (name : String) (cfg : ScopeConfig) {logCap : ℕ} (hcap : 0 < logCap) :
    Diary [] (Scope.newScope name cfg logCap) :=
  ⟨rfl, rfl, Ring.Window.empty hcap⟩

theorem sameLog (h : Diary es s) (hsame : SameLog s s') : Diary es s' := by
  constructor
  · exact hsame.cursor.trans h.cursor
  · exact h.stamps
  · rw [hsame.name, hsame.ring]
    exact h.window

theorem record (h : Diary es s) (k : ℕ) (kind : EventKind) (fromStatus : Status) (t : Int) :
    Diary (es ++ [(s.recordAt k kind fromStatus t).1]) (s.recordAt k kind fromStatus t).2 := by
  have hcursor : (s.recordAt k kind fromStatus t).2.cursor = s.cursor + 1 :=
    appendLog_cursor _ _
  have hring : (s.recordAt k kind fromStatus t).2.ring =
      s.ring.push { scope := s.name, effect := (s.recordAt k kind fromStatus t).1 } :=
    appendLog_ring _ _
  have hname : (s.recordAt k kind fromStatus t).2.name = s.name :=
    congrArg Graph.name (recordAt_graph s k kind fromStatus t)
  have hstamp : (s.recordAt k kind fromStatus t).1.cursor = s.cursor + 1 := rfl
  constructor
  · rw [hcursor, h.cursor, List.length_append, List.length_singleton]
  · rw [List.map_append, h.stamps, List.map_singleton, hstamp, h.cursor, List.length_append,
      List.length_singleton, List.range'_concat]
    simp [Nat.add_comm]
  · rw [hname, hring, List.map_append, List.map_singleton]
    exact h.window.push _

theorem writes (h : Diary es s) (hw : Writes s es' s') : Diary (es ++ es') s' := by
  induction hw with
  | nil =>
    rw [List.append_nil]
    exact h
  | quiet _ hsame ih => exact ih.sameLog hsame
  | record k kind fromStatus t _ ih =>
    rw [← List.append_assoc]
    exact ih.record k kind fromStatus t

/-- A restored scope keeps its cursor and starts an empty log. -/
theorem restored (h : Diary es s) {logCap : ℕ} (hcap : 0 < logCap) :
    Diary es (s.restored logCap) := by
  obtain ⟨_, _, _, heq⟩ := restoreIndexes_eq s.sortedHandles.length (s.unindexed logCap)
  have hstart : s.cursor + 1 = (es.map (Event.mk s.name)).length + 1 := by
    rw [h.cursor, List.length_map]
  constructor
  · rw [Scope.restored, heq]
    exact h.cursor
  · exact h.stamps
  rw [Scope.restored, heq]
  have hblank := Ring.Window.blank (es.map (Event.mk s.name)) hcap
  rw [← hstart] at hblank
  exact hblank

end Diary

end DagWorker.Memory.Scope

namespace DagWorker.Memory

open Scope

/-- Every operation records exactly the effects it returns. -/
theorem body_writes {s : Scope} (hi : s.Inv) (op : Op) :
    (op.body s).All fun x => Writes s x.1.announced x.2 := by
  refine (body_performs hi op).mono fun x h => ?_
  obtain ⟨es, s₀, es', heff, hpath, -, hg⟩ := h.moves
  rw [heff]
  exact (Writes.of_path hpath).trans (Writes.of_grants hg)

theorem body_diary {s : Scope} {es : List Effect} (hi : s.Inv) (h : Diary es s) (op : Op) :
    (op.body s).All fun x => Diary (es ++ x.1.announced) x.2 :=
  (body_writes hi op).mono fun _ hw => h.writes hw

end DagWorker.Memory
