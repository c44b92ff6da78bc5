import DagWorker.Core.Backoff
import DagWorker.Memory.Watch

/-!
# The offsets of a pump

A position is a `uint64` that a client may choose, and the pump turns its distance from the
start of the log into an `int`.  A position half the range ahead has a negative distance.
-/

namespace DagWorker.Memory

variable {s : Scope} {req : WatchRequest} {es : List Effect}

/-- The critical section of a round with the machine's arithmetic.  A negative offset is
below every length, and slicing the log at it panics. -/
def Pump.read64 (p : Pump) (s : Scope) : Option Pump :=
  if p.next < s.logStart then some { p with stage := .ended .evicted }
  else
    let idx := int64 (p.next - s.logStart)
    if idx < s.log.length then
      if idx < 0 then none
      else some { p with
        batch := s.log.drop idx.toNat, next := uint64 (s.cursor + 1), stage := .sending }
    else some { p with stage := .waiting s.cursor }

/-- `Watch` on its scope with the machine's arithmetic. -/
def Scope.watch64 (s : Scope) (req : WatchRequest) : Except Err Pump :=
  if 0 < req.fromCursor ∧ uint64 (req.fromCursor + 1) < s.logStart then
    .error (.bare .cursorExpired)
  else .ok { next :=
    if 0 < req.fromCursor then uint64 (req.fromCursor + 1)
    else if req.replay then s.logStart else uint64 (s.cursor + 1) }

def Store.watch64 (st : Store) (req : WatchRequest) : Prog (Except Err Pump × Store) :=
  if req.scope = "" then pure (.error (.bare .unsupported), st)
  else st.creating req.scope .error fun s => pure (s.watch64 req, s)

/-- The moves of a pump with the machine's arithmetic; a read that panics leads to
`some none`. -/
def Pump.move64 (p : Pump) (s : Scope) (ctxDone closed : Bool) : Move → Option (Option Pump)
  | .read => if p.stage = .reading then some (p.read64 s) else none
  | m => (p.move s ctxDone closed m).map some

namespace Watched

/-- The cursor has not wrapped, and the log has a length. -/
def Sized (w : Watched) : Prop := w.scope.cursor + 1 < 2 ^ 64 ∧ w.scope.log.length < 2 ^ 63

instance (w : Watched) : Decidable w.Sized := inferInstanceAs (Decidable (_ ∧ _))

/-- A step with the machine's arithmetic; a panic leads to `none`. -/
inductive Step64 : Option Watched → Option Watched → Prop
  | read {w : Watched} : w.Sized → w.pump.stage = .reading →
      Step64 (some w) ((w.pump.read64 w.scope).map fun p => { w with pump := p })
  /-- The pump does not read. -/
  | other {w w' : Watched} : w.Sized → w.Step w' →
      w.pump.stage ≠ .reading ∨ w'.pump = w.pump → Step64 (some w) (some w')

variable {start : ℕ} {w w' : Watched}

/-- At a position not too far ahead the machine computes the offset. -/
theorem Inv.read64_eq (h : w.Inv start) (hsized : w.Sized)
    (hstart : start < w.scope.logStart + 2 ^ 63) :
    w.pump.read64 w.scope = some (w.pump.read w.scope) := by
  have hcursor : w.scope.cursor = w.events.length :=
    h.diary.cursor.trans (length_events w).symm
  have hlen : w.scope.logStart + w.scope.log.length = w.events.length + 1 :=
    h.diary.window.start_add_length
  have hbound := h.followed.bound
  obtain ⟨hwrap, hlog⟩ := hsized
  rw [Pump.read64, Pump.read]
  split
  · rfl
  have hidx : int64 ((w.pump.next : Int) - w.scope.logStart) =
      ((w.pump.next - w.scope.logStart : ℕ) : Int) := by
    rw [int64_of_lt] <;> omega
  rw [hidx, uint64, Nat.mod_eq_of_lt hwrap]
  simp only [Int.toNat_natCast, Nat.cast_lt]
  split
  · rw [if_neg (by omega)]
  · rfl

theorem Inv.move64_eq (h : w.Inv start) {m : Move} (hsized : m = .read → w.Sized)
    (hstart : start < w.scope.logStart + 2 ^ 63) :
    w.pump.move64 w.scope w.ctxDone w.closed m =
      (w.pump.move w.scope w.ctxDone w.closed m).map some := by
  cases m with
  | read =>
    rw [Pump.move64, Pump.move, h.read64_eq (hsized rfl) hstart]
    split <;> rfl
  | send | wake | cancel | close => rfl

theorem logStart_le_of_step (h : w.Step w') : w.scope.logStart ≤ w'.scope.logStart := by
  cases h with
  | write hw => exact hw.logStart_le
  | move | cancelContext | closeStore => exact le_rfl

/-- From a position not too far ahead the machine does what the model does. -/
theorem Inv.steps64 (h : w.Inv start) (hstart : start < w.scope.logStart + 2 ^ 63)
    {o : Option Watched} (hsteps : Relation.ReflTransGen Step64 (some w) o) :
    ∃ w', o = some w' ∧ w'.Inv start ∧ start < w'.scope.logStart + 2 ^ 63 := by
  induction hsteps with
  | refl => exact ⟨w, rfl, h, hstart⟩
  | tail _ hstep ih =>
    obtain ⟨w₁, rfl, hinv, hlt⟩ := ih
    cases hstep with
    | read hsized hreading =>
      rw [hinv.read64_eq hsized hlt]
      exact ⟨_, rfl, hinv.read hreading, hlt⟩
    | other _ hstep _ =>
      have hle := logStart_le_of_step hstep
      exact ⟨_, rfl, hinv.step hstep, by omega⟩

end Watched

/-- `Watch` at a position that does not wrap. -/
theorem Scope.watch64_eq (hcursor : s.cursor + 1 < 2 ^ 64) (hfrom : req.fromCursor + 1 < 2 ^ 64) :
    s.watch64 req = s.watch req := by
  unfold Scope.watch64 Scope.watch Scope.watchStart
  simp only [uint64, Nat.mod_eq_of_lt hcursor, Nat.mod_eq_of_lt hfrom]

theorem Scope.Diary.watchStart_bounds (hs : s.Diary es) (req : WatchRequest) :
    req.fromCursor < s.watchStart req ∧
      (req.fromCursor = 0 → s.watchStart req ≤ s.logStart + s.log.length) := by
  have hpos : 1 ≤ s.logStart := hs.window.pos
  have hlen : s.logStart + s.log.length = _ := hs.window.start_add_length
  rw [List.length_map, ← hs.cursor] at hlen
  unfold Scope.watchStart
  split_ifs <;> omega

/-- For every ring and every position that a client can send, the pump neither panics nor
sends an event at or before the position, whatever is appended, exactly if the stream does
not resume, the position is refused, or it is less than half the range ahead. -/
theorem watch_safe_iff (hs : s.Diary es) (hfrom : req.fromCursor < 2 ^ 64)
    (hcursor : s.cursor + 1 < 2 ^ 64) (hlog : s.log.length < 2 ^ 63) :
    (∀ p, s.watch64 req = .ok p → ∀ o, Relation.ReflTransGen Watched.Step64
        (some { scope := s, pump := p, history := es }) o →
      ∃ w, o = some w ∧ ∀ ev ∈ w.pump.sent, req.fromCursor < ev.effect.cursor) ↔
    req.fromCursor = 0 ∨ uint64 (req.fromCursor + 1) < s.logStart ∨
      req.fromCursor + 1 < s.logStart + 2 ^ 63 := by
  have hpos : 1 ≤ s.logStart := hs.window.pos
  by_cases hlast : req.fromCursor + 1 = 2 ^ 64
  · -- the position wraps to zero and is refused
    have hzero : uint64 (req.fromCursor + 1) < s.logStart := by
      rw [hlast]
      exact hpos
    have hrefused : s.watch64 req = .error (.bare .cursorExpired) :=
      if_pos ⟨by omega, hzero⟩
    simp [hrefused, hzero]
  have hlt : req.fromCursor + 1 < 2 ^ 64 := by omega
  rw [Scope.watch64_eq hcursor hlt, uint64, Nat.mod_eq_of_lt hlt]
  obtain ⟨hafter, hnow⟩ := hs.watchStart_bounds req
  constructor
  · intro h
    by_contra hnot
    have hok : s.watch req = .ok { next := req.fromCursor + 1 } := by
      rw [Scope.watch, if_neg (by omega), Scope.watchStart, if_pos (by omega)]
    have hpanic : Pump.read64 { next := req.fromCursor + 1 } s = none := by
      obtain ⟨hlo, hhi, k, hk⟩ := exists_int64 (((req.fromCursor + 1 : ℕ) : Int) - s.logStart)
      unfold Pump.read64
      dsimp only
      rw [if_neg (by omega), if_pos (by omega), if_pos (by omega)]
    have hstep := Watched.Step64.read (w := ⟨s, { next := req.fromCursor + 1 }, false, false, es⟩)
      ⟨hcursor, hlog⟩ rfl
    obtain ⟨w, hw, -⟩ := h _ hok _ (.single hstep)
    rw [hpanic] at hw
    cases hw
  · intro h p hp o ho
    have hinv := hs.watch hp
    have hstart : s.watchStart req < s.logStart + 2 ^ 63 := by
      by_cases hzero : req.fromCursor = 0
      · have hnow := hnow hzero
        omega
      have hnotlate : ¬(0 < req.fromCursor ∧ req.fromCursor + 1 < s.logStart) := fun hlate => by
        rw [Scope.watch, if_pos hlate] at hp
        cases hp
      rw [Scope.watchStart, if_pos (by omega)]
      omega
    obtain ⟨w, rfl, hw, -⟩ := hinv.steps64 hstart ho
    refine ⟨w, rfl, fun ev hev => ?_⟩
    have hmem := List.mem_map_of_mem (f := fun ev : Event => ev.effect.cursor) hev
    rw [hw.streamed.cursors, List.mem_range'_1] at hmem
    exact hafter.trans_le hmem.1

theorem watch_safe_first : ∃ p,
    (Scope.newScope "jobs" {} 4096).watch64 { scope := "jobs", fromCursor := 7 } = .ok p ∧
    ∀ o, Relation.ReflTransGen Watched.Step64
      (some { scope := Scope.newScope "jobs" {} 4096, pump := p, history := [] }) o →
      ∃ w, o = some w ∧ ∀ ev ∈ w.pump.sent, 7 < ev.effect.cursor := by
  have hs : Scope.Diary [] (Scope.newScope "jobs" {} 4096) := .newScope _ _ (by decide)
  have hfrom : WatchRequest.fromCursor { scope := "jobs", fromCursor := 7 } < 2 ^ 64 := by decide
  have hsafe := (watch_safe_iff hs hfrom (by decide) (by decide)).mpr (.inr (.inr (by decide)))
  exact ⟨_, rfl, hsafe _ rfl⟩

/-- A position of half the range, on a scope without events. -/
theorem watch_panics : ∃ p,
    (Scope.newScope "jobs" {} 4096).watch64 { scope := "jobs", fromCursor := 2 ^ 63 } = .ok p ∧
    p.stage = .reading ∧ p.read64 (Scope.newScope "jobs" {} 4096) = none :=
  ⟨_, rfl, rfl, rfl⟩

end DagWorker.Memory
