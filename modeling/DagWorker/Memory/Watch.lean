import DagWorker.Memory.Histories
import DagWorker.Support.Follow

/-!
# Watching the event log of a scope

`Watch` starts a pump that copies the scope's log to a channel.  Each round reads what is
retained from its position on under the scope's lock, and then sends it event by event,
while operations append to the log and trim it.  The steps of a system interleave any
stretch of an operation with the moves of one pump.
-/

namespace DagWorker.Memory

open Relation (ReflTransGen)

variable {s : Scope} {es : List Effect} {req : WatchRequest}

/-! ## The pump -/

/-- Why a pump has returned. -/
inductive Ending
  | evicted
  | cancelled
  | closed
deriving DecidableEq

/-- Where a pump stands in its loop. -/
inductive Stage
  | reading
  | sending
  /-- It waits for the `logBell` it has read; a bell is known by the number of appends
  made before it was hung up. -/
  | waiting (bell : ℕ)
  | ended (why : Ending)
deriving DecidableEq

structure Pump where
  next : ℕ
  /-- What was read and is still to be sent. -/
  batch : List Event := []
  stage : Stage := .reading
  /-- The events received from the channel so far. -/
  sent : List Event := []

inductive Move
  | read
  | send
  /-- The bell has been closed. -/
  | wake
  /-- `<-ctx.Done()`. -/
  | cancel
  /-- `<-s.store.closed`. -/
  | close
deriving DecidableEq

namespace Pump

/-- The critical section of a round. -/
def read (p : Pump) (s : Scope) : Pump :=
  if p.next < s.logStart then { p with stage := .ended .evicted }
  else if p.next - s.logStart < s.log.length then
    { p with batch := s.log.drop (p.next - s.logStart), next := s.cursor + 1, stage := .sending }
  else { p with stage := .waiting s.cursor }

/-- The moves of a pump, as far as it can make them. -/
def move (p : Pump) (s : Scope) (ctxDone closed : Bool) : Move → Option Pump
  | .read => if p.stage = .reading then some (p.read s) else none
  | .send =>
    match p.stage, p.batch with
    | .sending, ev :: rest =>
      some { p with
        batch := rest
        sent := p.sent ++ [ev]
        stage := if rest = [] then .reading else .sending }
    | _, _ => none
  | .wake =>
    match p.stage with
    | .waiting bell => if bell < s.cursor then some { p with stage := .reading } else none
    | _ => none
  | .cancel =>
    match p.stage, ctxDone with
    | .sending, true | .waiting _, true => some { p with stage := .ended .cancelled }
    | _, _ => none
  | .close =>
    match p.stage, closed with
    | .sending, true | .waiting _, true => some { p with stage := .ended .closed }
    | _, _ => none

theorem move_sent {p p' : Pump} {ctxDone closed : Bool} {m : Move} (hm : m ≠ .send)
    (h : p.move s ctxDone closed m = some p') : p'.sent = p.sent := by
  cases m with
  | send => exact absurd rfl hm
  | read =>
    obtain ⟨-, ⟨⟩⟩ := Option.ite_none_right_eq_some.mp h
    unfold read
    split
    · rfl
    · split <;> rfl
  | wake =>
    simp only [move] at h
    split at h
    · obtain ⟨-, ⟨⟩⟩ := Option.ite_none_right_eq_some.mp h
      rfl
    · cases h
  | cancel | close =>
    simp only [move] at h
    split at h <;> cases h <;> rfl

theorem move_send {p p' : Pump} {ctxDone closed : Bool} {ev : Event} {rest : List Event}
    (hbatch : p.batch = ev :: rest) (h : p.move s ctxDone closed .send = some p') :
    p'.sent = p.sent ++ [ev] := by
  simp only [move] at h
  split at h
  · rename_i ev' rest' _ hbatch'
    rw [hbatch] at hbatch'
    cases hbatch'
    cases h
    rfl
  · cases h

end Pump

/-- The position a stream begins at. -/
def Scope.watchStart (s : Scope) (req : WatchRequest) : ℕ :=
  if 0 < req.fromCursor then req.fromCursor + 1
  else if req.replay then s.logStart
  else s.cursor + 1

/-- `Watch` on its scope: only a resumption can come too late. -/
def Scope.watch (s : Scope) (req : WatchRequest) : Except Err Pump :=
  if 0 < req.fromCursor ∧ req.fromCursor + 1 < s.logStart then .error (.bare .cursorExpired)
  else .ok { next := s.watchStart req }

def Store.watch (st : Store) (req : WatchRequest) : Prog (Except Err Pump × Store) :=
  if req.scope = "" then pure (.error (.bare .unsupported), st)
  else st.creating req.scope .error fun s => pure (s.watch req, s)

/-! ## A scope and its pump -/

structure Watched where
  scope : Scope
  pump : Pump
  ctxDone : Bool := false
  closed : Bool := false
  /-- Every effect recorded in the scope; no code reads it. -/
  history : List Effect

namespace Watched

def events (w : Watched) : List Event := w.history.map (Event.mk w.scope.name)

inductive Step (w : Watched) : Watched → Prop
  /-- Some operation goes on, by an append or a longer stretch. -/
  | write {es : List Effect} {s' : Scope} : w.scope.Writes es s' →
      Step w { w with scope := s', history := w.history ++ es }
  | move {p : Pump} (m : Move) : w.pump.move w.scope w.ctxDone w.closed m = some p →
      Step w { w with pump := p }
  | cancelContext : Step w { w with ctxDone := true }
  | closeStore : Step w { w with closed := true }

/-- The pump makes the given moves, and nothing else happens. -/
def drive : List Move → Watched → Option Watched
  | [], w => some w
  | m :: ms, w =>
    match w.pump.move w.scope w.ctxDone w.closed m with
    | some p => drive ms { w with pump := p }
    | none => none

/-- What each stage of the pump knows about the scope. -/
def Placed (w : Watched) : Prop :=
  match w.pump.stage with
  | .reading => w.pump.batch = []
  | .sending => w.pump.batch ≠ []
  | .waiting bell => w.pump.batch = [] ∧ bell ≤ w.scope.cursor ∧ bell < w.pump.next
  | .ended .evicted => w.pump.batch = [] ∧ w.pump.next < w.scope.logStart
  | .ended .cancelled => w.ctxDone = true
  | .ended .closed => w.closed = true

/-- The events sent and those of the batch are the scope's events from `start` up to
the pump's position. -/
structure Inv (start : ℕ) (w : Watched) : Prop where
  diary : w.scope.Diary w.history
  followed : Followed w.events start w.pump.next (w.pump.sent ++ w.pump.batch)
  placed : w.Placed

end Watched

namespace Scope.Writes

variable {s s' : Scope} {es : List Effect}

theorem name_eq (h : s.Writes es s') : s'.name = s.name := by
  induction h with
  | nil => rfl
  | quiet _ hsame ih => exact hsame.name.trans ih
  | record k kind fromStatus t _ ih =>
    exact (congrArg Graph.name (recordAt_graph _ k kind fromStatus t)).trans ih

theorem logStart_le (h : s.Writes es s') : s.logStart ≤ s'.logStart := by
  induction h with
  | nil => exact le_rfl
  | quiet _ hsame ih => exact ih.trans (congrArg Ring.start hsame.ring).ge
  | @record es s₁ k kind fromStatus t _ ih =>
    have hring : (s₁.recordAt k kind fromStatus t).2.ring.start = _ :=
      congrArg Ring.start (appendLog_ring _ _)
    exact ih.trans ((Ring.start_le_push _ _).trans hring.ge)

end Scope.Writes

namespace Watched

variable {start : ℕ} {w w' : Watched}

theorem length_events (w : Watched) : w.events.length = w.history.length := List.length_map _

/-! ## The invariant -/

theorem Inv.write (h : w.Inv start) {s' : Scope} (hw : w.scope.Writes es s') :
    Inv start { w with scope := s', history := w.history ++ es } := by
  have hdiary := h.diary.writes hw
  have hcursor : w.scope.cursor ≤ s'.cursor := by
    rw [h.diary.cursor, hdiary.cursor, List.length_append]
    exact Nat.le_add_right _ _
  have hstart := hw.logStart_le
  refine ⟨hdiary, ?_, ?_⟩
  · have hevents : (w.history ++ es).map (Event.mk s'.name) =
        w.events ++ es.map (Event.mk s'.name) := by
      rw [List.map_append, hw.name_eq]
      rfl
    dsimp only [events]
    rw [hevents]
    exact h.followed.append _
  · have hplaced := h.placed
    unfold Placed at hplaced ⊢
    dsimp only
    split at hplaced
    · exact hplaced
    · exact hplaced
    · exact ⟨hplaced.1, hplaced.2.1.trans hcursor, hplaced.2.2⟩
    · exact ⟨hplaced.1, hplaced.2.trans_le hstart⟩
    · exact hplaced
    · exact hplaced

theorem Inv.read (h : w.Inv start) (hstage : w.pump.stage = .reading) :
    Inv start { w with pump := w.pump.read w.scope } := by
  have hbatch : w.pump.batch = [] := by
    have hplaced := h.placed
    rw [Placed, hstage] at hplaced
    exact hplaced
  have hfollowed := h.followed
  rw [hbatch, List.append_nil] at hfollowed
  have hcursor : w.scope.cursor = w.events.length := by
    rw [length_events]
    exact h.diary.cursor
  have hwindow := h.diary.window
  have hlen : w.scope.logStart + w.scope.log.length = w.events.length + 1 :=
    hwindow.start_add_length
  rw [Pump.read]
  split
  · rename_i hlate
    exact ⟨h.diary, h.followed, hbatch, hlate⟩
  rename_i hretained
  split
  · rename_i hnew
    have hitems : w.scope.log.drop (w.pump.next - w.scope.logStart) =
        w.events.drop (w.pump.next - 1) := hwindow.drop_items (not_lt.mp hretained)
    refine ⟨h.diary, ?_, ?_⟩
    · dsimp only
      rw [hitems, hcursor]
      exact hfollowed.catchUp (by omega)
    · intro hnil
      rw [List.drop_eq_nil_iff] at hnil
      omega
  · rename_i hnone
    refine ⟨h.diary, h.followed, hbatch, le_rfl, ?_⟩
    dsimp only
    omega

theorem Inv.move (h : w.Inv start) (m : Move) {p : Pump}
    (hm : w.pump.move w.scope w.ctxDone w.closed m = some p) :
    Inv start { w with pump := p } := by
  cases m with
  | read =>
    obtain ⟨hstage, ⟨⟩⟩ := Option.ite_none_right_eq_some.mp hm
    exact h.read hstage
  | send =>
    simp only [Pump.move] at hm
    split at hm
    · rename_i ev rest hstage hbatch
      cases hm
      have hfollowed : Followed w.events start w.pump.next (w.pump.sent ++ ev :: rest) :=
        hbatch ▸ h.followed
      rw [List.append_cons] at hfollowed
      refine ⟨h.diary, hfollowed, ?_⟩
      by_cases hrest : rest = []
      · simp [Placed, hrest]
      · simp [Placed, hrest]
    · cases hm
  | wake =>
    simp only [Pump.move] at hm
    split at hm
    · rename_i bell hstage
      obtain ⟨-, ⟨⟩⟩ := Option.ite_none_right_eq_some.mp hm
      have hplaced := h.placed
      rw [Placed, hstage] at hplaced
      exact ⟨h.diary, h.followed, hplaced.1⟩
    · cases hm
  | cancel | close =>
    simp only [Pump.move] at hm
    split at hm
    · rename_i _ hdone
      cases hm
      exact ⟨h.diary, h.followed, hdone⟩
    · rename_i _ _ hdone
      cases hm
      exact ⟨h.diary, h.followed, hdone⟩
    · cases hm

theorem Inv.step (h : w.Inv start) (hstep : Step w w') : w'.Inv start := by
  cases hstep with
  | write hw => exact h.write hw
  | move m hm => exact h.move m hm
  | cancelContext | closeStore =>
    refine ⟨h.diary, h.followed, ?_⟩
    have hplaced := h.placed
    unfold Placed at hplaced ⊢
    dsimp only
    split at hplaced <;> first | exact hplaced | rfl

theorem Inv.steps (h : w.Inv start) (hsteps : ReflTransGen Step w w') :
    w'.Inv start := by
  induction hsteps with
  | refl => exact h
  | tail _ hstep ih => exact ih.step hstep

/-! ## The pump catches up -/

theorem steps_of_drive {ms : List Move} (h : drive ms w = some w') :
    ReflTransGen Step w w' := by
  induction ms generalizing w with
  | nil =>
    cases h
    exact .refl
  | cons m ms ih =>
    rw [drive] at h
    split at h
    · rename_i p hp
      exact .head (Step.move m hp) (ih h)
    · cases h

theorem drive_append (ms ms' : List Move) (w : Watched) :
    drive (ms ++ ms') w = (drive ms w).bind (drive ms') := by
  induction ms generalizing w with
  | nil => rfl
  | cons m ms ih =>
    rw [List.cons_append, drive, drive]
    split
    · exact ih _
    · rfl

/-- Left to itself, the pump sends every event there is, unless the next one is gone. -/
structure CatchesUp (start : ℕ) (w : Watched) (ms : List Move) (w' : Watched) : Prop where
  own : ∀ m ∈ ms, m ≠ .cancel ∧ m ≠ .close
  drive : drive ms w = some w'
  done : w'.pump.sent = w.events.drop (start - 1) ∨ w'.pump.stage = .ended .evicted

/-- The pump once it has sent its batch. -/
def emptied (w : Watched) : Watched :=
  { w with pump :=
    { next := w.pump.next, stage := .reading, sent := w.pump.sent ++ w.pump.batch } }

theorem drive_send (hstage : w.pump.stage = .sending) (hbatch : w.pump.batch ≠ []) :
    drive (List.replicate w.pump.batch.length .send) w = some w.emptied := by
  unfold emptied
  generalize hb : w.pump.batch = batch at hbatch
  induction batch generalizing w with
  | nil => exact absurd rfl hbatch
  | cons ev rest ih =>
    rw [List.length_cons, List.replicate_succ, drive]
    have hmove : w.pump.move w.scope w.ctxDone w.closed .send =
        some { w.pump with
          batch := rest, sent := w.pump.sent ++ [ev],
          stage := if rest = [] then .reading else .sending } := by
      simp only [Pump.move, hstage, hb]
    rw [hmove]
    by_cases hrest : rest = []
    · subst hrest
      rfl
    · dsimp only
      rw [ih (if_neg hrest) rfl hrest]
      simp

theorem Inv.sent_eq (h : w.Inv start) (hbatch : w.pump.batch = [])
    (hnext : w.events.length < w.pump.next) : w.pump.sent = w.events.drop (start - 1) := by
  have hgot := h.followed.eq_of_length_lt hnext
  rw [hbatch, List.append_nil] at hgot
  exact hgot

/-- A pump at the head of its loop. -/
theorem Inv.reading_catchesUp (h : w.Inv start) (hstage : w.pump.stage = .reading) :
    ∃ ms w', CatchesUp start w ms w' := by
  have hbatch : w.pump.batch = [] := by
    have hplaced := h.placed
    rw [Placed, hstage] at hplaced
    exact hplaced
  have hread : w.pump.move w.scope w.ctxDone w.closed .read = some (w.pump.read w.scope) := by
    simp only [Pump.move, hstage, if_true]
  by_cases hcaught : w.events.length < w.pump.next
  · exact ⟨[], w, by simp, rfl, .inl (h.sent_eq hbatch hcaught)⟩
  by_cases hlate : w.pump.next < w.scope.logStart
  · refine ⟨[.read], { w with pump := w.pump.read w.scope }, by simp, ?_, .inr ?_⟩
    · rw [drive, hread]
      rfl
    · rw [Pump.read, if_pos hlate]
  · have hlen : w.scope.logStart + w.scope.log.length = w.events.length + 1 :=
      h.diary.window.start_add_length
    have hnew : w.pump.next - w.scope.logStart < w.scope.log.length := by omega
    set mid : Watched := { w with pump := w.pump.read w.scope } with hmid
    have hpump : mid.pump = { w.pump with
        batch := w.scope.log.drop (w.pump.next - w.scope.logStart), next := w.scope.cursor + 1,
        stage := .sending } := by
      rw [hmid, Pump.read, if_neg hlate, if_pos hnew]
    have hinv : mid.Inv start := h.read hstage
    have hsending : mid.pump.stage = .sending := by rw [hpump]
    have hne : mid.pump.batch ≠ [] := by
      have hplaced := hinv.placed
      rw [Placed, hsending] at hplaced
      exact hplaced
    have hsend := drive_send hsending hne
    refine ⟨.read :: List.replicate mid.pump.batch.length .send, mid.emptied, ?_, ?_, .inl ?_⟩
    · simp
    · rw [drive, hread]
      exact hsend
    refine (hinv.steps (steps_of_drive hsend)).sent_eq rfl ?_
    rw [emptied, hpump]
    have hcursor : w.scope.cursor = w.events.length :=
      h.diary.cursor.trans (length_events w).symm
    exact Nat.lt_succ_of_le hcursor.ge

theorem Inv.catchesUp (h : w.Inv start) (hlive : ∀ why, w.pump.stage ≠ .ended why) :
    ∃ ms w', CatchesUp start w ms w' := by
  cases hstage : w.pump.stage with
  | reading => exact h.reading_catchesUp hstage
  | sending =>
    have hne : w.pump.batch ≠ [] := by
      have hplaced := h.placed
      rw [Placed, hstage] at hplaced
      exact hplaced
    have hsend := drive_send hstage hne
    obtain ⟨ms, w', hown, hdrive, hdone⟩ :=
      (h.steps (steps_of_drive hsend)).reading_catchesUp rfl
    refine ⟨List.replicate w.pump.batch.length .send ++ ms, w', ?_, ?_, hdone⟩
    · intro m hm
      rcases List.mem_append.mp hm with hm | hm
      · rw [List.eq_of_mem_replicate hm]
        decide
      · exact hown m hm
    · rw [drive_append, hsend]
      exact hdrive
  | waiting bell =>
    have hplaced := h.placed
    rw [Placed, hstage] at hplaced
    obtain ⟨hbatch, -, hnext⟩ := hplaced
    by_cases hrung : bell < w.scope.cursor
    · have hwake : w.pump.move w.scope w.ctxDone w.closed .wake =
          some { w.pump with stage := .reading } := by
        simp only [Pump.move, hstage, hrung, if_true]
      have hmid : Inv start { w with pump := { w.pump with stage := .reading } } :=
        h.move .wake hwake
      obtain ⟨ms, w', hown, hdrive, hdone⟩ := hmid.reading_catchesUp rfl
      refine ⟨.wake :: ms, w', ?_, ?_, hdone⟩
      · intro m hm
        rcases List.mem_cons.mp hm with rfl | hm
        · decide
        · exact hown m hm
      · rw [drive, hwake]
        exact hdrive
    · have hcursor := h.diary.cursor.trans (length_events w).symm
      refine ⟨[], w, by simp, rfl, .inl (h.sent_eq hbatch ?_)⟩
      omega
  | ended why => exact absurd hstage (hlive why)

/-! ## The stream -/

/-- The stream a watcher gets, as it stands. -/
structure Streamed (start : ℕ) (w : Watched) : Prop where
  /-- The scope's events carry the cursors 1, 2, 3 and so on. -/
  numbered : w.events.map (fun ev => ev.effect.cursor) = List.range' 1 w.events.length
  /-- It is the beginning of the scope's events from `start` on. -/
  sent : w.pump.sent <+: w.events.drop (start - 1)
  cursors : w.pump.sent.map (fun ev => ev.effect.cursor) =
    List.range' start w.pump.sent.length
  /-- It ended because the next event is gone, or the context or the store ended. -/
  ended : ∀ why, w.pump.stage = .ended why →
    match why with
    | .evicted => start + w.pump.sent.length < w.scope.logStart
    | .cancelled => w.ctxDone = true
    | .closed => w.closed = true
  /-- Otherwise it goes on to send every event there is. -/
  live : (∀ why, w.pump.stage ≠ .ended why) → ∃ ms w', CatchesUp start w ms w'
  ring : w.scope.logStart + w.scope.log.length = w.scope.cursor + 1
  room : w.scope.log.length < 2 * w.scope.logCap

theorem Inv.streamed (h : w.Inv start) : w.Streamed start := by
  have hsent : w.pump.sent <+: w.events.drop (start - 1) :=
    (List.prefix_append _ _).trans h.followed.got_prefix
  have hnumbered : w.events.map (fun ev => ev.effect.cursor) =
      List.range' 1 w.events.length := by
    rw [length_events, ← h.diary.stamps, events, List.map_map]
    rfl
  constructor
  · exact hnumbered
  · exact hsent
  · exact map_eq_range'_of_prefix hnumbered h.followed.pos hsent
  · intro why hwhy
    have hplaced := h.placed
    rw [Placed, hwhy] at hplaced
    cases why with
    | evicted =>
      have hnext := h.followed.start_add_length
      rw [hplaced.1, List.append_nil] at hnext
      exact hnext ▸ hplaced.2
    | cancelled => exact hplaced
    | closed => exact hplaced
  · exact h.catchesUp
  · rw [h.diary.cursor, ← length_events]
    exact h.diary.window.start_add_length
  · exact h.diary.window.room

end Watched

theorem Scope.Diary.watch {p : Pump} (h : s.Diary es) (hp : s.watch req = .ok p) :
    Watched.Inv (s.watchStart req) { scope := s, pump := p, history := es } := by
  have hpump : p = { next := s.watchStart req } := by
    simp only [Scope.watch] at hp
    split at hp
    · cases hp
    · exact (Except.ok.inj hp).symm
  subst hpump
  refine ⟨h, Followed.begin ?_, rfl⟩
  unfold Scope.watchStart
  split
  · exact Nat.succ_pos _
  · split
    · exact h.window.pos
    · exact Nat.succ_pos _

theorem exists_of_creating {st st' : Store} {name : String} {f : Scope → Except Err Pump}
    {p : Pump}
    (h : Prog.Yields (st.creating name .error fun s => pure (f s, s)) (.ok p, st')) :
    ∃ s, st.Finds name s ∧ f s = .ok p ∧ st'.scopes.lookup name = some s := by
  have hfound : (st.creating name .error fun s => pure (f s, s)).All fun r => ∀ p, r.1 = .ok p →
      ∃ s, st.Finds name s ∧ f s = .ok p ∧ r.2.scopes.lookup name = some s := by
    apply Store.all_creating
    · intro p hp
      cases hp
    · intro s hs p hp
      exact ⟨s, hs, hp, by simp [Store.setScope]⟩
  exact hfound.of_yields h p rfl

theorem exists_of_watch {st st' : Store} {p : Pump}
    (hwatch : Prog.Yields (st.watch req) (.ok p, st')) :
    ∃ s, st.Finds req.scope s ∧ s.watch req = .ok p ∧ st'.scopes.lookup req.scope = some s := by
  unfold Store.watch at hwatch
  split at hwatch
  · cases hwatch
  · exact exists_of_creating hwatch

/-- **`Watch` delivers a contiguous stream.**  Whatever events the scope had, and however
the operations that follow interleave with the pump: what the watcher has received are
the scope's events from its start on, with consecutive cursors. -/
theorem watch_contiguous {defaults : ScopeConfig} {logCap : ℕ} {steps : List StepRecord}
    {st st' : Store} {req : WatchRequest} {p : Pump}
    (hrun : Run (Store.new defaults logCap) steps st)
    (hwatch : Prog.Yields (st.watch req) (.ok p, st')) :
    ∃ s, st'.scopes.lookup req.scope = some s ∧
      ∀ w, ReflTransGen Watched.Step
        { scope := s, pump := p, history := heardOf req.scope steps } w →
      w.Streamed (s.watchStart req) := by
  obtain ⟨s, hs, hp, hl⟩ := exists_of_watch hwatch
  refine ⟨s, hl, fun w hw => ?_⟩
  have hdiary := (hrun.logged req.scope).found hs
  exact ((hdiary.watch hp).steps hw).streamed

/-- The cursors a pump has sent after some moves, if it was allowed to begin. -/
def replayed (req : WatchRequest) (ms : List Move) (steps : List StepRecord) (st : Store) :
    Option (List ℕ) := do
  let (.ok p, st') ← (st.watch req).run [] [] | none
  let s ← st'.scopes.lookup req.scope
  let w ← Watched.drive ms { scope := s, pump := p, history := heardOf req.scope steps }
  pure (w.pump.sent.map fun ev => ev.effect.cursor)

/-- With room for two events the first ones are gone, and the stream begins later. -/
theorem halfway_watched : ∃ steps st st' p s w, Run (Store.new {} 2) steps st ∧
    Prog.Yields (st.watch { scope := "jobs", replay := true }) (.ok p, st') ∧
    st'.scopes.lookup "jobs" = some s ∧
    ReflTransGen Watched.Step
      { scope := s, pump := p, history := heardOf "jobs" steps } w ∧
    w.pump.sent.map (fun ev => ev.effect.cursor) = [5, 6] ∧
    w.Streamed (s.watchStart { scope := "jobs", replay := true }) := by
  obtain ⟨steps, st, hrun, hp⟩ := Trace.exists_run_of_execute exec halfwayCalls (Store.new {} 2)
    (p := fun steps st =>
      replayed { scope := "jobs", replay := true } [.read, .send, .send] steps st = some [5, 6])
    (by decide +kernel)
  have hsent := of_decide_eq_true hp
  simp only [replayed, Option.bind_eq_bind, Option.bind_eq_some_iff, Option.pure_def] at hsent
  obtain ⟨⟨r, st'⟩, hwatch, hsent⟩ := hsent
  cases r with
  | error e => cases hsent
  | ok p =>
    simp only [Option.bind_eq_some_iff] at hsent
    obtain ⟨s, hs, w, hw, hcursors⟩ := hsent
    have hyields := Prog.yields_of_run hwatch
    obtain ⟨s', hs', hall⟩ := watch_contiguous hrun hyields
    obtain rfl := Option.mem_unique hs hs'
    have hsteps := Watched.steps_of_drive hw
    exact ⟨steps, st, st', p, s, w, hrun, hyields, hs, hsteps, Option.some.inj hcursors,
      hall w hsteps⟩

end DagWorker.Memory
