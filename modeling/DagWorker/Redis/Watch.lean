import DagWorker.Redis.Prelude
import DagWorker.Support.Follow
import Mathlib.Logic.Relation

/-!
# Watching the event stream of a scope

Every event is an entry of a Redis stream, numbered by its cursor; adding one may trim the
oldest.  `Watch` chooses the entry to begin after and starts a pump that reads the entries
after the last one it has sent.  Only `watchStartID` looks at the oldest entry.
-/

namespace DagWorker.Redis.Watch

open Relation (ReflTransGen)

variable {req : WatchRequest} (n : ℕ)

/-! ## The stream -/

/-- `MAXLEN ~ 20000` of `recordEvent`. -/
def maxLen : ℕ := 20000

/-- `Count` of an `XREAD`. -/
def readCount : ℕ := 256

/-- The keys of a scope, with the number of entries trimmed off its stream. -/
structure Stream where
  store : State
  trimmed : ℕ := 0

namespace Stream

def entries (d : Stream) : List Effect := d.store.events.drop d.trimmed

/-- `XRANGE - + COUNT 1`. -/
def oldest (d : Stream) : Option ℕ := d.entries.head?.map Effect.cursor

/-- `XREAD` from an exclusive start. -/
def readAfter (d : Stream) (lastID : ℕ) : List Effect :=
  (d.entries.filter fun e => lastID < e.cursor).take readCount

/-- What scripts do to the stream. -/
inductive Write (d : Stream) : Stream → Prop
  /-- An event is recorded; trimming leaves at least `maxLen` entries. -/
  | record {trimmed : ℕ} (id : NodeID) (kind : EventKind) (fromStatus toStatus : Status)
      (reason : Reason) (message : String) (attempt : ℕ) (nodeKind : String) (atMs : Int) :
      trimmed = d.trimmed ∨ d.trimmed ≤ trimmed ∧ trimmed + maxLen ≤ d.store.events.length + 1 →
      Write d
        { store :=
            d.store.recordEvent id kind fromStatus toStatus reason message attempt nodeKind atMs
          trimmed := trimmed }
  /-- Other keys change. -/
  | quiet {store : State} : store.events = d.store.events → store.cursor = d.store.cursor →
      Write d { d with store := store }

/-- The entries ever added are numbered by their cursors. -/
structure Numbered (d : Stream) : Prop where
  cursor : d.store.cursor = d.store.events.length
  stamps : d.store.events.map Effect.cursor = List.range' 1 d.store.events.length
  room : d.trimmed = 0 ∨ d.trimmed + maxLen ≤ d.store.events.length

end Stream

/-! ## The pump -/

/-- `watchStartID`: the entry after which to begin.  The oldest entry and the cursor are
read one after the other.  The entry after the last number there is has the number zero. -/
def watchStartID (d d' : Stream) (req : WatchRequest) : Except Err ℕ :=
  if 0 < req.fromCursor then
    match d.oldest with
    | some o =>
      if uint64 (req.fromCursor + 1) < o then .error (.bare .cursorExpired) else .ok req.fromCursor
    | none =>
      if req.fromCursor < d'.store.cursor then .error (.bare .cursorExpired)
      else .ok req.fromCursor
  else if req.replay then .ok 0
  else .ok d'.store.cursor

inductive Stage
  | reading
  | sending
  | ended
deriving DecidableEq

structure Pump where
  lastID : ℕ
  /-- What the last `XREAD` returned and is still to be sent. -/
  batch : List Effect := []
  stage : Stage := .reading
  sent : List Effect := []
  /-- The oldest entry when the first batch was read; no code reads it. -/
  first : Option ℕ := none

inductive Move
  | read
  | send
  /-- The context has ended, the store is closed, or the connection is lost. -/
  | stop
deriving DecidableEq

/-- The moves of `pumpEvents`, as far as it can make them. -/
def Pump.move (p : Pump) (d : Stream) : Move → Option Pump
  | .read =>
    if p.stage = .reading then
      match d.readAfter p.lastID with
      | [] => some p
      | batch =>
        some { p with batch := batch, stage := .sending, first := p.first.or d.oldest }
    else none
  | .send =>
    match p.stage, p.batch with
    | .sending, e :: rest =>
      some { p with
        lastID := e.cursor
        batch := rest
        sent := p.sent ++ [e]
        stage := if rest = [] then .reading else .sending }
    | _, _ => none
  | .stop => if p.stage = .ended then none else some { p with stage := .ended }

/-- The request asks for everything that is retained. -/
def Replays (req : WatchRequest) : Prop := req.fromCursor = 0 ∧ req.replay = true

instance : Decidable (Replays req) := inferInstanceAs (Decidable (_ ∧ _))

structure Watched where
  stream : Stream
  pump : Pump

namespace Watched

/-- The entry after the last one sent has not been trimmed; a replay may begin
anywhere. -/
def Kept (req : WatchRequest) (w : Watched) : Prop :=
  w.stream.trimmed ≤ w.pump.lastID ∨ Replays req ∧ w.pump.sent = []

/-- One step; those of the pump are named. -/
inductive Step (w : Watched) : Option Move → Watched → Prop
  | write {d : Stream} : w.stream.Write d → Step w none { w with stream := d }
  | move {p : Pump} (m : Move) : w.pump.move w.stream m = some p →
      Step w (some m) { w with pump := p }

/-- A step of any kind; every `XREAD` finds what the pump needs. -/
def CarefulStep (req : WatchRequest) (w w' : Watched) : Prop :=
  ∃ a, Step w a w' ∧ (a = some .read → w.Kept req)

end Watched

/-! ## The stream stays numbered -/

namespace Stream

variable {d d' : Stream}

theorem recordEvent_events (s : State) (id : NodeID) (kind : EventKind)
    (fromStatus toStatus : Status) (reason : Reason) (message : String) (attempt : ℕ)
    (nodeKind : String) (atMs : Int) :
    ∃ e : Effect, e.cursor = s.cursor + 1 ∧
      (s.recordEvent id kind fromStatus toStatus reason message attempt nodeKind atMs).events =
        s.events ++ [e] ∧
      (s.recordEvent id kind fromStatus toStatus reason message attempt nodeKind atMs).cursor =
        s.cursor + 1 := by
  have hmod : ∀ f, (s.modNode id f).cursor = s.cursor ∧ (s.modNode id f).events = s.events := by
    intro f
    unfold State.modNode
    split <;> exact ⟨rfl, rfl⟩
  unfold State.recordEvent
  dsimp only
  rw [(hmod _).1, (hmod _).2]
  exact ⟨_, rfl, rfl, rfl⟩

theorem Numbered.write (h : d.Numbered) (hw : d.Write d') :
    d'.Numbered ∧ d.store.events <+: d'.store.events := by
  cases hw with
  | record id kind fromStatus toStatus reason message attempt nodeKind atMs htrim =>
    obtain ⟨e, he, hevents, hcursor⟩ := recordEvent_events d.store id kind fromStatus toStatus
      reason message attempt nodeKind atMs
    have hroom := h.room
    refine ⟨⟨?_, ?_, ?_⟩, ?_⟩
    · dsimp only
      rw [hcursor, hevents, h.cursor, List.length_append, List.length_singleton]
    · dsimp only
      rw [hevents, List.map_append, h.stamps, List.map_singleton, he, h.cursor,
        List.length_append, List.length_singleton, List.range'_concat]
      simp [Nat.add_comm]
    · dsimp only
      rw [hevents, List.length_append, List.length_singleton]
      omega
    · exact hevents ▸ List.prefix_append _ _
  | quiet hevents hcursor =>
    refine ⟨⟨?_, ?_, ?_⟩, ?_⟩
    · dsimp only
      rw [hevents, hcursor]
      exact h.cursor
    · dsimp only
      rw [hevents]
      exact h.stamps
    · dsimp only
      rw [hevents]
      exact h.room
    · dsimp only
      rw [hevents]

theorem Numbered.writes (h : d.Numbered) (hw : ReflTransGen Write d d') :
    d'.Numbered := by
  induction hw with
  | refl => exact h
  | tail _ hstep ih => exact (ih.write hstep).1

/-- `XREAD` returns consecutive entries, from the oldest one on if that comes later. -/
theorem Numbered.readAfter_eq (h : d.Numbered) (lastID : ℕ) :
    d.readAfter lastID = (d.store.events.drop (max d.trimmed lastID)).take readCount := by
  rw [readAfter, entries, drop_filter_of_numbered h.stamps]

theorem Numbered.readAfter_cursors (h : d.Numbered) (lastID : ℕ) :
    (d.readAfter lastID).map Effect.cursor =
      List.range' (max d.trimmed lastID + 1) (d.readAfter lastID).length := by
  rw [h.readAfter_eq]
  apply map_eq_range'_of_prefix h.stamps (Nat.succ_pos _)
  exact List.take_prefix _ _

theorem Numbered.oldest_eq (h : d.Numbered) {o : ℕ} (ho : d.oldest = some o) :
    o = d.trimmed + 1 := by
  obtain ⟨e, he, rfl⟩ := Option.map_eq_some_iff.mp ho
  have hstamps := congrArg (fun l => (l.drop d.trimmed).head?) h.stamps
  rw [Stream.entries] at he
  simp only [← List.map_drop, List.head?_map, he, List.drop_range', List.head?_range'] at hstamps
  split at hstamps
  · cases hstamps
  · simp only [Option.map_some, Option.some.injEq] at hstamps
    omega

theorem Numbered.oldest_of_readAfter (h : d.Numbered) {lastID : ℕ}
    (hne : d.readAfter lastID ≠ []) : d.oldest = some (d.trimmed + 1) := by
  cases ho : d.oldest with
  | none =>
    rw [Stream.oldest, Option.map_eq_none_iff, List.head?_eq_none_iff] at ho
    rw [readAfter, ho] at hne
    exact absurd rfl hne
  | some o => rw [h.oldest_eq ho]

end Stream

/-! ## Runs -/

namespace Watched

variable {req : WatchRequest} {base : ℕ} {w w' : Watched}

/-- Where the entries sent begin; for a replay, the oldest entry there was. -/
def start (req : WatchRequest) (base : ℕ) (w : Watched) : ℕ :=
  if Replays req then w.pump.first.getD base else base

/-- What the pump has sent and still holds are entries with consecutive numbers, and
`lastID` is the last one sent.  A replay fixes its start with the first batch. -/
structure Inv (req : WatchRequest) (base : ℕ) (w : Watched) : Prop where
  numbered : w.stream.Numbered
  known : ∀ e ∈ w.pump.sent ++ w.pump.batch, e ∈ w.stream.store.events
  cursors : (w.pump.sent ++ w.pump.batch).map Effect.cursor =
    List.range' (w.start req base) (w.pump.sent ++ w.pump.batch).length
  position : w.pump.lastID + 1 = w.start req base + w.pump.sent.length ∨
    Replays req ∧ w.pump.sent = []
  fresh : Replays req → w.pump.sent = [] → w.pump.lastID = 0
  first : w.pump.first = none ↔ w.pump.sent ++ w.pump.batch = []
  stage : w.pump.stage = .reading → w.pump.batch = []

section

variable (h : w.Inv req base)
include h

theorem Inv.write {d : Stream} (hw : w.stream.Write d) : Inv req base { w with stream := d } := by
  obtain ⟨hnumbered, hprefix⟩ := h.numbered.write hw
  exact ⟨hnumbered, fun e he => hprefix.subset (h.known e he), h.cursors, h.position, h.fresh,
    h.first, h.stage⟩

theorem Inv.read (hkept : w.Kept req) {p : Pump} (hp : w.pump.move w.stream .read = some p) :
    Inv req base { w with pump := p } := by
  obtain ⟨hstage, hp⟩ := Option.ite_none_right_eq_some.mp hp
  have hbatch := h.stage hstage
  have hcursors := h.numbered.readAfter_cursors w.pump.lastID
  have hsent := h.cursors
  have hfirst := h.first
  rw [hbatch, List.append_nil] at hsent hfirst
  split at hp
  · cases hp
    exact h
  rename_i batch hread
  cases hp
  have hne : w.stream.readAfter w.pump.lastID ≠ [] := hread
  have holdest := h.numbered.oldest_of_readAfter hne
  have hknown : ∀ e ∈ w.pump.sent ++ w.stream.readAfter w.pump.lastID,
      e ∈ w.stream.store.events := by
    intro e he
    rcases List.mem_append.mp he with he | he
    · exact h.known e (List.mem_append_left _ he)
    · rw [h.numbered.readAfter_eq] at he
      exact List.mem_of_mem_drop (List.mem_of_mem_take he)
  have hbegun : w.pump.first.or w.stream.oldest = none ↔
      w.pump.sent ++ w.stream.readAfter w.pump.lastID = [] := by
    simp [holdest, hne]
  by_cases hfresh : Replays req ∧ w.pump.sent = []
  · refine ⟨h.numbered, hknown, ?_, .inr hfresh, h.fresh, hbegun, fun hstage => by cases hstage⟩
    dsimp only [start]
    rw [h.fresh hfresh.1 hfresh.2, Nat.max_zero] at hcursors
    rw [if_pos hfresh.1, hfirst.mpr hfresh.2, Option.none_or, holdest, hfresh.2,
      h.fresh hfresh.1 hfresh.2]
    exact hcursors
  · -- the start is fixed
    have hsame : start req base { w with pump := { w.pump with
        batch := w.stream.readAfter w.pump.lastID, stage := .sending
        first := w.pump.first.or w.stream.oldest } } = w.start req base := by
      by_cases hreplay : Replays req
      · have hsome : w.pump.first ≠ none := fun hnone => hfresh ⟨hreplay, hfirst.mp hnone⟩
        obtain ⟨o, ho⟩ := Option.ne_none_iff_exists'.mp hsome
        simp [start, ho]
      · simp [start, hreplay]
    have hpos := h.position.resolve_right hfresh
    refine ⟨h.numbered, hknown, ?_, .inl ?_, h.fresh, hbegun, fun hstage => by cases hstage⟩
    · rw [max_eq_right (hkept.resolve_right hfresh), hpos] at hcursors
      rw [hsame, List.map_append, hsent, hcursors, List.length_append, List.range'_append_1]
    · rw [hsame]
      exact hpos

theorem Inv.send {p : Pump} (hp : w.pump.move w.stream .send = some p) :
    Inv req base { w with pump := p } := by
  simp only [Pump.move] at hp
  split at hp
  · rename_i e rest hstage hbatch
    cases hp
    have hknown := h.known
    have hcursors := h.cursors
    have hfirst := h.first
    rw [hbatch, List.append_cons] at hknown hcursors hfirst
    refine ⟨h.numbered, hknown, hcursors, .inl ?_, fun _ hnil => ?_, hfirst, fun hstage => ?_⟩
    · have hlast : e.cursor = w.start req base + w.pump.sent.length := by
        have hget := congrArg (fun l => l[w.pump.sent.length]?) hcursors
        simpa [List.getElem?_range'] using hget
      change e.cursor + 1 = w.start req base + (w.pump.sent ++ [e]).length
      rw [hlast, List.length_append, List.length_singleton]
      omega
    · simp at hnil
    · dsimp only at hstage ⊢
      split at hstage
      · assumption
      · cases hstage
  · cases hp

theorem Inv.step (hstep : CarefulStep req w w') : w'.Inv req base := by
  obtain ⟨a, hstep, hkept⟩ := hstep
  cases hstep with
  | write hw => exact h.write hw
  | move m hm =>
    cases m with
    | read => exact h.read (hkept rfl) hm
    | send => exact h.send hm
    | stop =>
      simp only [Pump.move] at hm
      split at hm
      · cases hm
      · cases hm
        exact ⟨h.numbered, h.known, h.cursors, h.position, h.fresh, h.first,
          fun hstage => by cases hstage⟩

theorem Inv.steps (hsteps : ReflTransGen (CarefulStep req) w w') : w'.Inv req base := by
  induction hsteps with
  | refl => exact h
  | tail _ hstep ih => exact ih.step hstep

end

end Watched

/-- A start that is not refused has lost nothing it needs yet. -/
theorem trimmed_le_of_watchStartID {d d' : Stream} {lastID : ℕ} (hd : d.Numbered)
    (hfrom : 0 < req.fromCursor) (h : watchStartID d d' req = .ok lastID) :
    d.trimmed ≤ req.fromCursor ∧ lastID = req.fromCursor := by
  have hroom := hd.room
  unfold watchStartID at h
  rw [if_pos hfrom] at h
  split at h
  · rename_i o ho
    split at h
    · cases h
    rename_i hle
    cases h
    have hwrap : uint64 (req.fromCursor + 1) ≤ req.fromCursor + 1 := Nat.mod_le _ _
    rw [hd.oldest_eq ho] at hle
    exact ⟨by omega, rfl⟩
  · rename_i ho
    have hempty : d.store.events.drop d.trimmed = [] := by
      rw [Stream.oldest, Stream.entries] at ho
      simpa using ho
    rw [List.drop_eq_nil_iff] at hempty
    have hmax : maxLen = 20000 := rfl
    split at h
    · cases h
    · cases h
      exact ⟨by omega, rfl⟩

/-- What a request begins after. -/
theorem lastID_of_watchStartID {d d' : Stream} {lastID : ℕ}
    (h : watchStartID d d' req = .ok lastID) :
    lastID = if 0 < req.fromCursor then req.fromCursor
      else if req.replay then 0 else d'.store.cursor := by
  unfold watchStartID at h
  by_cases hfrom : 0 < req.fromCursor
  · rw [if_pos hfrom] at h ⊢
    split at h
    · split at h
      · cases h
      · exact (Except.ok.inj h).symm
    · split at h
      · cases h
      · exact (Except.ok.inj h).symm
  · rw [if_neg hfrom] at h ⊢
    by_cases hreplay : req.replay = true
    · rw [if_pos hreplay] at h ⊢
      exact (Except.ok.inj h).symm
    · rw [if_neg hreplay] at h ⊢
      exact (Except.ok.inj h).symm

/-- **When `Watch` has no silent hole.**  A start is refused if an entry it needs has been
trimmed.  As long as at every `XREAD` the entry after the last one sent has not been
trimmed, the entries sent have consecutive cursors from the start on; a replay starts at the
oldest entry retained when the first ones are read. -/
theorem watch_unbroken {s₀ : State} {d d' : Stream} {req : WatchRequest} {lastID : ℕ}
    {w : Watched} (hempty : s₀.events = [] ∧ s₀.cursor = 0)
    (hreach : ReflTransGen Stream.Write { store := s₀ } d)
    (hwrites : ReflTransGen Stream.Write d d')
    (hstart : watchStartID d d' req = .ok lastID)
    (hsteps : ReflTransGen (Watched.CarefulStep req)
      { stream := d', pump := { lastID := lastID } } w) :
    (0 < req.fromCursor → d.trimmed ≤ req.fromCursor) ∧
    (w.pump.sent ≠ [] → w.pump.first ≠ none) ∧
    w.pump.sent.map Effect.cursor = List.range'
      (if 0 < req.fromCursor then req.fromCursor + 1
        else if req.replay then w.pump.first.getD 1 else d'.store.cursor + 1)
      w.pump.sent.length ∧
    ∀ e ∈ w.pump.sent, e ∈ w.stream.store.events := by
  have hzero : Stream.Numbered { store := s₀ } := by
    refine ⟨?_, ?_, .inl rfl⟩
    · rw [hempty.1, hempty.2]
      rfl
    · rw [hempty.1]
      rfl
  have hd := hzero.writes hreach
  have hlast := lastID_of_watchStartID hstart
  have hinv : Watched.Inv req (lastID + 1) { stream := d', pump := { lastID := lastID } } := by
    refine ⟨hd.writes hwrites, by simp, rfl, .inl ?_, fun hreplay _ => ?_, by simp, fun _ => rfl⟩
    · exact (ite_self (lastID + 1)).symm
    · rw [hlast, if_neg hreplay.1.not_gt, if_pos hreplay.2]
  have h := hinv.steps hsteps
  refine ⟨fun hfrom => (trimmed_le_of_watchStartID hd hfrom hstart).1, fun hsent hnone => ?_, ?_,
    fun e he => h.known e (List.mem_append_left _ he)⟩
  · exact hsent (List.append_eq_nil_iff.mp (h.first.mp hnone)).1
  · have hcursors := h.cursors
    rw [List.map_append, List.length_append, ← List.range'_append_1] at hcursors
    rw [(List.append_inj hcursors (by simp)).1, Watched.start, hlast]
    by_cases hfrom : 0 < req.fromCursor
    · rw [if_pos hfrom, if_pos hfrom, if_neg fun hreplay => hfrom.ne' hreplay.1]
    · have hzero := Nat.eq_zero_of_not_pos hfrom
      by_cases hreplay : req.replay = true
      · rw [if_pos ⟨hzero, hreplay⟩]
        simp [hfrom, hreplay]
      · rw [if_neg fun h => hreplay h.2]
        simp [hfrom, hreplay]

/-- A scope in which `n` events were recorded. -/
def recorded : ℕ → State
  | 0 => {}
  | n + 1 => (recorded n).recordEvent "a" .ready .new .new .none "" 0 "" 0

theorem recorded_writes :
    ReflTransGen Stream.Write { store := {} } { store := recorded n } := by
  induction n with
  | zero => exact .refl
  | succ n ih => exact .tail ih (.record "a" .ready .new .new .none "" 0 "" 0 (.inl rfl))

theorem length_recorded : (recorded n).events.length = n := by
  induction n with
  | zero => rfl
  | succ n ih =>
    obtain ⟨e, -, hevents, -⟩ := Stream.recordEvent_events (recorded n) "a" .ready .new .new
      .none "" 0 "" 0
    rw [recorded, hevents, List.length_append, ih, List.length_singleton]

/-- The pump makes the given moves, and nothing else happens. -/
def Watched.drive : List Move → Watched → Option Watched
  | [], w => some w
  | m :: ms, w =>
    match w.pump.move w.stream m with
    | some p => drive ms { w with pump := p }
    | none => none

theorem Watched.careful_of_drive {ms : List Move} {w w' : Watched}
    (huntrimmed : w.stream.trimmed = 0) (h : drive ms w = some w') :
    ReflTransGen (CarefulStep req) w w' := by
  induction ms generalizing w with
  | nil =>
    cases h
    exact .refl
  | cons m ms ih =>
    rw [drive] at h
    split at h
    · rename_i p hp
      have hkept : w.Kept req := .inl (huntrimmed ▸ Nat.zero_le _)
      exact .head ⟨some m, .move m hp, fun _ => hkept⟩ (ih huntrimmed h)
    · cases h

theorem recorded_three_unbroken : ∃ w : Watched,
    ReflTransGen (Watched.CarefulStep { scope := "jobs", fromCursor := 1 })
      { stream := { store := recorded 3 }, pump := { lastID := 1 } } w ∧
    w.pump.sent.length = 2 ∧ w.pump.sent.map Effect.cursor = List.range' 2 w.pump.sent.length := by
  have hdrive : ((Watched.drive [.read, .send, .send]
      { stream := { store := recorded 3 }, pump := { lastID := 1 } }).any fun w =>
        decide (w.pump.sent.length = 2)) = true := by
    decide +kernel
  obtain ⟨w, hw, hlen⟩ := (Option.any_eq_true _ _).mp hdrive
  have hsteps : ReflTransGen
      (Watched.CarefulStep { scope := "jobs", fromCursor := 1 }) _ w :=
    Watched.careful_of_drive rfl hw
  have hstartID : watchStartID { store := recorded 3 } { store := recorded 3 }
      { scope := "jobs", fromCursor := 1 } = .ok 1 := by
    decide +kernel
  obtain ⟨-, -, hsent, -⟩ :=
    watch_unbroken ⟨rfl, rfl⟩ (recorded_writes 3) .refl hstartID hsteps
  exact ⟨w, hsteps, of_decide_eq_true hlen, hsent⟩

theorem recorded_numbered : Stream.Numbered { store := recorded n } :=
  Stream.Numbered.writes ⟨rfl, rfl, .inl rfl⟩ (recorded_writes n)

/-- A stream that has lost its first two entries. -/
theorem overtaken_writes {n : ℕ} (hn : maxLen ≤ n) :
    ReflTransGen Stream.Write { store := recorded n }
      { store := recorded (n + 2), trimmed := 2 } := by
  refine .tail (.single (.record "a" .ready .new .new .none "" 0 "" 0 (.inl rfl)))
    (.record "a" .ready .new .new .none "" 0 "" 0 (.inr ⟨Nat.zero_le _, ?_⟩))
  have hlen := length_recorded (n + 1)
  rw [recorded] at hlen
  rw [hlen]
  omega

theorem Watched.steps_of_writes {d d' : Stream} (h : ReflTransGen Stream.Write d d')
    (p : Pump) :
    ReflTransGen (fun w w' => ∃ a, Watched.Step w a w')
      { stream := d, pump := p } { stream := d', pump := p } := by
  induction h with
  | refl => exact .refl
  | tail _ hw ih => exact .tail ih ⟨none, .write hw⟩

/-- Two more events are recorded between the check of the start and the first read: the
stream that was to begin with cursor 2 begins with cursor 3. -/
theorem exists_hole {n : ℕ} (hn : maxLen ≤ n) : ∃ w : Watched,
    watchStartID { store := recorded n } { store := recorded n }
      { scope := "jobs", fromCursor := 1 } = .ok 1 ∧
    ReflTransGen (fun w w' => ∃ a, Watched.Step w a w')
      { stream := { store := recorded n }, pump := { lastID := 1 } } w ∧
    w.pump.sent.map Effect.cursor = [3] := by
  have hmax : maxLen = 20000 := rfl
  have holdest : Stream.oldest { store := recorded n } = some 1 := by
    have hhead := congrArg List.head? (recorded_numbered n).stamps
    rw [List.head?_map, length_recorded, List.head?_range', if_neg (by omega)] at hhead
    exact hhead
  have hstart : watchStartID { store := recorded n } { store := recorded n }
      { scope := "jobs", fromCursor := 1 } = .ok 1 := by
    simp [watchStartID, holdest, uint64]
  set d : Stream := { store := recorded (n + 2), trimmed := 2 } with hd
  have htrimmed : max d.trimmed 1 = 2 := rfl
  have hnumbered : d.Numbered := (recorded_numbered n).writes (overtaken_writes hn)
  have hcursors := hnumbered.readAfter_cursors 1
  have hlen : (d.readAfter 1).length ≠ 0 := by
    rw [hnumbered.readAfter_eq, htrimmed, List.length_take, List.length_drop, length_recorded,
      readCount]
    omega
  cases hbatch : d.readAfter 1 with
  | nil => exact absurd (congrArg List.length hbatch) hlen
  | cons e rest =>
    rw [hbatch, htrimmed] at hcursors
    have hfirst : e.cursor = 3 := by
      simpa [List.range'_succ] using congrArg List.head? hcursors
    have hread : Pump.move { lastID := 1 } d .read =
        some { lastID := 1, batch := e :: rest, stage := .sending, first := d.oldest } := by
      simp [Pump.move, hbatch]
    have hsend : Pump.move
        { lastID := 1, batch := e :: rest, stage := .sending, first := d.oldest } d .send =
          some { lastID := e.cursor, batch := rest, sent := [e], first := d.oldest,
                 stage := if rest = [] then .reading else .sending } := rfl
    have hsteps := Watched.steps_of_writes (overtaken_writes hn) { lastID := 1 }
    exact ⟨_, hstart, .tail (.tail hsteps ⟨_, .move .read hread⟩) ⟨_, .move .send hsend⟩,
      by simp [hfirst]⟩

theorem recorded_hole : ∃ w : Watched,
    ReflTransGen Stream.Write { store := {} } { store := recorded maxLen } ∧
    watchStartID { store := recorded maxLen } { store := recorded maxLen }
      { scope := "jobs", fromCursor := 1 } = .ok 1 ∧
    ReflTransGen (fun w w' => ∃ a, Watched.Step w a w')
      { stream := { store := recorded maxLen }, pump := { lastID := 1 } } w ∧
    w.pump.sent.map Effect.cursor = [3] := by
  obtain ⟨w, hstart, hsteps, hsent⟩ := exists_hole (le_refl maxLen)
  exact ⟨w, recorded_writes maxLen, hstart, hsteps, hsent⟩

end DagWorker.Redis.Watch
