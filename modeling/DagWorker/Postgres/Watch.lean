import DagWorker.Core.Backoff
import DagWorker.Postgres.Statements
import Mathlib.Data.List.Sort
import Mathlib.Tactic.Common

/-!
# Watching the event log

An event row gets its cursor when it is inserted and becomes visible when its
transaction commits.  The pump of a `Watch` reads the visible rows from its position
on, in cursor order, and moves its position past the last one.  A row that commits
behind the position is never read.
-/

namespace DagWorker.Postgres.Watch

/-! ## The event table and the pump -/

def cursorOf (e : Event) : ℕ := e.effect.cursor

/-- `dagw.events`: the next value of the identity column, the rows of the transactions in
flight, and the committed rows. -/
structure Table where
  nextCursor : ℕ := 1
  pending : List (ℕ × Event) := []
  committed : List Event := []

/-- What a transaction does to the table. -/
inductive Write
  /-- `insertEvent`: the row takes the next cursor. -/
  | insert (tx : ℕ) (scope : String) (effect : Effect)
  | commit (tx : ℕ)
  | rollback (tx : ℕ)

namespace Table

def rowsOf (t : Table) (tx : ℕ) : List Event :=
  (t.pending.filter fun p => p.1 = tx).map Prod.snd

def write (t : Table) : Write → Table
  | .insert tx scope effect =>
    { t with
      nextCursor := t.nextCursor + 1
      pending := (tx, ⟨scope, { effect with cursor := t.nextCursor }⟩) :: t.pending }
  | .commit tx =>
    { t with
      pending := t.pending.filter fun p => p.1 ≠ tx
      committed := t.committed ++ t.rowsOf tx }
  | .rollback tx => { t with pending := t.pending.filter fun p => p.1 ≠ tx }

/-- The visible rows of a scope from a cursor on, in cursor order. -/
def readEvents (t : Table) (scope : String) (fromCursor : Int) (limit : ℕ) : List Event :=
  ((t.committed.filter fun e => e.scope = scope && fromCursor ≤ cursorOf e).insertionSort
    fun a b => cursorOf a ≤ cursorOf b).take limit

end Table

def eventBatchSize : ℕ := 256

/-- The table together with one pump: its position and the events it has sent. -/
structure State where
  table : Table
  scope : String
  next : Int
  sent : List Event := []

/-- The position `Watch` starts from, in 64 bits: past the largest cursor it is the
least one. -/
def startOf (t : Table) (req : WatchRequest) : Int :=
  if 0 < req.fromCursor then int64 (widenI64 req.fromCursor + 1)
  else if req.replay then 0
  else (((t.committed.filter fun e => e.scope = req.scope).map cursorOf).foldl max 0) + 1

/-- `Watch`; a request without a scope is refused. -/
def watch (t : Table) (req : WatchRequest) : Option State :=
  if req.scope = "" then none
  else some { table := t, scope := req.scope, next := startOf t req }

inductive Action
  | write (w : Write)
  /-- One round of `pump`. -/
  | poll

namespace State

/-- `out <- ev` and `next = widenI64(ev.Cursor) + 1`.  The last value of the identity
column, where the sum wraps, is left out. -/
def deliver (st : State) (e : Event) : State :=
  { st with sent := st.sent ++ [e], next := cursorOf e + 1 }

def batch (st : State) : List Event := st.table.readEvents st.scope st.next eventBatchSize

def poll (st : State) : State := st.batch.foldl deliver st

def step (st : State) : Action → State
  | .write w => { st with table := st.table.write w }
  | .poll => st.poll

def run (st : State) (as : List Action) : State := as.foldl step st

end State

def polls : List Action → ℕ
  | [] => 0
  | .write _ :: as => polls as
  | .poll :: as => polls as + 1

theorem polls_replicate (n : ℕ) : polls (List.replicate n .poll) = n := by
  induction n with
  | zero => rfl
  | succ n ih => rw [List.replicate_succ, polls, ih]

/-! ## Cursors are unique -/

namespace Table

variable {t : Table}

def cursors (t : Table) : List ℕ :=
  t.pending.map (fun p => cursorOf p.2) ++ t.committed.map cursorOf

/-- Every row has its own cursor, given out by the identity column. -/
structure Valid (t : Table) : Prop where
  nodup : t.cursors.Nodup
  lt_next : ∀ c ∈ t.cursors, c < t.nextCursor

theorem Valid.empty : ({} : Table).Valid := ⟨List.nodup_nil, by simp [cursors]⟩

theorem cursors_commit (t : Table) (tx : ℕ) : (t.write (.commit tx)).cursors.Perm t.cursors := by
  have hsplit : t.pending.Perm
      (t.pending.filter (fun p => p.1 = tx) ++ t.pending.filter fun p => p.1 ≠ tx) := by
    have := (List.filter_append_perm (fun p : ℕ × Event => decide (p.1 = tx)) t.pending).symm
    simpa using this
  have hrows : (t.rowsOf tx).map cursorOf =
      (t.pending.filter fun p => p.1 = tx).map fun p => cursorOf p.2 := by
    rw [rowsOf, List.map_map]
    rfl
  simp only [cursors, write, List.map_append, hrows]
  refine List.Perm.trans ?_ ((hsplit.map fun p => cursorOf p.2).append_right _).symm
  rw [List.map_append, List.append_assoc, ← List.append_assoc]
  exact List.perm_append_comm

theorem Valid.write (h : t.Valid) (w : Write) : (t.write w).Valid := by
  cases w with
  | insert tx scope effect =>
    have hcur : (t.write (.insert tx scope effect)).cursors = t.nextCursor :: t.cursors := rfl
    refine ⟨?_, fun c hc => ?_⟩
    · rw [hcur, List.nodup_cons]
      exact ⟨fun hmem => lt_irrefl _ (h.lt_next _ hmem), h.nodup⟩
    rw [hcur] at hc
    rcases List.mem_cons.mp hc with rfl | hc
    · exact Nat.lt_succ_self _
    · exact Nat.lt_succ_of_lt (h.lt_next c hc)
  | commit tx =>
    refine ⟨(cursors_commit t tx).nodup_iff.mpr h.nodup, fun c hc => ?_⟩
    exact h.lt_next c ((cursors_commit t tx).mem_iff.mp hc)
  | rollback tx =>
    have hsub : (t.write (.rollback tx)).cursors.Sublist t.cursors :=
      ((List.filter_sublist).map _).append_right _
    exact ⟨h.nodup.sublist hsub, fun c hc => h.lt_next c (hsub.subset hc)⟩

theorem Valid.committed_inj (h : t.Valid) {a b : Event} (ha : a ∈ t.committed)
    (hb : b ∈ t.committed) (heq : cursorOf a = cursorOf b) : a = b :=
  List.inj_on_of_nodup_map (List.nodup_append.mp h.nodup).2.1 ha hb heq

theorem Valid.pending_ne (h : t.Valid) {p : ℕ × Event} {e : Event} (hp : p ∈ t.pending)
    (he : e ∈ t.committed) : cursorOf p.2 ≠ cursorOf e :=
  (List.nodup_append.mp h.nodup).2.2 _ (List.mem_map_of_mem hp) _ (List.mem_map_of_mem he)

end Table

/-! ## One round of the pump -/

namespace State

variable {st : State} {e : Event}

/-- The event is one the pump has to send, as the table stands. -/
def Waiting (st : State) (e : Event) : Prop :=
  e ∈ st.table.committed ∧ e.scope = st.scope ∧ st.next ≤ cursorOf e

theorem mem_batch (h : e ∈ st.batch) : st.Waiting e := by
  have hmem := List.mem_of_mem_take h
  simpa [Waiting, and_assoc] using hmem

/-- What a batch leaves out comes after all of it, and then it is not empty. -/
theorem le_of_notMem_batch (h : st.Waiting e) (hout : e ∉ st.batch) :
    st.batch ≠ [] ∧ ∀ b ∈ st.batch, cursorOf b ≤ cursorOf e := by
  set rows := (st.table.committed.filter fun e => e.scope = st.scope && st.next ≤ cursorOf e)
    |>.insertionSort fun a b => cursorOf a ≤ cursorOf b with hrows
  have hmem : e ∈ rows := by
    rw [hrows, (List.perm_insertionSort _ _).mem_iff]
    simpa [Waiting, and_assoc] using h
  have hbatch : st.batch = rows.take eventBatchSize := rfl
  have hsplit : rows = st.batch ++ rows.drop eventBatchSize := by
    rw [hbatch, List.take_append_drop]
  have hdrop : e ∈ rows.drop eventBatchSize := by
    rw [hsplit] at hmem
    exact (List.mem_append.mp hmem).resolve_left hout
  have hsorted : rows.Pairwise fun a b => cursorOf a ≤ cursorOf b :=
    List.pairwise_insertionSort _ _
  rw [hsplit, List.pairwise_append] at hsorted
  refine ⟨fun hnil => ?_, fun b hb => hsorted.2.2 b hb e hdrop⟩
  rw [hbatch, List.take_eq_nil_iff] at hnil
  rcases hnil with hzero | hnil
  · cases hzero
  · rw [hnil] at hmem
    cases hmem

/-- What delivering a list of events in cursor order comes to. -/
theorem foldl_deliver (es : List Event) (st : State) :
    (es.foldl deliver st).table = st.table ∧ (es.foldl deliver st).scope = st.scope ∧
      (es.foldl deliver st).sent = st.sent ++ es ∧
      (es = [] → (es.foldl deliver st).next = st.next) ∧
      (es ≠ [] → ∃ b ∈ es, (es.foldl deliver st).next = cursorOf b + 1) := by
  induction es generalizing st with
  | nil => simp
  | cons a es ih =>
    obtain ⟨ht, hs, hsent, hnil, hcons⟩ := ih (st.deliver a)
    refine ⟨ht, hs, ?_, fun h => (List.cons_ne_nil _ _ h).elim, fun _ => ?_⟩
    · rw [List.foldl_cons, hsent]
      simp [deliver]
    cases es with
    | nil => exact ⟨a, .head _, rfl⟩
    | cons b es =>
      obtain ⟨c, hc, hnext⟩ := hcons (List.cons_ne_nil _ _)
      exact ⟨c, .tail _ hc, hnext⟩

@[simp] theorem poll_table (st : State) : st.poll.table = st.table := (foldl_deliver _ st).1

@[simp] theorem poll_scope (st : State) : st.poll.scope = st.scope := (foldl_deliver _ st).2.1

theorem poll_sent (st : State) : st.poll.sent = st.sent ++ st.batch := (foldl_deliver _ st).2.2.1

theorem next_le_poll (st : State) : st.next ≤ st.poll.next := by
  obtain ⟨-, -, -, hnil, hcons⟩ := foldl_deliver st.batch st
  by_cases h : st.batch = []
  · exact (hnil h).ge
  obtain ⟨b, hb, hnext⟩ := hcons h
  have := (mem_batch hb).2.2
  rw [poll, hnext]
  omega

/-- The batch holds every waiting event the position moves past, and when it leaves out
one, the position moves. -/
theorem poll_waiting (hv : st.table.Valid) (h : st.Waiting e) (hout : e ∉ st.batch) :
    st.next < st.poll.next ∧ st.poll.Waiting e := by
  obtain ⟨hne, hle⟩ := le_of_notMem_batch h hout
  obtain ⟨b, hb, hnext⟩ := (foldl_deliver st.batch st).2.2.2.2 hne
  have hbw := mem_batch hb
  have hlt : cursorOf b < cursorOf e := by
    refine lt_of_le_of_ne (hle b hb) fun heq => hout ?_
    rwa [← hv.committed_inj hbw.1 h.1 heq]
  have hpoll : st.poll.next = cursorOf b + 1 := hnext
  refine ⟨?_, by simpa using h.1, by simpa using h.2.1, ?_⟩
  · have := hbw.2.2
    omega
  · omega

/-! ## Runs -/

/-- What holds along every run: rows have their own cursors, and only visible rows are
sent. -/
structure Sound (st : State) : Prop where
  valid : st.table.Valid
  sent_committed : ∀ e ∈ st.sent, e ∈ st.table.committed

theorem committed_subset_write (t : Table) (w : Write) : t.committed ⊆ (t.write w).committed := by
  cases w with
  | insert | rollback => exact List.Subset.refl _
  | commit tx => exact List.subset_append_left _ _

theorem Sound.step (h : st.Sound) (a : Action) : (st.step a).Sound := by
  cases a with
  | write w =>
    exact ⟨h.valid.write w, fun e he => committed_subset_write _ w (h.sent_committed e he)⟩
  | poll =>
    refine ⟨by simpa [State.step] using h.valid, fun e he => ?_⟩
    simp only [State.step, poll_sent, List.mem_append, poll_table] at he ⊢
    rcases he with he | he
    · exact h.sent_committed e he
    · exact (mem_batch he).1

theorem run_append (st : State) (as bs : List Action) : st.run (as ++ bs) = (st.run as).run bs :=
  List.foldl_append

theorem Sound.run (h : st.Sound) (as : List Action) : (st.run as).Sound := by
  induction as generalizing st with
  | nil => exact h
  | cons a as ih => exact ih (h.step a)

@[simp] theorem run_scope (st : State) (as : List Action) : (st.run as).scope = st.scope := by
  induction as generalizing st with
  | nil => rfl
  | cons a as ih =>
    rw [run, List.foldl_cons, ← run, ih]
    cases a with
    | write w => rfl
    | poll => exact poll_scope st

theorem sent_run_of_sent (h : e ∈ st.sent) (as : List Action) : e ∈ (st.run as).sent := by
  induction as generalizing st with
  | nil => exact h
  | cons a as ih =>
    refine ih ?_
    cases a with
    | write w => exact h
    | poll =>
      rw [step, poll_sent]
      exact List.mem_append_left _ h

/-- A waiting event is sent within as many rounds as its cursor is ahead, whatever the
transactions do meanwhile. -/
theorem sent_of_waiting (hs : st.Sound) (h : st.Waiting e) (as : List Action)
    (hpolls : cursorOf e - st.next < (polls as : Int)) : e ∈ (st.run as).sent := by
  induction as generalizing st with
  | nil =>
    have := h.2.2
    rw [polls] at hpolls
    omega
  | cons a as ih =>
    cases a with
    | write w =>
      have hw : (st.step (.write w)).Waiting e := ⟨committed_subset_write _ w h.1, h.2⟩
      exact ih (hs.step (.write w)) hw hpolls
    | poll =>
      by_cases hin : e ∈ st.batch
      · have hsent : e ∈ st.poll.sent := by
          rw [poll_sent]
          exact List.mem_append_right _ hin
        exact sent_run_of_sent hsent as
      · obtain ⟨hlt, hw⟩ := poll_waiting hs.valid h hin
        have hle := hw.2.2
        rw [polls] at hpolls
        have hrest : cursorOf e - st.poll.next < polls as := by omega
        exact ih (hs.step .poll) hw hrest

/-- The pump never returns to what is behind its position. -/
theorem notMem_sent_of_lt (hbehind : cursorOf e < st.next) (h : e ∉ st.sent)
    (as : List Action) : e ∉ (st.run as).sent := by
  induction as generalizing st with
  | nil => exact h
  | cons a as ih =>
    cases a with
    | write w => exact ih hbehind h
    | poll =>
      refine ih (lt_of_lt_of_le hbehind (next_le_poll st)) ?_
      rw [step, poll_sent, List.mem_append, not_or]
      exact ⟨h, fun hin => absurd (mem_batch hin).2.2 (not_le.mpr hbehind)⟩

/-- However the run goes on, the event is part of some round's result after enough
rounds. -/
def Reached (st : State) (e : Event) : Prop :=
  ∃ n, ∀ as, n ≤ polls as → e ∈ (st.run as).sent

theorem not_reached_of_lt (hbehind : cursorOf e < st.next) (h : e ∉ st.sent) :
    ¬ st.Reached e := by
  rintro ⟨n, hn⟩
  exact notMem_sent_of_lt hbehind h (List.replicate n .poll) (hn _ (polls_replicate n).ge)

/-- No visible event after `fromCursor` is behind the position without having been
sent. -/
def NoneSkipped (fromCursor : ℕ) (st : State) : Prop :=
  ∀ e ∈ st.table.committed, e.scope = st.scope → fromCursor < cursorOf e →
    e ∈ st.sent ∨ st.next ≤ cursorOf e

/-- The transaction commits no event of the scope behind the position of the pump. -/
def InOrder (fromCursor : ℕ) (st : State) (tx : ℕ) : Prop :=
  ∀ e ∈ st.table.rowsOf tx, e.scope = st.scope → fromCursor < cursorOf e → st.next ≤ cursorOf e

theorem NoneSkipped.step {fromCursor : ℕ} (hs : st.Sound) (h : st.NoneSkipped fromCursor)
    {a : Action} (ha : ∀ tx, a = .write (.commit tx) → st.InOrder fromCursor tx) :
    (st.step a).NoneSkipped fromCursor := by
  intro e he hscope hfrom
  cases a with
  | poll =>
    simp only [State.step, poll_table, poll_scope] at he hscope ⊢
    rw [poll_sent]
    by_cases hin : e ∈ st.batch
    · exact .inl (List.mem_append_right _ hin)
    · rcases h e he hscope hfrom with hsent | hle
      · exact .inl (List.mem_append_left _ hsent)
      · exact .inr (poll_waiting hs.valid ⟨he, hscope, hle⟩ hin).2.2.2
  | write w =>
    cases w with
    | insert | rollback => exact h e he hscope hfrom
    | commit tx =>
      rcases List.mem_append.mp he with he | he
      · exact h e he hscope hfrom
      · exact .inr (ha tx rfl e he hscope hfrom)

/-- A row in flight has not been sent. -/
theorem Sound.notMem_sent_of_rowsOf (hs : st.Sound) {tx : ℕ} (he : e ∈ st.table.rowsOf tx) :
    e ∉ st.sent := by
  intro hsent
  obtain ⟨p, hp, rfl⟩ := List.mem_map.mp he
  exact hs.valid.pending_ne (List.mem_filter.mp hp).1 (hs.sent_committed _ hsent) rfl

end State

def tableAfter (ws : List Write) : Table := ws.foldl Table.write {}

theorem tableAfter_valid (ws : List Write) : (tableAfter ws).Valid := by
  have h : ∀ (ws : List Write) (t : Table), t.Valid → (ws.foldl Table.write t).Valid := by
    intro ws
    induction ws with
    | nil => exact fun t ht => ht
    | cons w ws ih => exact fun t ht => ih _ (ht.write w)
  exact h ws {} Table.Valid.empty

/-- A position after `From`, or that of a replay, is not past a later event. -/
theorem startOf_le {t : Table} {req : WatchRequest} {c : ℕ}
    (hstart : 0 < req.fromCursor ∨ req.replay = true) (hc : req.fromCursor < c) :
    startOf t req ≤ c := by
  unfold startOf
  split
  · by_cases hsmall : req.fromCursor < 2 ^ 63 - 1
    · have hwiden : widenI64 req.fromCursor = req.fromCursor := min_eq_left hsmall.le
      rw [hwiden, int64_of_lt (by omega) (by omega)]
      omega
    · have hwiden : widenI64 req.fromCursor = 2 ^ 63 - 1 := min_eq_right (not_lt.mp hsmall)
      have hwrap : int64 (((2 ^ 63 - 1 : ℕ) : Int) + 1) = -2 ^ 63 := by decide
      rw [hwiden, hwrap]
      omega
  · rw [if_pos (hstart.resolve_left ‹_›)]
    omega

open State in
/-- Throughout a run of a `Watch` with `From` or `Replay`, every visible event after `From`
is part of the result of some round sooner or later, exactly when no transaction commits
an event of the scope behind the position of the pump. -/
theorem watch_loses_nothing_iff {ws : List Write} {req : WatchRequest} {st : State}
    (hwatch : watch (tableAfter ws) req = some st)
    (hstart : 0 < req.fromCursor ∨ req.replay = true)
    (as : List Action) :
    (∀ i, ∀ e ∈ (st.run (as.take i)).table.committed, e.scope = req.scope →
        req.fromCursor < cursorOf e → (st.run (as.take i)).Reached e) ↔
      ∀ i tx, as[i]? = some (.write (.commit tx)) →
        (st.run (as.take i)).InOrder req.fromCursor tx := by
  have hst : st =
      { table := tableAfter ws, scope := req.scope, next := startOf (tableAfter ws) req } := by
    rw [watch] at hwatch
    split at hwatch
    · cases hwatch
    · cases hwatch
      rfl
  have hscope : ∀ i, (st.run (as.take i)).scope = req.scope := by
    intro i
    rw [run_scope, hst]
  have hsound : st.Sound := by
    rw [hst]
    exact ⟨tableAfter_valid ws, by simp⟩
  constructor
  · intro h i tx ha e he hsc hcur
    -- otherwise the event is behind the position once it is visible
    by_contra hlt
    have hnext : st.run (as.take (i + 1)) = (st.run (as.take i)).step (.write (.commit tx)) := by
      rw [List.take_add_one, ha, run_append]
      rfl
    have hreached := h (i + 1) e (by rw [hnext]; exact List.mem_append_right _ he)
      (hsc.trans (hscope i)) hcur
    rw [hnext] at hreached
    have hbehind : cursorOf e < ((st.run (as.take i)).step (.write (.commit tx))).next :=
      not_le.mp hlt
    exact not_reached_of_lt hbehind ((hsound.run _).notMem_sent_of_rowsOf he) hreached
  · intro h i
    have hskip : ∀ i, (st.run (as.take i)).NoneSkipped req.fromCursor := by
      intro i
      induction i with
      | zero =>
        intro e _ _ hcur
        right
        rw [hst]
        exact startOf_le hstart hcur
      | succ i ih =>
        rw [List.take_add_one, run_append]
        cases ha : as[i]? with
        | none => exact ih
        | some a => exact ih.step (hsound.run _) fun tx htx => h i tx (by rw [ha, htx])
    intro e he hsc hcur
    rcases hskip i e he (by rw [hsc, hscope]) hcur with hsent | hle
    · exact ⟨0, fun bs _ => sent_run_of_sent hsent bs⟩
    · refine ⟨(cursorOf e - (st.run (as.take i)).next).toNat + 1, fun bs hbs => ?_⟩
      exact sent_of_waiting (hsound.run _) ⟨he, by rw [hsc, hscope], hle⟩ bs (by omega)

/-! ## Two transactions -/

/-- The row of a node that became ready. -/
def readyEffect (id : NodeID) : Effect :=
  { nodeID := id
    kind := .ready
    fromStatus := .new
    toStatus := .new
    reason := .none
    message := ""
    attempt := 0
    nodeKind := ""
    seq := 1
    cursor := 0
    time := 0 }

/-- A first event, and a pump that resumes from it. -/
def resumed : State :=
  { table := tableAfter [.insert 0 "s" (readyEffect "a"), .commit 0], scope := "s", next := 2 }

/-- Two transactions insert one event each, and commit in the order of their cursors. -/
def inOrderActions : List Action :=
  [.write (.insert 1 "s" (readyEffect "b")), .write (.insert 2 "s" (readyEffect "c")),
    .write (.commit 1), .poll, .write (.commit 2)]

theorem inOrderActions_lose_nothing :
    watch (tableAfter [.insert 0 "s" (readyEffect "a"), .commit 0])
        { scope := "s", fromCursor := 1 } = some resumed ∧
      ∀ i, ∀ e ∈ (resumed.run (inOrderActions.take i)).table.committed, e.scope = "s" →
        1 < cursorOf e → (resumed.run (inOrderActions.take i)).Reached e := by
  have hwatch : watch (tableAfter [.insert 0 "s" (readyEffect "a"), .commit 0])
      { scope := "s", fromCursor := 1 } = some resumed := rfl
  refine ⟨hwatch, ?_⟩
  refine (watch_loses_nothing_iff hwatch (.inl Nat.one_pos) inOrderActions).mpr fun i tx htx => ?_
  match i, htx with
  | 2, rfl => unfold State.InOrder; decide
  | 4, rfl => unfold State.InOrder; decide

/-- The second transaction commits first, and a round of the pump comes in between: the
event of the first one is visible and never sent. -/
theorem overtaken_event_lost : ∃ as e, e ∈ (resumed.run as).table.committed ∧ e.scope = "s" ∧
    1 < cursorOf e ∧ ∀ bs, e ∉ ((resumed.run as).run bs).sent := by
  refine ⟨[.write (.insert 1 "s" (readyEffect "b")), .write (.insert 2 "s" (readyEffect "c")),
    .write (.commit 2), .poll, .write (.commit 1)],
    ⟨"s", { readyEffect "b" with cursor := 2 }⟩, by decide, rfl, by decide, fun bs => ?_⟩
  exact State.notMem_sent_of_lt (by decide) (by decide) bs

end DagWorker.Postgres.Watch
