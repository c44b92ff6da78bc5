import DagWorker.File.Store
import DagWorker.Memory.Determined

/-!
# Recovery of a run

`Follows` compares a run with the replay of its records, for any relation between the live
store and the replayed one; a record that keeps the relation extends it, and at the end of
the log `Open` returns a related store.
-/

namespace DagWorker.File

open Prog

variable {r : StepRecord} {live' mem : Memory.Store}
variable {R' : Memory.Store → Memory.Store → Prop} {steps : List StepRecord} {op : Memory.Op}
  {mem' : Memory.Store} {out : Memory.Out} {rd : Readings}

/-! ## Replaying a log -/

section Follows

variable {R : Memory.Store → Memory.Store → Prop} {Q : Gate → Prop} {cdc : Codec}
  {rs : List Record} {base live : Memory.Store}

/-- Replaying the records from `base` gets past all of them, to a store related to
`live`; `Q` holds of the gate after each of them. -/
def Follows (R : Memory.Store → Memory.Store → Prop) (Q : Gate → Prop) (rs : List Record)
    (base live : Memory.Store) : Prop :=
  ∀ i g rest gates res, Replay i (rs ++ rest) base g gates res →
    ∃ mem gs gs' g', R live mem ∧ gates = gs ++ gs' ∧ gs.length = rs.length ∧ (∀ q ∈ gs, Q q) ∧
      Replay (i + rs.length) rest mem g' gs' res

/-- A record, applied to any store related to `live`, goes through and gives a store
related to `live'`. -/
def Carries (R : Memory.Store → Memory.Store → Prop) (Q : Gate → Prop) (r : Record)
    (live live' : Memory.Store) : Prop :=
  ∀ mem, R live mem → ∀ (g : Gate) e mem' g',
    Replays (apply mem r) (g.feed r.readings) (e, mem') g' →
    e = none ∧ g'.drifted = false ∧ Q g' ∧ R live' mem'

theorem Follows.nil (h : R live base) : Follows R Q [] base live := by
  intro i g rest gates res hr
  exact ⟨base, [], gates, g, h, rfl, rfl, by simp, hr⟩

theorem Follows.snoc {r : Record} (hrs : Follows R Q rs base live)
    (hr : Carries R Q r live live') : Follows R Q (rs ++ [r]) base live' := by
  intro i g rest gates res hreplay
  rw [List.append_assoc] at hreplay
  obtain ⟨mem, gs, gs', g₁, hR, rfl, hlen, hQ, hrest⟩ := hrs i g _ gates res hreplay
  -- the record is the first of the remaining ones
  cases hrest with
  | rejected h => cases (hr mem hR _ _ _ _ h).1
  | drifted h hd => simp [(hr mem hR _ _ _ _ h).2.1] at hd
  | @step _ _ _ _ mem' _ g' gates' _ h _ hnext =>
    obtain ⟨-, -, hq, hR'⟩ := hr mem hR _ _ _ _ h
    refine ⟨mem', gs ++ [g'], gates', g', hR', by simp, by simp [hlen], ?_, ?_⟩
    · intro q hmem
      rcases List.mem_append.mp hmem with hmem | hmem
      · exact hQ q hmem
      · rw [List.mem_singleton.mp hmem]
        exact hq
    · rw [List.length_append, List.length_singleton, ← Nat.add_assoc]
      exact hnext

theorem Follows.mono (hrs : Follows R Q rs base live) (h : ∀ mem, R live mem → R' live' mem) :
    Follows R' Q rs base live' := by
  intro i g rest gates res hreplay
  obtain ⟨mem, gs, gs', g', hR, hrest⟩ := hrs i g rest gates res hreplay
  exact ⟨mem, gs, gs', g', h mem hR, hrest⟩

theorem Follows.replay {gates : List Gate} {res : Except OpenError Memory.Store} {i : ℕ} {g : Gate}
    (hrs : Follows R Q rs base live) (h : Replay i rs base g gates res) :
    (∃ mem, res = .ok mem ∧ R live mem) ∧ gates.length = rs.length ∧ ∀ q ∈ gates, Q q := by
  obtain ⟨mem, gs, gs', g', hR, rfl, hlen, hQ, hrest⟩ :=
    hrs i g [] gates res (by rwa [List.append_nil])
  cases hrest with
  | done => exact ⟨⟨mem, rfl, hR⟩, by simpa using hlen, by simpa using hQ⟩

end Follows

/-! ## Opening the directory -/

section Tracks

variable {R : Memory.Store → Memory.Store → Prop} {Q : Gate → Prop} {cdc : Codec}
  {defaults : ScopeConfig} {disk : Disk} {live : Memory.Store}

/-- The directory holds a usable base and a log of whole frames that follows `live`
from it. -/
structure Tracks (R : Memory.Store → Memory.Store → Prop) (Q : Gate → Prop) (cdc : Codec)
    (defaults : ScopeConfig) (disk : Disk) (live : Memory.Store) : Prop where
  intro ::
  exists_records : ∃ rs mem fromSnapshot,
    disk.log = rs.flatMap cdc.frame ∧ (∀ r ∈ rs, cdc.RoundTrips r) ∧
      File.base cdc defaults disk = .ok (mem, fromSnapshot) ∧ Follows R Q rs mem live

section

variable (h : Tracks R Q cdc defaults disk live)
include h

/-- Opening the directory, with perhaps a torn frame at the end of its log, gives a
store related to the live one. -/
theorem Tracks.recovers_torn {tail : Bytes}
    (htail : ∀ fuel, cdc.readFrames fuel tail = ([], tail)) :
    Recovers cdc defaults { disk with log := disk.log ++ tail } (R live) := by
  obtain ⟨rs, mem, fromSnapshot, hlog, hrs, hbase, hfollows⟩ := h.exists_records
  have hread : cdc.readAll (disk.log ++ tail) = (rs, tail.length) := by
    rw [hlog]
    exact Codec.readAll_frames hrs htail
  have hbase' : File.base cdc defaults { disk with log := disk.log ++ tail } =
      .ok (mem, fromSnapshot) := hbase
  -- every replay of the log ends well
  have hok : ∀ gates res, Replay 0 (cdc.readAll (disk.log ++ tail)).1 mem {} gates res →
      ∃ mem', res = .ok mem' ∧ R live mem' := by
    intro gates res hr
    rw [hread] at hr
    exact (hfollows.replay hr).1
  constructor
  · have hr := replay_replayAll 0 (cdc.readAll (disk.log ++ tail)).1 mem {}
    obtain ⟨mem', hres, -⟩ := hok _ _ hr
    rw [hres] at hr
    exact ⟨_, Opens.opened hbase' hr⟩
  · intro res hopens
    cases hopens with
    | restoring he =>
      rw [hbase'] at he
      cases he
    | replaying hb hr =>
      rw [hbase'] at hb
      cases hb
      obtain ⟨_, hres, -⟩ := hok _ _ hr
      cases hres
    | opened hb hr =>
      rw [hbase'] at hb
      cases hb
      obtain ⟨mem', hres, hR⟩ := hok _ _ hr
      cases hres
      exact ⟨_, _, rfl, hR⟩

theorem Tracks.recovers : Recovers cdc defaults disk (R live) := by
  have := h.recovers_torn Codec.readFrames_nil
  rwa [List.append_nil] at this

theorem Tracks.mono (hR : ∀ mem, R live mem → R' live' mem) :
    Tracks R' Q cdc defaults disk live' := by
  obtain ⟨rs, mem, fromSnapshot, hlog, hrs, hbase, hfollows⟩ := h.exists_records
  exact ⟨rs, mem, fromSnapshot, hlog, hrs, hbase, hfollows.mono hR⟩

theorem Tracks.congr {disk' : Disk} (hsnapshot : disk'.snapshot = disk.snapshot)
    (hlog : disk'.log = disk.log) : Tracks R Q cdc defaults disk' live := by
  obtain ⟨rs, mem, fromSnapshot, hrs, hrt, hbase, hfollows⟩ := h.exists_records
  refine ⟨rs, mem, fromSnapshot, hlog.trans hrs, hrt, ?_, hfollows⟩
  rw [← hbase, File.base, File.base, hsnapshot]

theorem Tracks.append {r : Record} (hr : cdc.RoundTrips r) (hcarries : Carries R Q r live live') :
    Tracks R Q cdc defaults { disk with log := disk.log ++ cdc.frame r } live' := by
  obtain ⟨rs, mem, fromSnapshot, hlog, hrs, hbase, hfollows⟩ := h.exists_records
  refine ⟨rs ++ [r], mem, fromSnapshot, by simp [hlog], ?_, hbase, hfollows.snoc hcarries⟩
  intro q hq
  rcases List.mem_append.mp hq with hq | hq
  · exact hrs q hq
  · rw [List.mem_singleton.mp hq]
    exact hr

end

theorem Tracks.of_base {fromSnapshot : Bool} (hlog : disk.log = [])
    (hbase : File.base cdc defaults disk = .ok (mem, fromSnapshot)) (hR : R live mem) :
    Tracks R Q cdc defaults disk live :=
  ⟨[], mem, fromSnapshot, by simp [hlog], by simp, hbase, Follows.nil hR⟩

end Tracks

/-! ## The in-memory store of a run -/

section Reach

variable {cdc : Codec} {s s' : Store} {e : Event}

theorem Step.reachable (hstep : Step cdc s e s') (h : Memory.Reachable s.mem) :
    Memory.Reachable s'.mem := by
  cases hstep with
  | acked _ hr _ => exact h.exec hr.yields
  | rejected _ hr _ => exact h.exec hr.yields
  | failed _ hr _ _ => exact h.exec hr.yields
  | refused _ => exact h
  | compacted _ => exact h
  | closed =>
    have hclose : Yields (Memory.Op.close.exec s.mem)
        (.unit (.ok ()), { s.mem with closed := true }) := Yields.ret _
    exact h.exec hclose

theorem Run.reachable (hrun : Run cdc s steps s') (h : Memory.Reachable s.mem) :
    Memory.Reachable s'.mem := by
  induction hrun with
  | nil => exact h
  | snoc _ hstep ih => exact hstep.reachable ih

theorem reachable_fresh (defaults : ScopeConfig) : Memory.Reachable (Store.fresh defaults).mem :=
  ⟨defaults, 0, [], Trace.Run.nil⟩

/-- A step of a run starts from a store that the run reached. -/
theorem Run.prefix_of_mem (hrun : Run cdc s steps s') (hr : r ∈ steps) :
    ∃ pre, pre ++ [r] <+: steps ∧ Run cdc s pre r.before ∧ Step cdc r.before r.event r.after := by
  induction hrun with
  | nil => simp at hr
  | @snoc steps q hrun hstep ih =>
    rcases List.mem_append.mp hr with hr | hr
    · obtain ⟨pre, hpre, hrest⟩ := ih hr
      exact ⟨pre, hpre.trans (List.prefix_append steps [q]), hrest⟩
    · rw [List.mem_singleton.mp hr]
      exact ⟨steps, List.prefix_refl _, hrun, hstep⟩

end Reach

/-! ## Replaying exactly -/

section Exact

variable {cdc : Codec} {defaults : ScopeConfig} {steps : List StepRecord} {s : Store}

theorem attempt_determined (h : Memory.Reachable mem) (hop : op.Ordered mem) :
    (attempt mem op).Determined :=
  Determined.bind (Memory.exec_determined h.sound op hop)
    (all_of_forall (P := fun _ => True) (fun _ => trivial) _) fun _ _ => Matches.ret rfl

theorem reads_attempt {c j : List Int} (h : Reads (op.exec mem) c j (out, mem')) :
    Reads (attempt mem op) c j (out.err, mem') := by
  have hb := h.bind (f := fun x => pure (x.1.err, x.2)) (Reads.ret (out.err, mem'))
  rwa [List.append_nil, List.append_nil] at hb

/-- On the store it was recorded on, a record takes its readings and has its effect. -/
theorem carries_of_reads {m : Mutation} (h : Memory.Reachable mem) (hop : m.op.Ordered mem)
    (hr : Reads (m.op.exec mem) rd.clock rd.jitter (out, mem')) (hout : out.err = none) :
    Carries Eq Gate.Spent (m.record rd) mem mem' := by
  rintro _ rfl g e mem'' g' hreplays
  rw [apply_record] at hreplays
  have hrd : (m.record rd).readings = rd := by cases m <;> rfl
  rw [hrd] at hreplays
  obtain ⟨heq, hspent⟩ := Replays.of_matches_feed (attempt_determined h hop) (reads_attempt hr)
    (fun _ _ => trivial) hreplays
  cases heq
  exact ⟨hout, hspent.2.2, hspent, rfl⟩

theorem logged_snoc_acked {m : Mutation} (h : r.event = .acked m rd) :
    logged (steps ++ [r]) = logged steps ++ [m.record rd] := by
  simp [logged, h, Event.logged]

/-- A successful mutation the order of maps has no influence on. -/
def StepRecord.AckedOrdered (r : StepRecord) : Prop :=
  ∃ m rd, r.event = .acked m rd ∧ m.op.Ordered r.before.mem

theorem Run.follows (hrun : Run cdc (Store.fresh defaults) steps s)
    (hsteps : ∀ r ∈ steps, r.AckedOrdered) :
    Follows Eq Gate.Spent (logged steps) (Store.fresh defaults).mem s.mem := by
  induction hrun with
  | nil => exact Follows.nil rfl
  | @snoc steps r hrun hstep ih =>
    have ih := ih fun q hq => hsteps q (List.mem_append_left _ hq)
    obtain ⟨m, rd, hev, hop⟩ := hsteps r (List.mem_append_right _ (List.mem_singleton.mpr rfl))
    rw [logged_snoc_acked hev]
    generalize hafter : r.after = s' at hstep ⊢
    rw [hev] at hstep
    cases hstep with
    | acked _ hr hout =>
      exact ih.snoc (carries_of_reads (hrun.reachable (reachable_fresh _)) hop hr hout)

/-- A successful mutation other than `CancelScope`. -/
def Event.plain : Event → Bool
  | .acked (.cancelScope _) _ => false
  | .acked _ _ => true
  | _ => false

/-- A codec that writes nothing; enough where the log is not read from disk. -/
def blankCodec : Codec :=
  { crc := fun _ => 0
    encode := fun _ => []
    decode := fun _ => none
    encodeSnapshot := fun _ => []
    decodeSnapshot := fun _ => none
    encodeFile := fun _ _ => []
    decodeFile := fun _ => none }

def Mutation.plain : Mutation → Bool
  | .cancelScope _ => false
  | _ => true

theorem Rehearsed.plain {ms : List (Mutation × Readings)}
    (h : Rehearsed (fun _ m => m.plain) ms steps) : ∀ r ∈ steps, r.event.plain = true := by
  intro r hr
  obtain ⟨m, rd, -, hev, hok⟩ := h.acked r hr
  rw [hev]
  cases m with
  | cancelScope scope => cases hok
  | _ => rfl

end Exact

end DagWorker.File
