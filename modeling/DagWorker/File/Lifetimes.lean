import DagWorker.File.Compaction

/-!
# The lives of a directory

A directory is opened, used, left behind by a crash and opened again, any number of times.
A crash may leave anything at all in the log.  What `Open` accepts is nevertheless a store
that in-memory operations lead to, so that every result about those holds of it.
-/

namespace DagWorker.File

open Prog (Yields)

variable {cdc : Codec} {mem mem' : Memory.Store} {disk : Disk} {s : Store}

theorem Replays.yields {α : Type} {p : Prog α} {g g' : Gate} {a : α} (h : Replays p g a g') :
    Yields p a := by
  induction h with
  | ret a g => exact Yields.ret a
  | now _ ih => exact Yields.now _ ih
  | jitter _ ih => exact Yields.jitter _ ih
  | range l hl _ ih => exact Yields.range l hl ih

/-! ## Replay -/

theorem attempt_reachable {op : Memory.Op} {e : Option Err} (h : Memory.Reachable mem)
    (hy : Yields (attempt mem op) (e, mem')) : Memory.Reachable mem' := by
  have hall : (attempt mem op).All fun x => Memory.Reachable x.2 :=
    Prog.All.bind (Prog.all_iff_yields.mpr fun _ hx => h.exec hx) fun _ hx => hx
  exact hall.of_yields hy

/-- Whatever a record says, applying it is an operation of the store or does nothing. -/
theorem apply_cases (mem : Memory.Store) (r : Record) :
    (∃ op, apply mem r = attempt mem op) ∨ ∃ text, apply mem r = malformed mem text := by
  cases hop : r.op <;> simp only [apply, applyGraph, applyLease, hop]
  all_goals try split
  all_goals first | exact .inl ⟨_, rfl⟩ | exact .inr ⟨_, rfl⟩

theorem apply_reachable {r : Record} {e : Option Err} (h : Memory.Reachable mem)
    (hy : Yields (apply mem r) (e, mem')) : Memory.Reachable mem' := by
  obtain ⟨op, hop⟩ | ⟨text, hmalformed⟩ := apply_cases mem r
  · rw [hop] at hy
    exact attempt_reachable h hy
  · rw [hmalformed] at hy
    cases hy
    exact h

theorem Replay.reachable {i : ℕ} {rs : List Record} {g : Gate} {gates : List Gate}
    {res : Except OpenError Memory.Store} (hreplay : Replay i rs mem g gates res)
    (h : Memory.Reachable mem) (hres : res = .ok mem') : Memory.Reachable mem' := by
  induction hreplay with
  | done i mem g =>
    cases hres
    exact h
  | rejected _ => cases hres
  | drifted _ _ => cases hres
  | step hr _ _ ih => exact ih (apply_reachable h hr.yields) hres

/-! ## Lives -/

/-- What is in the snapshot file, if it can be read, was taken of a reachable store. -/
def Disk.Genuine (cdc : Codec) (disk : Disk) : Prop :=
  ∀ snap, cdc.readSnapshot disk.snapshot = some snap →
    ∃ st, Memory.Reachable st ∧ snap = st.snapshot

theorem base_reachable {defaults : ScopeConfig} {fromSnapshot : Bool} (h : disk.Genuine cdc)
    (hbase : base cdc defaults disk = .ok (mem, fromSnapshot)) : Memory.Reachable mem := by
  rw [base] at hbase
  cases hread : cdc.readSnapshot disk.snapshot with
  | none =>
    rw [hread] at hbase
    cases hbase
    exact ⟨defaults, 0, [], Trace.Run.nil⟩
  | some snap =>
    obtain ⟨st, hst, rfl⟩ := h snap hread
    simp only [hread] at hbase
    cases hok : Memory.Store.restore st.snapshot defaults 0 with
    | error e => simp [hok] at hbase
    | ok st' =>
      simp only [hok, Except.ok.injEq, Prod.mk.injEq] at hbase
      obtain ⟨rfl, -⟩ := hbase
      have hrestore : Yields ((Memory.Op.restore defaults 0).exec st) (.unit (.ok ()), st') := by
        rw [Memory.Op.exec, hok]
        exact Yields.ret _
      exact hst.exec hrestore

/-- The directories a crash can leave: with any log, and with the snapshot that was there,
the one that was being written, or a file that cannot be read. -/
def Leaves (cdc : Codec) (s : Store) (disk : Disk) : Prop :=
  disk.snapshot = s.disk.snapshot ∨ disk.snapshot = some (cdc.snapshotBytes s.mem.snapshot) ∨
    cdc.readSnapshot disk.snapshot = none

/-- The stores of a directory, over any number of calls, crashes and reopenings. -/
inductive Life (cdc : Codec) : Store → Prop
  | fresh (defaults : ScopeConfig) : Life cdc (Store.fresh defaults)
  | step {s s' : Store} {e : Event} : Life cdc s → Step cdc s e s' → Life cdc s'
  | reopened {s s' : Store} {disk : Disk} {defaults : ScopeConfig} {rec : Recovery} :
      Life cdc s → Leaves cdc s disk → Opens cdc defaults disk (.ok (s', rec)) → Life cdc s'

section

variable (hcdc : ∀ snap snap', cdc.readSnapshot (some (cdc.snapshotBytes snap)) = some snap' →
  snap' = snap)
include hcdc

theorem genuine_of_snapshotBytes (h : Memory.Reachable mem)
    (hdisk : disk.snapshot = some (cdc.snapshotBytes mem.snapshot)) : disk.Genuine cdc := by
  intro snap hread
  rw [hdisk] at hread
  exact ⟨mem, h, hcdc _ _ hread⟩

theorem Life.genuine (hlife : Life cdc s) : Memory.Reachable s.mem ∧ s.disk.Genuine cdc := by
  induction hlife with
  | fresh defaults => exact ⟨reachable_fresh defaults, fun snap hread => by cases hread⟩
  | step _ hstep ih =>
    refine ⟨hstep.reachable ih.1, ?_⟩
    cases hstep with
    | compacted _ => exact genuine_of_snapshotBytes hcdc ih.1 rfl
    | _ => exact ih.2
  | @reopened s s' disk defaults rec _ hleaves hopens ih =>
    have hgenuine : disk.Genuine cdc := by
      rcases hleaves with hold | hnew | hnone
      · intro snap hread
        rw [hold] at hread
        exact ih.2 snap hread
      · exact genuine_of_snapshotBytes hcdc ih.1 hnew
      · intro snap hread
        rw [hnone] at hread
        cases hread
    cases hopens with
    | opened hbase hreplay =>
      exact ⟨hreplay.reachable (base_reachable hgenuine hbase) rfl, hgenuine⟩

/-- Every store a directory is ever opened as, whatever crashes left in its log, is one that
in-memory operations lead to, and its scopes satisfy their invariants.  Of the codec only
this is needed: a snapshot that was written is never read as another one. -/
theorem life_reachable (hlife : Life cdc s) : Memory.Reachable s.mem ∧
    ∀ name t, s.mem.scopes.lookup name = some t → t.Sound name :=
  have h := (hlife.genuine hcdc).1
  ⟨h, h.sound⟩

end

theorem Run.life {defaults : ScopeConfig} {steps : List StepRecord}
    (hrun : Run cdc (Store.fresh defaults) steps s) : Life cdc s := by
  induction hrun with
  | nil => exact Life.fresh defaults
  | snoc _ hstep ih => exact ih.step hstep

/-- A directory is compacted, and bytes that are no frame get into its log. -/
theorem doneCalls_reopened : ∃ cdc s s' rec, Life cdc s ∧
    Opens cdc {} { s.disk with log := [1, 2, 3] } (.ok (s', rec)) ∧ rec.fromSnapshot = true ∧
      rec.discardedBytes = 3 ∧ Memory.Reachable s'.mem := by
  classical
  have hre : (rehearse (fun _ m => m.plain) doneCalls (Memory.Store.new {} 0)).any
      (fun mem => (mem.scopes.lookup "").isNone) = true := by decide +kernel
  obtain ⟨mem, hmem, hnames⟩ := (Option.any_eq_true _ _).mp hre
  -- the codec writes a mark for every snapshot but this one
  let cdc : Codec :=
    { blankCodec with
      encodeSnapshot := fun snap => if snap = mem.snapshot then [] else [0]
      decodeSnapshot := fun b => if b = [] then some mem.snapshot else none
      encodeFile := fun _ data => data
      decodeFile := fun raw => some (0, raw) }
  obtain ⟨steps, hsteps, hrun⟩ := run_of_rehearse cdc hmem {}
  have hlife := hrun.life.step (Step.compacted rfl)
  obtain ⟨mem', hok⟩ :=
    Memory.restore_ok hrun.invariant (Option.isNone_iff_eq_none.mp hnames) {} 0
  have hrt : cdc.RoundTripsSnapshot mem.snapshot := ⟨rfl, by simp [cdc]⟩
  have hbase : base cdc {} { snapshot := some (cdc.snapshotBytes mem.snapshot), log := [1, 2, 3] } =
      .ok (mem', true) := base_of_snapshot hrt rfl hok
  have hopens := Opens.opened hbase (Replay.done 0 mem' {})
  refine ⟨cdc, _, _, _, hlife, hopens, rfl, rfl, (life_reachable ?_
    (hlife.reopened (by exact .inl rfl) hopens)).1⟩
  intro snap snap' hread
  by_cases hsnap : snap = mem.snapshot
  · rw [hsnap, Codec.readSnapshot_snapshotBytes hrt] at hread
    rw [hsnap, Option.some.inj hread]
  · simp [cdc, Codec.readSnapshot, Codec.snapshotBytes, hsnap] at hread

end DagWorker.File
