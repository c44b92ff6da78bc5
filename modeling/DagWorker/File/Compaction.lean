import DagWorker.File.Recovery
import DagWorker.Memory.RoundTrip

/-!
# Compaction

`Compact` writes a snapshot to a temporary file, syncs it, renames it into place, syncs
the directory, and truncates the log.  A crash leaves the old snapshot with the whole
log, the new snapshot with the whole log, or the new snapshot with an empty log.  The
first and the last are recovered; in the second the whole history is replayed on top of
a state that already contains it.
-/

namespace DagWorker.File

open Prog

variable {disk : Disk} {mem : Memory.Store}
variable {fromSnapshot : Bool} {res : Except OpenError Memory.Store} (rs : List Record)
  (snap : List Memory.ScopeSnapshot)

/-! ## What a crash leaves behind -/

variable {cdc : Codec} {defaults : ScopeConfig} {steps : List StepRecord} {s : Store}

theorem Run.invariant (hrun : Run cdc (Store.fresh defaults) steps s) :
    ∀ name t, s.mem.scopes.lookup name = some t → t.Inv ∧ t.name = name := fun name t ht =>
  let h := (hrun.reachable (reachable_fresh defaults)).sound name t ht
  ⟨h.inv, h.name_eq⟩

/-- Replay starts from the restored store when the snapshot is usable. -/
theorem base_of_snapshot {snap : List Memory.ScopeSnapshot}
    (hsnap : cdc.RoundTripsSnapshot snap) (hdisk : disk.snapshot = some (cdc.snapshotBytes snap))
    (hok : Memory.Store.restore snap defaults 0 = .ok mem) :
    base cdc defaults disk = .ok (mem, true) := by
  rw [base, hdisk, Codec.readSnapshot_snapshotBytes hsnap]
  simp only [hok]

theorem base_of_none (h : cdc.readSnapshot disk.snapshot = none) :
    base cdc defaults disk = .ok (Memory.Store.new defaults 0, false) := by
  rw [base, h]

/-! ## Crashes outside the window -/

/-- A successful mutation. -/
def StepRecord.Acked (r : StepRecord) : Prop := ∃ m rd, r.event = .acked m rd

/-- The log of successful mutations is the frames of their records. -/
theorem Run.disk_of_acked (hrun : Run cdc (Store.fresh defaults) steps s)
    (hsteps : ∀ r ∈ steps, r.Acked) :
    s.disk.snapshot = none ∧ s.disk.log = (logged steps).flatMap cdc.frame := by
  induction hrun with
  | nil => exact ⟨rfl, rfl⟩
  | @snoc steps r hrun hstep ih =>
    obtain ⟨hnone, hlog⟩ := ih fun q hq => hsteps q (List.mem_append_left _ hq)
    obtain ⟨m, rd, hev⟩ := hsteps r (List.mem_append_right _ (List.mem_singleton.mpr rfl))
    rw [logged_snoc_acked hev]
    generalize r.after = s' at hstep
    rw [hev] at hstep
    cases hstep with
    | acked _ _ _ => exact ⟨hnone, by simp [hlog]⟩

/-- The log of a run whose replay the order of maps has no influence on. -/
theorem Run.tracks (hrun : Run cdc (Store.fresh defaults) steps s)
    (hsteps : ∀ r ∈ steps, r.AckedOrdered) (hrt : ∀ r ∈ logged steps, cdc.RoundTrips r) :
    Tracks Eq Gate.Spent cdc defaults s.disk s.mem := by
  have hacked : ∀ r ∈ steps, r.Acked := by
    intro r hr
    obtain ⟨m, rd, hev, -⟩ := hsteps r hr
    exact ⟨m, rd, hev⟩
  obtain ⟨hnone, hlog⟩ := hrun.disk_of_acked hacked
  refine ⟨logged steps, Memory.Store.new defaults 0, false, hlog, hrt, base_of_none ?_,
    hrun.follows hsteps⟩
  rw [hnone]
  rfl

/-- A node is added, claimed and completed. -/
def doneCalls : List (Mutation × Readings) :=
  [(.addNodes "s" [{ id := "a" }], { clock := [10, 11, 12] }),
    (.claim { scope := "s" }, { clock := [20, 21] }),
    (.complete { lease := { scope := "s", nodeID := "a", epoch := 1 }, success := true },
      { clock := [30, 31, 32] })]

theorem opens_error {rs : List Record} {e : OpenError}
    (hbase : base cdc defaults disk = .ok (mem, fromSnapshot))
    (hread : (cdc.readAll disk.log).1 = rs) (h : (replayAll 0 rs mem {}).2 = .error e) :
    Opens cdc defaults disk (.error e) := by
  have hr := replay_replayAll 0 rs mem {}
  rw [h, ← hread] at hr
  exact Opens.replaying hbase hr

/-- The replay ends with an error of which `p` holds. -/
def failsWith (p : OpenError → Bool) : Except OpenError Memory.Store → Bool
  | .error e => p e
  | .ok _ => false

theorem exists_of_failsWith {p : OpenError → Bool} (h : failsWith p res = true) :
    ∃ e, res = .error e ∧ p e = true := by
  cases res with
  | error e => exact ⟨e, rfl, h⟩
  | ok mem => cases h

/-- The call at record `i`, one of `op` on a scope, returned an error of this kind. -/
def OpenError.stopsAt (i : ℕ) (op : OpKind) (scope : String) (kind : Sentinel) :
    OpenError → Bool
  | .replaying j op' scope' e => j = i && op' = op && scope' = scope && e.sentinel = kind
  | _ => false

theorem exists_of_stopsAt {i : ℕ} {op : OpKind} {scope : String} {kind : Sentinel}
    (h : failsWith (OpenError.stopsAt i op scope kind) res = true) :
    ∃ e, res = .error (.replaying i op scope e) ∧ e.sentinel = kind := by
  obtain ⟨err, hres, hstop⟩ := exists_of_failsWith h
  cases err with
  | replaying j op' scope' e =>
    simp only [OpenError.stopsAt, Bool.and_eq_true, decide_eq_true_eq] at hstop
    obtain ⟨⟨⟨rfl, rfl⟩, rfl⟩, hkind⟩ := hstop
    exact ⟨e, hres, hkind⟩
  | restoring e => cases hstop
  | drift j op' => cases hstop

section Damage

/-- A successful mutation or a successful `Compact`. -/
def Event.successful : Event → Bool
  | .acked _ _ => true
  | .compacted => true
  | _ => false

/-- A snapshot file that cannot be used makes no difference: `Open` fails, or returns the
state it returns with the intact one. -/
def DamageHarmless (cdc : Codec) (defaults : ScopeConfig) (disk : Disk) : Prop :=
  ∀ file, cdc.readSnapshot (some file) = none →
    ∀ res, Opens cdc defaults { disk with snapshot := some file } res →
      (∃ e, res = .error e) ∨
        ∃ res', Opens cdc defaults disk res' ∧
          res.map (fun x => x.1.mem) = res'.map fun x => x.1.mem

theorem snapshot_of_empty (h : mem.scopes = ∅) : mem.snapshot = [] := by
  rw [Memory.Store.snapshot, h]
  rfl

/-- As long as only empty stores are compacted, replay starts from an empty store. -/
theorem Run.base_eq (hrun : Run cdc (Store.fresh defaults) steps s)
    (hsteps : ∀ r ∈ steps, r.event.successful = true)
    (hempty : ∀ r ∈ steps, r.event = .compacted → r.before.mem.scopes = ∅)
    (hsnap : ∀ r ∈ steps, r.event = .compacted → cdc.RoundTripsSnapshot r.before.mem.snapshot) :
    ∃ fromSnapshot, base cdc defaults s.disk = .ok (Memory.Store.new defaults 0, fromSnapshot) := by
  induction hrun with
  | nil => exact ⟨false, base_of_none rfl⟩
  | @snoc steps r hrun hstep ih =>
    have hmem : r ∈ steps ++ [r] := List.mem_append_right _ (List.mem_singleton.mpr rfl)
    have ih := ih (fun q hq => hsteps q (List.mem_append_left _ hq))
      (fun q hq => hempty q (List.mem_append_left _ hq))
      fun q hq => hsnap q (List.mem_append_left _ hq)
    have hok := hsteps r hmem
    have hr := hempty r hmem
    have hs := hsnap r hmem
    generalize hafter : r.after = s' at hstep ⊢
    generalize r.event = e at hstep hok hr hs
    cases hstep with
    | acked _ _ _ => exact ih
    | rejected _ _ _ => cases hok
    | failed _ _ _ _ => cases hok
    | refused _ => cases hok
    | closed => cases hok
    | compacted _ =>
      have hs := hs rfl
      rw [snapshot_of_empty (hr rfl)] at hs
      refine ⟨true, base_of_snapshot hs ?_ rfl⟩
      rw [snapshot_of_empty (hr rfl)]

theorem damageHarmless_of_base
    (hbase : base cdc defaults disk = .ok (Memory.Store.new defaults 0, fromSnapshot)) :
    DamageHarmless cdc defaults disk := by
  intro file hbad res hopen
  have hbase' : base cdc defaults { disk with snapshot := some file } =
      .ok (Memory.Store.new defaults 0, false) := base_of_none hbad
  right
  cases hopen with
  | restoring he =>
    rw [hbase'] at he
    cases he
  | replaying hb hr =>
    rw [hbase'] at hb
    cases hb
    exact ⟨_, Opens.replaying hbase hr, rfl⟩
  | opened hb hr =>
    rw [hbase'] at hb
    cases hb
    exact ⟨_, Opens.opened hbase hr, rfl⟩

/-- Without its snapshot, a directory with an empty log is an empty store. -/
theorem opens_damaged (cdc : Codec) (defaults : ScopeConfig) {file : Bytes}
    (hlog : disk.log = []) (hbad : cdc.readSnapshot (some file) = none) :
    ∃ s rec, Opens cdc defaults { disk with snapshot := some file } (.ok (s, rec)) ∧
      s.mem = Memory.Store.new defaults 0 := by
  have hread : (cdc.readAll disk.log).1 = [] := by
    rw [hlog]
    rfl
  have hreplay : Replay 0 (cdc.readAll disk.log).1 (Memory.Store.new defaults 0) {} []
      (.ok (Memory.Store.new defaults 0)) := by
    rw [hread]
    exact Replay.done _ _ _
  exact ⟨_, _, Opens.opened (base_of_none hbad) hreplay, rfl⟩

theorem scopes_eq_empty (h : ∀ name, mem.scopes.lookup name = none) :
    mem.scopes = ∅ := by
  apply AList.ext
  cases hent : mem.scopes.entries with
  | nil => rfl
  | cons e es =>
    have hmem : e.1 ∈ mem.scopes.keys := by
      rw [AList.keys, hent]
      exact .head _
    have hsome := AList.lookup_isSome.mpr (AList.mem_keys.mpr hmem)
    rw [h e.1] at hsome
    cases hsome

/-- Right after `Compact`, the snapshot is all there is. -/
theorem DamageHarmless.empty {file : Bytes}
    (h : DamageHarmless cdc defaults disk) (hlog : disk.log = [])
    (hbad : cdc.readSnapshot (some file) = none)
    (hdisk : disk.snapshot = some (cdc.snapshotBytes mem.snapshot))
    (hsnap : cdc.RoundTripsSnapshot mem.snapshot)
    (hinv : ∀ name t, mem.scopes.lookup name = some t → t.Inv ∧ t.name = name) :
    mem.scopes = ∅ := by
  obtain ⟨s, rec, hopen, hs⟩ := opens_damaged cdc defaults hlog hbad
  have hread : (cdc.readAll disk.log).1 = [] := by
    rw [hlog]
    rfl
  rcases h file hbad _ hopen with ⟨e, he⟩ | ⟨res', hopen', hsame⟩
  · cases he
  rw [Except.map, hs] at hsame
  -- so the intact snapshot restores to an empty store
  cases hopen' with
  | restoring he => cases hsame
  | replaying hb hr => cases hsame
  | opened hb hr =>
    rw [hread] at hr
    cases hr
    simp only [Except.map, Except.ok.injEq] at hsame
    rw [base, hdisk, Codec.readSnapshot_snapshotBytes hsnap] at hb
    dsimp only at hb
    split at hb
    · cases hb
    rename_i mem' hok
    cases hb
    refine scopes_eq_empty fun name => ?_
    have hl := Memory.restore_lookup hinv hok name
    rw [← hsame, Memory.Store.new, AList.lookup_empty] at hl
    exact Option.map_eq_none_iff.mp hl.symm

/-- Throughout a run of mutations and compactions, a damaged snapshot never loses state
silently, exactly when `Compact` only ever ran before the first scope existed. -/
theorem damage_harmless_iff (hrun : Run cdc (Store.fresh defaults) steps s)
    (hsteps : ∀ r ∈ steps, r.event.successful = true)
    (hsnap : ∀ r ∈ steps, r.event = .compacted → cdc.RoundTripsSnapshot r.before.mem.snapshot)
    (hbad : ∃ file, cdc.readSnapshot (some file) = none) :
    (∀ pre s', pre <+: steps → Run cdc (Store.fresh defaults) pre s' →
        DamageHarmless cdc defaults s'.disk) ↔
      ∀ r ∈ steps, r.event = .compacted → r.before.mem.scopes = ∅ := by
  constructor
  · intro h r hr hev
    obtain ⟨file, hfile⟩ := hbad
    obtain ⟨pre, hpre, hrun', hstep⟩ := hrun.prefix_of_mem hr
    have hharmless := h (pre ++ [r]) r.after hpre (Run.snoc hrun' hstep)
    have hs := hsnap r hr hev
    generalize r.after = s' at hstep hharmless
    rw [hev] at hstep
    cases hstep with
    | compacted _ => exact hharmless.empty rfl hfile rfl hs hrun'.invariant
  · intro hempty pre s' hpre hrun'
    have hmem : ∀ r ∈ pre, r ∈ steps := fun r hr => hpre.subset hr
    obtain ⟨fromSnapshot, hbase⟩ := hrun'.base_eq (fun r hr => hsteps r (hmem r hr))
      (fun r hr => hempty r (hmem r hr)) fun r hr => hsnap r (hmem r hr)
    exact damageHarmless_of_base hbase

def addCalls : List (Mutation × Readings) :=
  [(.addNodes "s" [{ id := "a" }], { clock := [10, 11, 12] })]

theorem tableCodec_unreadable : (tableCodec rs snap).readSnapshot (some []) = none := rfl

theorem Rehearsed.event {ok : Memory.Store → Mutation → Bool} {ms : List (Mutation × Readings)}
    (h : Rehearsed ok ms steps) {r : StepRecord} (hr : r ∈ steps) :
    r.event.successful = true ∧ r.event ≠ .compacted := by
  obtain ⟨m, rd, -, hev, -⟩ := h.acked r hr
  rw [hev]
  exact ⟨rfl, by simp⟩

theorem compacted_first_harmless : ∃ cdc steps s, Run cdc (Store.fresh {}) steps s ∧
    (∃ r ∈ steps, r.event = .compacted) ∧ logged steps = recordsOf addCalls ∧
      ∀ pre s', pre <+: steps → Run cdc (Store.fresh {}) pre s' →
        DamageHarmless cdc {} s'.disk := by
  have hre : (rehearse (fun _ m => m.plain) addCalls (Memory.Store.new {} 0)).isSome := by
    decide +kernel
  obtain ⟨mem, hmem⟩ := Option.isSome_iff_exists.mp hre
  have hstep : Step (tableCodec (recordsOf addCalls) []) (Store.fresh {}) .compacted _ :=
    Step.compacted rfl
  obtain ⟨steps, hsteps, hrest⟩ := run_of_rehearse (tableCodec (recordsOf addCalls) []) hmem _
  have hrun := (Run.single hstep).append hrest
  refine ⟨_, _, _, hrun, ⟨_, .head _, rfl⟩, hsteps.logged_eq, ?_⟩
  refine (damage_harmless_iff hrun (fun r hr => ?_) (fun r hr hev => ?_)
    ⟨[], tableCodec_unreadable _ _⟩).mpr fun r hr hev => ?_
  · rcases List.mem_cons.mp hr with rfl | hr
    · rfl
    · exact (hsteps.event hr).1
  · rcases List.mem_cons.mp hr with rfl | hr
    · exact tableCodec_roundTripsSnapshot _ _
    · exact absurd hev (hsteps.event hr).2
  · rcases List.mem_cons.mp hr with rfl | hr
    · rfl
    · exact absurd hev (hsteps.event hr).2

/-- The only copy of an acknowledged node was in the snapshot: `Open` returns an empty
store and no error. -/
theorem damaged_snapshot_loses : ∃ cdc steps s file s' rec, Run cdc (Store.fresh {}) steps s ∧
    (∀ r ∈ steps, r.event.successful = true) ∧
      (∀ r ∈ steps, r.event = .compacted → cdc.RoundTripsSnapshot r.before.mem.snapshot) ∧
      cdc.readSnapshot (some file) = none ∧
      (∃ t h, s.mem.scopes.lookup "s" = some t ∧ t.lookup "a" = some h) ∧
      Opens cdc {} { s.disk with snapshot := some file } (.ok (s', rec)) ∧
        s'.mem.scopes.lookup "s" = none := by
  have hre : (rehearse (fun _ m => m.plain) addCalls (Memory.Store.new {} 0)).any (fun mem =>
      (mem.scopes.lookup "s").any fun t => (t.lookup "a").isSome) = true := by decide +kernel
  obtain ⟨mem, hmem, hnode⟩ := (Option.any_eq_true _ _).mp hre
  obtain ⟨t, ht, hnode⟩ := (Option.any_eq_true _ _).mp hnode
  obtain ⟨h, hh⟩ := Option.isSome_iff_exists.mp hnode
  obtain ⟨steps, hsteps, hrest⟩ :=
    run_of_rehearse (tableCodec (recordsOf addCalls) mem.snapshot) hmem {}
  have hrun := hrest.append (Run.single (Step.compacted rfl))
  have hlog : ({ snapshot := some ((tableCodec (recordsOf addCalls) mem.snapshot).snapshotBytes
      mem.snapshot) } : Disk).log = [] := rfl
  obtain ⟨s', rec, hopen, hs'⟩ := opens_damaged (tableCodec (recordsOf addCalls) mem.snapshot) {}
    hlog (tableCodec_unreadable _ _)
  refine ⟨_, _, _, [], s', rec, hrun, fun r hr => ?_, fun r hr hev => ?_, rfl, ⟨t, h, ht, hh⟩,
    hopen, ?_⟩
  · rcases List.mem_append.mp hr with hr | hr
    · exact (hsteps.event hr).1
    · rw [List.mem_singleton.mp hr]
      rfl
  · rcases List.mem_append.mp hr with hr | hr
    · exact absurd hev (hsteps.event hr).2
    · rw [List.mem_singleton.mp hr]
      exact tableCodec_roundTripsSnapshot _ _
  · rw [hs']
    rfl

end Damage

end DagWorker.File
