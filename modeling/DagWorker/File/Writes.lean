import DagWorker.File.Compaction

/-!
# Writes that fail

A mutation is applied before its record is written.  When the write fails, its caller gets
an error, but the mutation stays in memory, and the log may end with a part of the frame.
Reading stops at the first frame that is not intact, and what was applied later may rest
on what is lost.  So the log is good as long as every frame was written as a whole, and
nothing was written after one that was not.
-/

namespace DagWorker.File

open Prog

variable {cdc : Codec} {defaults : ScopeConfig} {steps : List StepRecord} {s : Store}
variable {e : Event} {s' : Store} {rd : Readings} {ms : List (Mutation × Readings)}
  {ok : Memory.Store → Mutation → Bool}

/-- The mutation that was applied, whether or not its record was written. -/
def Event.applied : Event → Option (Mutation × Readings)
  | .acked m rd => some (m, rd)
  | .failed m rd _ => some (m, rd)
  | _ => none

/-- The whole frame of the record was written, if perhaps not synced, or there is no record
to write. -/
def Event.Whole (cdc : Codec) : Event → Prop
  | .acked _ _ | .rejected _ _ => True
  | .failed m rd written => written = cdc.frame (m.record rd)
  | _ => False

/-- Nothing was written. -/
def Event.Void : Event → Prop
  | .rejected _ _ => True
  | .failed _ _ written => written = []
  | _ => False

/-- A mutation the order of maps has no influence on, with a record that can be read back;
or a call that was rejected and changed nothing. -/
def StepRecord.Applies (cdc : Codec) (r : StepRecord) : Prop :=
  (∃ m rd, r.event.applied = some (m, rd) ∧ m.op.Ordered r.before.mem ∧
    cdc.RoundTrips (m.record rd)) ∨
  ∃ m e, r.event = .rejected m e ∧ r.after.mem = r.before.mem

/-- After a frame that is not whole nothing is written. -/
def WholeOrLast (cdc : Codec) (steps : List StepRecord) : Prop :=
  steps.Pairwise fun r q => r.event.Whole cdc ∨ q.event.Void

theorem Step.whole (hstep : Step cdc s e s') {m : Mutation} (happlied : e.applied = some (m, rd))
    (hwhole : e.Whole cdc) :
    ∃ out, Reads (m.op.exec s.mem) rd.clock rd.jitter (out, s'.mem) ∧ out.err = none ∧
      s'.disk = { s.disk with log := s.disk.log ++ cdc.frame (m.record rd) } := by
  cases hstep with
  | acked _ hr hout =>
    cases happlied
    exact ⟨_, hr, hout, rfl⟩
  | failed _ hr hout _ =>
    cases happlied
    obtain rfl := hwhole
    exact ⟨_, hr, hout, rfl⟩
  | rejected | refused | compacted | closed => cases happlied

theorem Step.torn (hstep : Step cdc s e s') {m : Mutation} (happlied : e.applied = some (m, rd))
    (hwhole : ¬e.Whole cdc) :
    ∃ written, written <+: cdc.frame (m.record rd) ∧ written ≠ cdc.frame (m.record rd) ∧
      s'.disk = { s.disk with log := s.disk.log ++ written } := by
  cases hstep with
  | acked _ _ _ => exact absurd trivial hwhole
  | failed _ _ _ hpre =>
    cases happlied
    exact ⟨_, hpre, hwhole, rfl⟩
  | rejected | refused | compacted | closed => cases happlied

theorem Step.void (hstep : Step cdc s e s') (hvoid : e.Void) : s'.disk = s.disk := by
  cases hstep with
  | failed _ _ _ _ =>
    obtain rfl := hvoid
    simp
  | rejected | refused => rfl
  | acked | compacted | closed => exact hvoid.elim

/-- Where a run stands: every frame so far is whole, or the log ends with a part of one. -/
def Standing (cdc : Codec) (defaults : ScopeConfig) (steps : List StepRecord) (s : Store) : Prop :=
  ((∀ r ∈ steps, r.event.Whole cdc) ∧ Tracks Eq Gate.Spent cdc defaults s.disk s.mem) ∨
    ∃ pre post s' tail, steps = pre ++ post ∧ (∃ r ∈ post, ¬r.event.Whole cdc) ∧
      (∀ r ∈ post, ¬r.Acked) ∧ Run cdc (Store.fresh defaults) pre s' ∧
      Tracks Eq Gate.Spent cdc defaults s'.disk s'.mem ∧
      (∀ fuel, cdc.readFrames fuel tail = ([], tail)) ∧
      s.disk = { s'.disk with log := s'.disk.log ++ tail }

theorem Run.standing (hrun : Run cdc (Store.fresh defaults) steps s)
    (hsteps : ∀ r ∈ steps, r.Applies cdc) (hwrites : WholeOrLast cdc steps) :
    Standing cdc defaults steps s := by
  induction hrun with
  | nil => exact .inl ⟨by simp, Tracks.of_base rfl (base_of_none rfl) rfl⟩
  | @snoc steps r hrun hstep ih =>
    obtain ⟨hbefore, -, hpair⟩ := List.pairwise_append.mp hwrites
    rcases ih (fun q hq => hsteps q (List.mem_append_left _ hq)) hbefore with
      ⟨hwhole, htracks⟩ | ⟨pre, post, s', tail, rfl, ⟨q, hq, htorn⟩, hacked, hpre, htracks, htail,
        hdisk⟩
    · have hall : r.event.Whole cdc → ∀ q ∈ steps ++ [r], q.event.Whole cdc := by
        intro hr q hq
        rcases List.mem_append.mp hq with hq | hq
        · exact hwhole q hq
        · rwa [List.mem_singleton.mp hq]
      rcases hsteps r (List.mem_append_right _ (List.mem_singleton.mpr rfl)) with
        ⟨m, rd, happlied, hop, hrt⟩ | ⟨m, e, hev, hmem⟩
      · by_cases hr : r.event.Whole cdc
        · obtain ⟨out, hreads, hout, hdisk⟩ := hstep.whole happlied hr
          refine .inl ⟨hall hr, ?_⟩
          rw [hdisk]
          exact htracks.append hrt
            (carries_of_reads (hrun.reachable (reachable_fresh _)) hop hreads hout)
        · right
          obtain ⟨written, hprefix, hne, hdisk⟩ := hstep.torn happlied hr
          refine ⟨steps, [r], _, written, rfl, ⟨r, List.mem_singleton.mpr rfl, hr⟩, fun q hq => ?_,
            hrun, htracks, fun fuel => Codec.readFrames_torn hrt hprefix hne fuel, hdisk⟩
          rw [List.mem_singleton.mp hq]
          rintro ⟨m', rd', hev⟩
          rw [hev] at hr
          exact hr trivial
      · have hdisk := hstep.void (by rw [hev]; trivial)
        refine .inl ⟨hall (by rw [hev]; trivial), ?_⟩
        rw [hmem, hdisk]
        exact htracks
    · right
      -- what follows a frame that is not whole writes nothing
      have hvoid : r.event.Void :=
        (hpair q (List.mem_append_right _ hq) r (List.mem_singleton.mpr rfl)).resolve_left htorn
      refine ⟨pre, post ++ [r], s', tail, List.append_assoc _ _ _,
        ⟨q, List.mem_append_left _ hq, htorn⟩, fun x hx => ?_, hpre, htracks, htail,
        (hstep.void hvoid).trans hdisk⟩
      rcases List.mem_append.mp hx with hx | hx
      · exact hacked x hx
      rw [List.mem_singleton.mp hx]
      rintro ⟨m', rd', hev⟩
      rw [hev] at hvoid
      exact hvoid

/-- **Durability.**  When no write follows one that is not whole, `Open` succeeds, and the
state it recovers is one that the run was in after its last acknowledged mutation. -/
theorem acked_recovered (hrun : Run cdc (Store.fresh defaults) steps s)
    (hsteps : ∀ r ∈ steps, r.Applies cdc) (hwrites : WholeOrLast cdc steps) :
    ∃ pre post s', steps = pre ++ post ∧ (∀ r ∈ post, ¬r.Acked) ∧
      Run cdc (Store.fresh defaults) pre s' ∧ Recovers cdc defaults s.disk (Eq s'.mem) := by
  rcases hrun.standing hsteps hwrites with
    ⟨-, htracks⟩ | ⟨pre, post, s', tail, heq, -, hacked, hpre, htracks, htail, hdisk⟩
  · exact ⟨steps, [], s, (List.append_nil _).symm, by simp, hrun, htracks.recovers⟩
  · refine ⟨pre, post, s', heq, hacked, hpre, ?_⟩
    rw [hdisk]
    exact htracks.recovers_torn htail

/-- One call whose write fails before the first byte, rehearsed. -/
def lose (m : Mutation) (rd : Readings) (mem : Memory.Store) : Option Memory.Store := do
  let (out, mem') ← (m.op.exec mem).takes rd.clock rd.jitter
  if out.err.isSome then none else some mem'

theorem step_of_lose {m : Mutation} {mem mem' : Memory.Store} {disk : Disk}
    (h : lose m rd mem = some mem') :
    Step cdc { disk := disk, mem := mem } (.failed m rd []) { disk := disk, mem := mem' } := by
  obtain ⟨⟨out, mid⟩, htakes, h⟩ := Option.bind_eq_some_iff.mp h
  obtain ⟨hout, ⟨⟩⟩ := Option.ite_none_left_eq_some.mp h
  have hstep : Step cdc { disk := disk, mem := mem } (.failed m rd []) _ :=
    Step.failed rfl (reads_of_takes htakes) (by simpa using hout) List.nil_prefix
  rwa [List.append_nil] at hstep

theorem Rehearsed.applies (h : Rehearsed (fun _ m => m.plain) ms steps)
    (hrt : ∀ r ∈ recordsOf ms, cdc.RoundTrips r) : ∀ r ∈ steps, r.Applies cdc := by
  intro r hr
  obtain ⟨m, rd, hmem, hev, hok⟩ := h.acked r hr
  refine .inl ⟨m, rd, by rw [hev]; rfl, ?_, hrt _ ?_⟩
  · cases m with
    | cancelScope scope => cases hok
    | _ => trivial
  · exact List.mem_map_of_mem (f := fun x : Mutation × Readings => x.1.record x.2) hmem

theorem Rehearsed.wholeOrLast (h : Rehearsed ok ms steps) {q : StepRecord} (hq : q.event.Void) :
    WholeOrLast cdc (steps ++ [q]) := by
  refine List.pairwise_append.mpr ⟨?_, List.pairwise_singleton _ _, fun r hr x hx => ?_⟩
  · refine List.pairwise_of_forall_mem_list fun r hr x _ => .inl ?_
    obtain ⟨m, rd, -, hev, -⟩ := h.acked r hr
    rw [hev]
    trivial
  · rw [List.mem_singleton.mp hx]
    exact .inr hq

theorem Rehearsed.exists_acked (h : Rehearsed ok ms steps) (hne : ms ≠ []) :
    ∃ r ∈ steps, r.Acked := by
  have hsome : steps ≠ [] := by
    rintro rfl
    exact hne (List.map_eq_nil_iff.mp h.logged_eq.symm)
  obtain ⟨r, hr⟩ := List.exists_mem_of_ne_nil _ hsome
  obtain ⟨m, rd, -, hev, -⟩ := h.acked r hr
  exact ⟨r, hr, m, rd, hev⟩

def lostClaim : Mutation × Readings := (.claim { scope := "s" }, { clock := [20, 21] })

theorem lostClaim_recovered : ∃ cdc steps s, Run cdc (Store.fresh {}) steps s ∧
    (∃ r ∈ steps, r.Acked) ∧ (∃ r ∈ steps, ¬r.event.Whole cdc) ∧
      ∃ pre post s', steps = pre ++ post ∧ (∀ r ∈ post, ¬r.Acked) ∧
        Run cdc (Store.fresh {}) pre s' ∧ Recovers cdc {} s.disk (Eq s'.mem) := by
  have hre : ((rehearse (fun _ m => m.plain) addCalls (Memory.Store.new {} 0)).bind
      (lose lostClaim.1 lostClaim.2)).isSome := by decide +kernel
  obtain ⟨mem', hmem'⟩ := Option.isSome_iff_exists.mp hre
  obtain ⟨mem, hmem, hlost⟩ := Option.bind_eq_some_iff.mp hmem'
  obtain ⟨steps, hsteps, hrest⟩ := run_of_rehearse
    (tableCodec (recordsOf (addCalls ++ [lostClaim])) []) hmem {}
  have hrun := hrest.append (Run.single (step_of_lose hlost))
  have hrt := tableCodec_roundTrips (recordsOf (addCalls ++ [lostClaim])) [] (by decide) (by decide)
  refine ⟨_, _, _, hrun, ?_, ?_, acked_recovered hrun (fun r hr => ?_) (hsteps.wholeOrLast rfl)⟩
  · obtain ⟨r, hr, hacked⟩ := hsteps.exists_acked (List.cons_ne_nil _ _)
    exact ⟨r, List.mem_append_left _ hr, hacked⟩
  · refine ⟨_, List.mem_append_right _ (List.mem_singleton.mpr rfl), fun h => ?_⟩
    have hlen := congrArg List.length h
    cases hlen
  · rcases List.mem_append.mp hr with hr | hr
    · exact hsteps.applies (fun q hq => hrt q (by simp [recordsOf] at hq ⊢; exact .inl hq)) r hr
    · rw [List.mem_singleton.mp hr]
      exact .inl ⟨_, _, rfl, trivial, hrt _ (by simp [recordsOf, lostClaim])⟩

def lostNode : Mutation × Readings :=
  (.addNodes "s" [{ id := "a" }], { clock := [10, 11, 12] })

/-- A node that depends on it. -/
def dependentCalls : List (Mutation × Readings) :=
  [(.addNodes "s" [{ id := "b", deps := ["a"] }], { clock := [20, 21] })]

/-- The acknowledged node rests on one that is not in the log: the directory cannot be
opened. -/
theorem lostNode_refused : ∃ cdc steps s, Run cdc (Store.fresh {}) steps s ∧
    (∀ r ∈ steps, r.Applies cdc) ∧ (∃ r ∈ steps, r.Acked) ∧
      ∃ e, Opens cdc {} s.disk (.error (.replaying 0 .addNodes "s" e)) ∧
        e.sentinel = .notFound := by
  have hre : ((lose lostNode.1 lostNode.2 (Memory.Store.new {} 0)).bind
      (rehearse (fun _ m => m.plain) dependentCalls)).isSome := by decide +kernel
  obtain ⟨mem', hmem'⟩ := Option.isSome_iff_exists.mp hre
  obtain ⟨mem, hlost, hmem⟩ := Option.bind_eq_some_iff.mp hmem'
  obtain ⟨steps, hsteps, hrest⟩ := run_of_rehearse
    (tableCodec (recordsOf (dependentCalls ++ [lostNode])) []) hmem {}
  have hrun := (Run.single (step_of_lose hlost)).append hrest
  have hrt := tableCodec_roundTrips (recordsOf (dependentCalls ++ [lostNode])) [] (by decide)
    (by decide)
  have hfirst : ∀ r ∈ recordsOf dependentCalls,
      (tableCodec (recordsOf (dependentCalls ++ [lostNode])) []).RoundTrips r :=
    fun q hq => hrt q (by simp [recordsOf] at hq ⊢; exact .inl hq)
  have hstop : failsWith (OpenError.stopsAt 0 .addNodes "s" .notFound)
      (replayAll 0 (recordsOf dependentCalls) (Memory.Store.new {} 0) {}).2 = true := by
    decide +kernel
  refine ⟨_, _, _, hrun, fun r hr => ?_, ?_, ?_⟩
  · rcases List.mem_cons.mp hr with rfl | hr
    · exact .inl ⟨_, _, rfl, trivial, hrt _ (by simp [recordsOf, lostNode])⟩
    · exact hsteps.applies hfirst r hr
  · obtain ⟨r, hr, hacked⟩ := hsteps.exists_acked (List.cons_ne_nil _ _)
    exact ⟨r, .tail _ hr, hacked⟩
  · obtain ⟨e, hreplay, hsent⟩ := exists_of_stopsAt hstop
    refine ⟨e, opens_error (base_of_none rfl) ?_ hreplay, hsent⟩
    exact congrArg Prod.fst (Codec.readAll_whole hfirst)

end DagWorker.File
