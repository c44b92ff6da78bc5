import DagWorker.Redis.Scripts

/-!
# What the shared functions leave alone

Most of the prelude moves nodes between phases.  It creates and deletes nothing, grants
no lease, and neither adds nor removes an edge; `Quiet` says so, and every function that
is quiet is shown to be so here, once.
-/

namespace DagWorker.Redis

open Function

namespace State

def epochOf (s : State) (id : NodeID) : Option ℕ := (s.node id).map NodeHash.epoch

/-- The node is leased at epoch `e`. -/
def ClaimedAt (s : State) (id : NodeID) (e : ℕ) : Prop :=
  ∃ n, s.node id = some n ∧ n.phase = .claimed ∧ n.epoch = e

/-- The same nodes at the same epochs, and no lease that was not held before. -/
structure Still (s t : State) : Prop where
  epoch : ∀ id, t.epochOf id = s.epochOf id
  floor : t.stats.epochFloor = s.stats.epochFloor
  calm : ∀ id e, t.ClaimedAt id e → s.ClaimedAt id e

/-- And the same edges. -/
structure Quiet (s t : State) : Prop extends Still s t where
  succ : t.succ = s.succ
  edge : ∀ u v, t.hasEdge u v = s.hasEdge u v

variable {s : State} {p : Phase} {o status : Status} {d atMs nowMs : Int} {kind msg : String}
  {id : NodeID} {reason : Reason} {queue ids : List NodeID} {verdicts : Verdicts} {limit : ℕ}
  {args : CompleteArgs}

theorem Still.refl (s : State) : Still s s := ⟨fun _ => rfl, rfl, fun _ _ h => h⟩

theorem Still.trans {s t u : State} (h : Still s t) (h' : Still t u) : Still s u :=
  ⟨fun id => (h'.epoch id).trans (h.epoch id), h'.floor.trans h.floor,
    fun id e hu => h.calm id e (h'.calm id e hu)⟩

theorem Quiet.refl (s : State) : Quiet s s := ⟨Still.refl s, rfl, fun _ _ => rfl⟩

theorem Quiet.trans {s t u : State} (h : Quiet s t) (h' : Quiet t u) : Quiet s u :=
  ⟨h.toStill.trans h'.toStill, h'.succ.trans h.succ,
    fun a b => (h'.edge a b).trans (h.edge a b)⟩

theorem has_eq_isSome_epochOf (s : State) (id : NodeID) : s.has id = (s.epochOf id).isSome := by
  simp [has, epochOf]

theorem Still.has {s t : State} (h : Still s t) (id : NodeID) : t.has id = s.has id := by
  rw [has_eq_isSome_epochOf, has_eq_isSome_epochOf, h.epoch]

theorem Still.of_nodes {s t : State} (hnodes : t.nodes = s.nodes)
    (hfloor : t.stats.epochFloor = s.stats.epochFloor) : Still s t := by
  have hnode : ∀ id, t.node id = s.node id := fun id => by simp only [node, hnodes]
  refine ⟨fun id => by simp only [epochOf, hnode], hfloor, ?_⟩
  rintro id e ⟨n, hn, h⟩
  exact ⟨n, (hnode id).symm.trans hn, h⟩

/-- A change to sorted sets, statistics, counters or the stream. -/
theorem Quiet.of_frame {s t : State} (hnodes : t.nodes = s.nodes)
    (hfloor : t.stats.epochFloor = s.stats.epochFloor) (hsucc : t.succ = s.succ)
    (hpred : t.pred = s.pred) : Quiet s t :=
  ⟨Still.of_nodes hnodes hfloor, hsucc, fun u v => by simp only [hasEdge, hpred]⟩

theorem node_modNode (s : State) (id : NodeID) (f : NodeHash → NodeHash) (x : NodeID) :
    (s.modNode id f).node x = if x = id then (s.node id).map f else s.node x := by
  unfold modNode
  cases hn : s.node id with
  | none => split <;> simp_all
  | some n =>
    by_cases hx : x = id
    · subst hx
      simp [node]
    · simp [hx, node, AList.lookup_insert_ne]

@[simp] theorem modNode_succ (s : State) (id : NodeID) (f : NodeHash → NodeHash) :
    (s.modNode id f).succ = s.succ := by
  unfold modNode; split <;> rfl

@[simp] theorem modNode_pred (s : State) (id : NodeID) (f : NodeHash → NodeHash) :
    (s.modNode id f).pred = s.pred := by
  unfold modNode; split <;> rfl

@[simp] theorem modNode_stats (s : State) (id : NodeID) (f : NodeHash → NodeHash) :
    (s.modNode id f).stats = s.stats := by
  unfold modNode; split <;> rfl

/-- Writing fields of a node other than its epoch, without claiming it. -/
theorem quiet_modNode (s : State) (id : NodeID) (f : NodeHash → NodeHash)
    (hepoch : ∀ n, (f n).epoch = n.epoch)
    (hphase : ∀ n, (f n).phase = .claimed → n.phase = .claimed) :
    Quiet s (s.modNode id f) := by
  refine ⟨⟨fun x => ?_, by simp, ?_⟩, by simp, fun u v => by simp [hasEdge]⟩
  · simp only [epochOf, node_modNode]
    split
    · next hx => cases hn : s.node id <;> simp [hx, hn, hepoch]
    · rfl
  · rintro x e ⟨n, hn, hclaimed, hn'⟩
    rw [node_modNode] at hn
    split at hn
    · next hx =>
        obtain ⟨m, hm, rfl⟩ := Option.map_eq_some_iff.mp hn
        exact ⟨m, hx ▸ hm, hphase m hclaimed, (hepoch m).symm.trans hn'⟩
    · exact ⟨n, hn, hclaimed, hn'⟩

/-! ## Statistics, sorted sets and the stream -/

@[simp] theorem epochFloor_adjust (st : Stats) (p : Phase) (o : Status) (d : Int) :
    (st.adjust p o d).epochFloor = st.epochFloor := by
  cases p with
  | done => by_cases ho : o = .success <;> simp [Stats.adjust, ho]
  | _ => rfl

theorem quiet_adjustBucket : Quiet s (s.adjustBucket p o d) :=
  Quiet.of_frame rfl (epochFloor_adjust s.stats p o d) rfl rfl

theorem quiet_adjustTotal : Quiet s (s.adjustTotal d) :=
  Quiet.of_frame rfl rfl rfl rfl

theorem quiet_zremReady : Quiet s (s.zremReady kind id) :=
  Quiet.of_frame rfl rfl rfl rfl

theorem quiet_zremSched : Quiet s (s.zremSched id) :=
  Quiet.of_frame rfl rfl rfl rfl

theorem quiet_zremLeases : Quiet s (s.zremLeases id) :=
  Quiet.of_frame rfl rfl rfl rfl

theorem quiet_recordEvent {kind : EventKind} {o' : Status} {attempt : ℕ} {nodeKind : String} :
    Quiet s (s.recordEvent id kind o o' reason msg attempt nodeKind atMs) :=
  (quiet_modNode s id (fun n => { n with seq := n.seq + 1 }) (fun _ => rfl) fun _ h => h).trans
    (Quiet.of_frame rfl rfl rfl rfl)

/-! ## Phases -/

theorem quiet_makeReady {priority : Int} : Quiet s (s.makeReady id kind priority p o) := by
  refine Quiet.trans ?_ quiet_adjustBucket
  refine Quiet.trans ?_ (quiet_modNode _ id _ (fun _ => rfl) fun _ h => by cases h)
  refine Quiet.trans (t := (s.adjustBucket p o (-1)).zremSched id) ?_ (.of_frame rfl rfl rfl rfl)
  exact quiet_adjustBucket.trans quiet_zremSched

theorem quiet_makeBlocked : Quiet s (s.makeBlocked id kind p o) := by
  refine Quiet.trans ?_ quiet_adjustBucket
  refine Quiet.trans ?_ (quiet_modNode _ id _ (fun _ => rfl) fun _ h => by cases h)
  exact (quiet_adjustBucket.trans quiet_zremReady).trans quiet_zremSched

theorem quiet_scheduleRetry : Quiet s (s.scheduleRetry id kind atMs p o) := by
  refine Quiet.trans ?_ quiet_adjustBucket
  refine Quiet.trans (t := (s.adjustBucket p o (-1)).zremReady kind id) ?_ ?_
  · exact quiet_adjustBucket.trans quiet_zremReady
  refine (quiet_modNode _ id
    (fun n => { n with phase := .scheduled, status := .new, readyAt := atMs }) (fun _ => rfl)
    fun _ h => by cases h).trans ?_
  exact .of_frame rfl rfl rfl rfl

theorem quiet_countDep {o : DepCounts.Outcome} : Quiet s (s.countDep id o) :=
  quiet_modNode s id _ (fun _ => rfl) fun _ h => h

theorem quiet_uncountDep {o : DepCounts.Outcome} : Quiet s (s.uncountDep id o) :=
  quiet_modNode s id _ (fun _ => rfl) fun _ h => h

theorem hasEdge_setPred (s : State) (id source : NodeID) (b : Bool) (u v : NodeID) :
    (s.setPred id source b).hasEdge u v =
      (s.hasEdge u v || decide (u = source ∧ v = id)) := by
  by_cases hv : v = id
  · subst hv
    by_cases hu : u = source
    · subst hu
      simp [hasEdge, setPred]
    · simp [hasEdge, setPred, hu, AList.lookup_insert_ne]
  · simp [hasEdge, setPred, hv]

/-- Marking an edge satisfied rewrites an entry that is there. -/
theorem quiet_markSatisfied {s t : State} {v u : NodeID} {status : Status} {reason : Reason}
    (h : s.markSatisfied v u status reason = some t) : Quiet s t := by
  unfold markSatisfied at h
  split at h
  · cases h
  · cases h
  next hl =>
    obtain rfl := Option.some.inj h
    refine Quiet.trans ?_ (quiet_uncountDep.trans quiet_countDep)
    refine ⟨Still.of_nodes rfl rfl, rfl, fun a b => ?_⟩
    rw [hasEdge_setPred]
    by_cases hab : a = u ∧ b = v
    · obtain ⟨rfl, rfl⟩ := hab
      simp [hasEdge, hl]
    · simp [hab]

/-! ## Ranks -/

theorem quiet_assignOrds {ranks : List (NodeID × ℕ)} : Quiet s (assignOrds ranks s) := by
  induction ranks generalizing s with
  | nil => exact Quiet.refl s
  | cons p rest ih =>
    exact (quiet_modNode s p.1 (fun n => { n with ord := p.2 }) (fun _ => rfl)
      fun _ h => h).trans ih

theorem quiet_addEdgeOrder {x y : NodeID} : (s.addEdgeOrder x y).All fun r => Quiet s r.2 := by
  unfold addEdgeOrder
  split
  · exact Quiet.refl s
  refine Prog.All.bind (Prog.all_of_forall (P := fun _ => True) (fun _ => trivial) _)
    fun forward _ => ?_
  cases forward with
  | cycle => exact Quiet.refl s
  | crash => exact Quiet.refl s
  | region deltaF =>
    refine Prog.All.bind (Prog.all_of_forall (P := fun _ => True) (fun _ => trivial) _)
      fun backward _ => ?_
    cases backward with
    | cycle => exact Quiet.refl s
    | crash => exact Quiet.refl s
    | region deltaB => exact quiet_assignOrds

/-! ## Terminating and settling -/

theorem quiet_finish {n : NodeHash} : Quiet s (s.finish id n status reason msg nowMs) := by
  refine Quiet.trans ?_ quiet_recordEvent
  refine Quiet.trans ?_ quiet_adjustBucket
  refine Quiet.trans ?_ (quiet_modNode _ id _ (fun _ => rfl) fun _ h => by cases h)
  exact ((quiet_adjustBucket.trans quiet_zremReady).trans
    quiet_zremSched).trans quiet_zremLeases

theorem quiet_fanOut {ws : List NodeID} :
    Quiet s (fanOut id status reason nowMs ws queue verdicts s).2.2 := by
  fun_induction fanOut id status reason nowMs ws queue verdicts s with
  | case1 => exact Quiet.refl _
  | case2 => assumption
  | case3 _ _ _ _ _ _ hmark _ ih | case4 _ _ _ _ _ _ hmark _ _ _ _ _ ih
  | case6 _ _ _ _ _ _ hmark _ _ _ _ _ _ ih | case7 _ _ _ _ _ _ hmark _ _ _ _ _ ih
  | case8 _ _ _ _ _ _ hmark _ _ _ ih =>
    exact (quiet_markSatisfied hmark).trans ih
  | case5 _ _ _ _ _ _ hmark _ _ _ _ _ _ _ ih =>
    exact (quiet_markSatisfied hmark).trans
      ((quiet_makeReady.trans quiet_recordEvent).trans ih)

theorem quiet_terminateLoop {fuel : ℕ} :
    (terminateLoop nowMs fuel queue verdicts s).All (Quiet s) := by
  induction fuel generalizing queue verdicts s with
  | zero => exact Quiet.refl s
  | succ fuel ih =>
    cases queue with
    | nil => exact Quiet.refl s
    | cons id queue =>
      simp only [terminateLoop]
      cases hn : s.node id with
      | none => exact ih
      | some n =>
        simp only
        split
        · exact ih
        · refine fun succs _ => ih.mono fun t ht => ?_
          exact quiet_finish.trans (quiet_fanOut.trans ht)

theorem quiet_terminate {root : NodeID} :
    (s.terminate root status reason msg nowMs).All (Quiet s) :=
  quiet_terminateLoop

theorem quiet_settle : (s.settle id nowMs).All (Quiet s) := by
  unfold settle
  split
  · exact Quiet.refl s
  split
  · split
    · exact quiet_terminate
    split
    · split
      · exact quiet_makeReady.trans quiet_recordEvent
      · exact Quiet.refl s
    · split
      · exact quiet_makeBlocked
      · exact Quiet.refl s
  · exact Quiet.refl s

theorem quiet_loop {loop : List NodeID → State → Prog State} {round : NodeID → State → Prog State}
    (hnil : ∀ s, loop [] s = pure s)
    (hcons : ∀ id ids s, loop (id :: ids) s = round id s >>= loop ids)
    (hround : ∀ id s, (round id s).All (Quiet s)) : (loop ids s).All (Quiet s) := by
  induction ids generalizing s with
  | nil =>
    rw [hnil]
    exact Quiet.refl s
  | cons id ids ih =>
    rw [hcons]
    exact (hround id s).bind fun t ht => ih.mono fun u hu => ht.trans hu

theorem quiet_settleAll : (settleAll nowMs ids s).All (Quiet s) :=
  quiet_loop (fun _ => rfl) (fun _ _ _ => rfl) fun _ _ => quiet_settle

theorem quiet_terminateAll : (terminateAll status reason msg nowMs ids s).All (Quiet s) :=
  quiet_loop (fun _ => rfl) (fun _ _ _ => rfl)
    fun _ _ => quiet_terminate

/-! ## Retries -/

theorem quiet_failAttempt : (s.failAttempt id reason msg nowMs).All fun r => Quiet s r.2 := by
  unfold failAttempt
  split
  · exact Quiet.refl s
  next n _ =>
    have hdrop : Quiet s ((s.zremLeases id).modNode id fun n => { n with deadline := 0 }) :=
      quiet_zremLeases.trans (quiet_modNode _ id _ (fun _ => rfl) fun _ h => h)
    simp only
    generalize (if 0 < n.retryMaxAttempts then n.retryMaxAttempts
      else orDefault s.cfg.maxAttempts defaultMaxAttempts) = maxAttempts
    split
    · refine Prog.All.bind quiet_terminate fun t ht => ?_
      exact hdrop.trans ht
    refine Prog.All.bind (Prog.all_of_forall (P := fun _ => True) (fun _ => trivial) _)
      fun delay _ => ?_
    refine hdrop.trans (Quiet.trans ?_ quiet_recordEvent)
    refine Quiet.trans ?_ quiet_scheduleRetry
    exact quiet_modNode _ id _ (fun _ => rfl) fun _ h => h

theorem quiet_reclaimAll : (reclaimAll nowMs ids s).All (Quiet s) := by
  induction ids generalizing s with
  | nil => exact Quiet.refl s
  | cons id ids ih =>
    exact quiet_failAttempt.bind fun r hr =>
      ih.mono fun t ht => hr.trans ht

theorem quiet_reclaimExpired : (s.reclaimExpired nowMs limit).All fun r => Quiet s r.2 :=
  quiet_reclaimAll.bind fun _ ht => ht

theorem quiet_promoteLoop {left : ℕ} : Quiet s (promoteLoop nowMs left s) := by
  induction left generalizing s with
  | zero => exact Quiet.refl s
  | succ left ih =>
    simp only [promoteLoop]
    split
    · exact Quiet.refl s
    split
    · exact Quiet.refl s
    split
    · exact Quiet.refl s
    · exact ((quiet_zremSched.trans quiet_makeReady).trans
        quiet_recordEvent).trans ih

theorem quiet_promoteScheduled : Quiet s (s.promoteScheduled nowMs) :=
  quiet_promoteLoop

/-! ## Scripts -/

theorem quiet_recordCreated : Quiet s (recordCreated nowMs ids s) := by
  induction ids generalizing s with
  | nil => exact Quiet.refl s
  | cons id ids ih => exact quiet_recordEvent.trans ih

theorem quiet_cancelAll : (cancelAll nowMs ids s).All (Quiet s) := by
  induction ids generalizing s with
  | nil => exact Quiet.refl s
  | cons id ids ih =>
    simp only [cancelAll]
    split
    · exact ih
    split
    · exact ih
    · exact quiet_terminate.bind fun t ht =>
        ih.mono fun u hu => ht.trans hu

theorem quiet_cancelNodes : (s.cancelNodes ids).All fun r => Quiet s r.2 := by
  unfold cancelNodes
  split
  · exact Quiet.refl s
  · exact fun nowMs => quiet_cancelAll.bind fun t ht => ht

theorem quiet_cancelScope : s.cancelScope.All fun r => Quiet s r.2 :=
  fun _ => quiet_cancelAll.bind fun _ ht => ht

/-- A grant is a write of the leased node between quiet steps. -/
theorem grant_spec (s : State) (kind : String) (id : NodeID) (n : NodeHash) (args : ClaimArgs)
    (nowMs : Int) : ∃ mid, Quiet s mid ∧
      Quiet (mid.modNode id fun n => leased n args nowMs) (s.grant kind id n args nowMs) := by
  refine ⟨(s.zremReady kind id).adjustBucket n.phase n.status (-1),
    quiet_zremReady.trans quiet_adjustBucket, ?_⟩
  refine Quiet.trans ?_ quiet_recordEvent
  exact quiet_adjustBucket.trans (Quiet.of_frame rfl rfl rfl rfl)

theorem quiet_completeHeld : (s.completeHeld args).All fun r => Quiet s r.2 := by
  unfold completeHeld
  rw [Prog.all_bind]
  intro nowMs
  split
  · split
    · exact Quiet.refl s
    · refine Prog.All.bind quiet_terminate fun t ht => ?_
      refine Quiet.trans ?_ ht
      exact Quiet.of_frame rfl rfl rfl rfl
  · simp only
    generalize (if args.reason = .none then Reason.workerError else args.reason) = reason
    split
    · refine Prog.All.bind quiet_terminate fun t ht => ?_
      refine Quiet.trans ?_ ht
      exact quiet_zremLeases.trans (quiet_modNode _ args.id _ (fun _ => rfl) fun _ h => h)
    · refine Prog.All.bind quiet_failAttempt fun r hr => ?_
      exact hr

theorem quiet_complete : (s.complete args).All fun r => Quiet s r.2 := by
  unfold complete
  split
  · exact Quiet.refl s
  · split
    · exact quiet_completeHeld
    · exact Quiet.refl s

theorem quiet_extend {presentedEpoch : ℕ} {leaseMs : Int} :
    (s.extend id presentedEpoch leaseMs).All fun r => Quiet s r.2 := by
  unfold extend
  split
  · exact Quiet.refl s
  split
  · intro nowMs
    refine (quiet_modNode s id (fun n => { n with deadline := nowMs + leaseMs }) (fun _ => rfl)
      fun _ h => h).trans ?_
    exact Quiet.of_frame rfl rfl rfl rfl
  · exact Quiet.refl s

theorem quiet_sweep : (s.sweep limit).All fun r => Quiet s r.2 :=
  fun _ => quiet_reclaimExpired.bind fun _ hr =>
    hr.trans quiet_promoteScheduled

end State

end DagWorker.Redis
