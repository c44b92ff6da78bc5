import DagWorker.Postgres.Engine

/-!
# What the engine writes

The rows and edges after each statement and after each loop of the fan-out.
-/

namespace DagWorker.Postgres.Engine

variable {f : NodeRow → NodeRow}

/-! ## Statements -/

section Statements

variable (e : Engine) (srv : Server)
variable (p : Phase) (id : ℕ) (it : TerminateItem) (s : Status) (n : NodeRow) (status : Status)
  (p' : Phase) (reason : Reason) (w : ℕ) (s' : Status)

@[simp] theorem moveBucket_rows : (e.moveBucket p s p' s').rows = e.rows := by
  simp only [moveBucket]
  split <;> rfl

@[simp] theorem moveBucket_edges : (e.moveBucket p s p' s').edges = e.edges := by
  simp only [moveBucket]
  split <;> rfl

@[simp] theorem updateNode_edges (f : NodeRow → NodeRow) : (e.updateNode id f).edges = e.edges := by
  unfold updateNode
  split <;> rfl

theorem updateNode_lookup (f : NodeRow → NodeRow) (w : ℕ) :
    (e.updateNode id f).rows.lookup w =
      if w = id then (e.rows.lookup id).map f else e.rows.lookup w := by
  unfold updateNode
  by_cases hw : w = id
  · subst hw
    cases hl : e.rows.lookup w with
    | none => simp [hl]
    | some r => simp
  · rw [if_neg hw]
    split
    · rfl
    · exact AList.lookup_insert_ne hw

/-- The row `makeReady` leaves. -/
def readied (fifo : ℕ) (r : NodeRow) : NodeRow :=
  { r with phase := .ready, status := .new, readyAt := none, fifo := fifo, seq := r.seq + 1 }

theorem makeReady_lookup :
    (e.makeReady srv id n).2.rows.lookup w =
      if w = id then (e.rows.lookup id).map (readied (srv.fifo e.fifos))
      else e.rows.lookup w := by
  simp only [makeReady, insertEvent, moveBucket_rows]
  exact updateNode_lookup e id _ w

@[simp] theorem makeReady_edges : (e.makeReady srv id n).2.edges = e.edges := by
  simp [makeReady, insertEvent]

theorem makeReady_nodeID : (e.makeReady srv id n).1.nodeID = n.nodeID := rfl

theorem makeBlocked_lookup :
    (e.makeBlocked id n).rows.lookup w =
      if w = id then (e.rows.lookup id).map fun r => { r with phase := .blocked, status := .new }
      else e.rows.lookup w := by
  simp only [makeBlocked, moveBucket_rows]
  exact updateNode_lookup e id _ w

@[simp] theorem makeBlocked_edges : (e.makeBlocked id n).edges = e.edges := by
  simp [makeBlocked]

/-- The row `terminate` leaves. -/
def finished (it : TerminateItem) (r : NodeRow) : NodeRow :=
  { r with
    phase := .done
    status := it.status
    reason := it.reason
    message := it.message
    deadline := none
    readyAt := none
    worker := ""
    seq := r.seq + 1 }

theorem finish_lookup :
    (e.finish srv it n).2.rows.lookup w =
      if w = it.id then (e.rows.lookup it.id).map (finished it) else e.rows.lookup w := by
  simp only [finish, insertEvent, moveBucket_rows]
  exact updateNode_lookup e it.id _ w

@[simp] theorem finish_edges : (e.finish srv it n).2.edges = e.edges := by
  simp [finish, insertEvent]

@[simp] theorem applyDepDelta_edges : (e.applyDepDelta id status reason).edges = e.edges :=
  updateNode_edges e id _

theorem markEdgeSatisfied_of_open {u w : ℕ} (h : e.edges.lookup (u, w) = some false) :
    e.markEdgeSatisfied u w = (true, { e with edges := e.edges.insert (u, w) true }) := by
  simp [markEdgeSatisfied, h]

theorem markEdgeSatisfied_of_not_open {u w : ℕ} (h : e.edges.lookup (u, w) ≠ some false) :
    e.markEdgeSatisfied u w = (false, e) := by
  unfold markEdgeSatisfied
  split
  · exact absurd ‹_› h
  · rfl

theorem mem_targets {u w : ℕ} : w ∈ e.targets u ↔ (e.edges.lookup (u, w)).isSome := by
  rw [targets, (List.perm_insertionSort _ _).mem_iff, AList.lookup_isSome, AList.mem_keys]
  simp only [List.mem_map, List.mem_filter, decide_eq_true_eq, Prod.exists, exists_eq_right]

theorem targets_nodup (u : ℕ) : (e.targets u).Nodup := by
  rw [targets, (List.perm_insertionSort _ _).nodup_iff]
  refine (List.Nodup.filter _ e.edges.nodupKeys).map_on ?_
  rintro ⟨a, b⟩ ha ⟨c, d⟩ hc rfl
  have ha := (List.mem_filter.mp ha).2
  have hc := (List.mem_filter.mp hc).2
  simp only [decide_eq_true_eq] at ha hc
  rw [ha, hc]

end Statements

/-! ## Telling one successor -/

/-- The engine once an open edge has been marked and the tally of its target
updated. -/
def resolved (e : Engine) (u w : ℕ) (status : Status) (reason : Reason) : Engine :=
  ({ e with edges := e.edges.insert (u, w) true } : Engine).applyDepDelta w status reason

/-- The row of a successor once a predecessor resolved. -/
def told (status : Status) (reason : Reason) (r : NodeRow) : NodeRow :=
  { r with deps := resolve r.deps (.ofTerminal status reason) }

section Cascade

variable {srv : Server} {u w : ℕ} {status : Status} {reason : Reason} {e : Engine}
  {succ : NodeRow} {queue : List TerminateItem} {effects : List Effect}

theorem resolved_lookup (x : ℕ) :
    (e.resolved u w status reason).rows.lookup x =
      if x = w then (e.rows.lookup w).map (told status reason) else e.rows.lookup x :=
  updateNode_lookup _ w _ x

theorem resolved_edges (k : ℕ × ℕ) :
    (e.resolved u w status reason).edges.lookup k =
      if k = (u, w) then some true else e.edges.lookup k := by
  rw [resolved, applyDepDelta_edges]
  by_cases hk : k = (u, w)
  · rw [hk, if_pos rfl, AList.lookup_insert]
  · rw [if_neg hk, AList.lookup_insert_ne hk]

theorem resolved_depsOf (hrow : e.rows.lookup w = some succ) :
    (e.resolved u w status reason).depsOf w = (told status reason succ).deps := by
  rw [depsOf, resolved_lookup, if_pos rfl, hrow]
  rfl

/-- A rule that the cascade looks at. -/
def Listening (r : NodeRow) : Prop := r.phase = .blocked ∨ r.phase = .ready

instance (r : NodeRow) : Decidable (Listening r) :=
  inferInstanceAs (Decidable (_ ∨ _))

theorem not_quiet_of_listening {r : NodeRow} (h : Listening r) :
    ¬ (r.phase ≠ .blocked ∧ r.phase ≠ .ready) := by
  rw [not_and_or, not_not, not_not]
  exact h

theorem cascadeOne_of_not_open (hopen : e.edges.lookup (u, w) ≠ some false) :
    cascadeOne srv u status reason w succ e queue effects = (e, queue, effects) := by
  rw [cascadeOne, markEdgeSatisfied_of_not_open e hopen]

/-- Everything the body of the cascade can do. -/
inductive Cascaded (srv : Server) (u : ℕ) (status : Status) (reason : Reason) (w : ℕ)
    (succ : NodeRow) (e : Engine) (queue : List TerminateItem) (effects : List Effect) :
    Engine × List TerminateItem × List Effect → Prop
  | skip : e.edges.lookup (u, w) ≠ some false → Cascaded srv u status reason w succ e queue
      effects (e, queue, effects)
  | tell : e.edges.lookup (u, w) = some false → Cascaded srv u status reason w succ e queue
      effects (e.resolved u w status reason, queue, effects)
  | enqueue (reason' : Reason) : e.edges.lookup (u, w) = some false →
      Cascaded srv u status reason w succ e queue effects (e.resolved u w status reason,
        queue ++ [⟨w, .error, reason', terminalMessage reason'⟩], effects)
  | release : e.edges.lookup (u, w) = some false → succ.phase = .blocked →
      Cascaded srv u status reason w succ e queue effects
        (((e.resolved u w status reason).makeReady srv w succ).2, queue,
          effects ++ [((e.resolved u w status reason).makeReady srv w succ).1])

theorem cascadeOne_cascaded (u : ℕ) (status : Status) (reason : Reason) (w : ℕ)
    (succ : NodeRow) : Cascaded srv u status reason w succ e queue effects
      (cascadeOne srv u status reason w succ e queue effects) := by
  by_cases hopen : e.edges.lookup (u, w) = some false
  · rw [cascadeOne, markEdgeSatisfied_of_open e hopen]
    simp only
    split_ifs with hlisten hunsat hready hne
    · exact .tell hopen
    · exact .enqueue _ hopen
    · apply Cascaded.release hopen
      by_contra hblocked
      exact hlisten ⟨hblocked, hne⟩
    · exact .tell hopen
    · exact .tell hopen
  · rw [cascadeOne_of_not_open hopen]
    exact .skip hopen

variable (hopen : e.edges.lookup (u, w) = some false) (hrow : e.rows.lookup w = some succ)
include hopen hrow

theorem cascadeOne_of_open : cascadeOne srv u status reason w succ e queue effects =
    if succ.phase ≠ .blocked ∧ succ.phase ≠ .ready then
      (e.resolved u w status reason, queue, effects)
    else if (told status reason succ).deps.unsatisfiable succ.trigger then
      (e.resolved u w status reason, queue ++ [⟨w, .error,
        (told status reason succ).deps.terminalReason,
        terminalMessage (told status reason succ).deps.terminalReason⟩], effects)
    else if (told status reason succ).deps.ready succ.trigger then
      if succ.phase ≠ .ready then
        (((e.resolved u w status reason).makeReady srv w succ).2, queue,
          effects ++ [((e.resolved u w status reason).makeReady srv w succ).1])
      else (e.resolved u w status reason, queue, effects)
    else (e.resolved u w status reason, queue, effects) := by
  rw [cascadeOne, markEdgeSatisfied_of_open e hopen,
    ← resolved_depsOf (u := u) (e := e) hrow]
  rfl

/-- The successor hears of it, and nothing follows. -/
theorem cascadeOne_quiet (hquiet : Listening succ →
      (told status reason succ).deps.unsatisfiable succ.trigger = false ∧
        ((told status reason succ).deps.ready succ.trigger = true → succ.phase = .ready)) :
    cascadeOne srv u status reason w succ e queue effects =
      (e.resolved u w status reason, queue, effects) := by
  rw [cascadeOne_of_open hopen hrow]
  by_cases hlisten : Listening succ
  · obtain ⟨hunsat, hready⟩ := hquiet hlisten
    rw [if_neg (not_quiet_of_listening hlisten), hunsat]
    by_cases hr : (told status reason succ).deps.ready succ.trigger = true
    · simp [hr, hready hr]
    · simp [hr]
  · rw [if_pos (not_or.mp hlisten)]

end Cascade

/-! ## What a cascade touches -/

/-- No row comes or goes, rows outside of `S` stay as they are, open edges into `S` may have
been marked, and effects are only appended. -/
structure Touches (S : ℕ → Prop) (e : Engine) (effects : List Effect) (e' : Engine)
    (effects' : List Effect) : Prop where
  isSome : ∀ x, (e'.rows.lookup x).isSome = (e.rows.lookup x).isSome
  row : ∀ x, ¬S x → e'.rows.lookup x = e.rows.lookup x
  edge : ∀ k, e'.edges.lookup k = e.edges.lookup k ∨
    S k.2 ∧ e.edges.lookup k = some false ∧ e'.edges.lookup k = some true
  appended : effects <+: effects'

/-- No open edge leads out of the set. -/
def Absorbs (S : ℕ → Prop) (e : Engine) : Prop :=
  ∀ u w, S u → e.edges.lookup (u, w) = some false → S w

/-- No open edge leads to `v`. -/
def Closed (e : Engine) (v : ℕ) : Prop := ∀ u, e.edges.lookup (u, v) ≠ some false

theorem Closed.absorbs {e : Engine} {v : ℕ} (h : e.Closed v) : Absorbs (· ≠ v) e := by
  rintro u w - hopen rfl
  exact h u hopen

variable {S : ℕ → Prop} {srv : Server} {u w : ℕ} {status : Status} {reason : Reason}
  {e e₁ e₂ : Engine} {queue : List TerminateItem} {effects effects₁ effects₂ : List Effect}

namespace Touches

theorem refl (S : ℕ → Prop) (e : Engine) (effects : List Effect) : Touches S e effects e effects :=
  ⟨fun _ => rfl, fun _ _ => rfl, fun _ => .inl rfl, List.prefix_refl _⟩

theorem trans (h₁ : Touches S e effects e₁ effects₁) (h₂ : Touches S e₁ effects₁ e₂ effects₂) :
    Touches S e effects e₂ effects₂ := by
  refine ⟨fun x => (h₂.isSome x).trans (h₁.isSome x),
    fun x hx => (h₂.row x hx).trans (h₁.row x hx), fun k => ?_, h₁.appended.trans h₂.appended⟩
  rcases h₁.edge k with heq₁ | ⟨hS, hopen, hmarked⟩
  · rw [← heq₁]
    exact h₂.edge k
  · rcases h₂.edge k with heq₂ | ⟨-, hopen', -⟩
    · exact .inr ⟨hS, hopen, heq₂.trans hmarked⟩
    · rw [hmarked] at hopen'
      cases hopen'

theorem of_update {id : ℕ} (hid : S id) (happ : effects <+: effects₁)
    (hedges : e₁.edges = e.edges)
    (hrows : ∀ x, e₁.rows.lookup x = if x = id then (e.rows.lookup id).map f else e.rows.lookup x) :
    Touches S e effects e₁ effects₁ := by
  refine ⟨fun x => ?_, fun x hx => ?_, fun k => .inl (by rw [hedges]), happ⟩
  · rw [hrows]
    by_cases hx : x = id
    · rw [if_pos hx, hx, Option.isSome_map]
    · rw [if_neg hx]
  · rw [hrows, if_neg]
    rintro rfl
    exact hx hid

theorem resolved (hw : S w) (hopen : e.edges.lookup (u, w) = some false) :
    Touches S e effects (e.resolved u w status reason) effects := by
  refine ⟨fun x => ?_, fun x hx => ?_, fun k => ?_, List.prefix_refl _⟩
  · rw [resolved_lookup]
    by_cases hx : x = w
    · rw [if_pos hx, hx, Option.isSome_map]
    · rw [if_neg hx]
  · rw [resolved_lookup, if_neg]
    rintro rfl
    exact hx hw
  · rw [resolved_edges]
    by_cases hk : k = (u, w)
    · subst hk
      exact .inr ⟨hw, hopen, if_pos rfl⟩
    · exact .inl (if_neg hk)

theorem open_of_open (h : Touches S e effects e₁ effects₁) {k : ℕ × ℕ}
    (hopen : e₁.edges.lookup k = some false) : e.edges.lookup k = some false := by
  rcases h.edge k with heq | ⟨-, hopen', -⟩
  · exact heq.symm.trans hopen
  · exact hopen'

theorem absorbs (h : Touches S e effects e₁ effects₁) (hS : Absorbs S e) : Absorbs S e₁ :=
  fun u w hu hopen => hS u w hu (h.open_of_open hopen)

theorem closed {v : ℕ} (h : Touches S e effects e₁ effects₁) (hc : e.Closed v) : e₁.Closed v :=
  fun u hopen => hc u (h.open_of_open hopen)

end Touches

theorem cascadeOne_touches {succ : NodeRow} (hw : e.edges.lookup (u, w) = some false → S w) :
    Touches S e effects (cascadeOne srv u status reason w succ e queue effects).1
        (cascadeOne srv u status reason w succ e queue effects).2.2 ∧
      ∃ more, (cascadeOne srv u status reason w succ e queue effects).2.1 = queue ++ more ∧
        ∀ it ∈ more, S it.id := by
  have hcases : Cascaded srv u status reason w succ e queue effects _ :=
    cascadeOne_cascaded u status reason w succ
  generalize cascadeOne srv u status reason w succ e queue effects = x at hcases
  cases hcases with
  | skip => exact ⟨.refl S e effects, [], by simp⟩
  | tell hopen => exact ⟨.resolved (hw hopen) hopen, [], by simp⟩
  | enqueue reason' hopen => exact ⟨.resolved (hw hopen) hopen, _, rfl, by simpa using hw hopen⟩
  | release hopen =>
    have htold : Touches S e effects (e.resolved u w status reason) effects :=
      .resolved (hw hopen) hopen
    refine ⟨htold.trans ?_, [], by simp⟩
    exact .of_update (hw hopen) (List.prefix_append _ _) (makeReady_edges _ srv w succ)
      (makeReady_lookup _ srv w succ)

theorem cascadeLoop_touches {succs : List (ℕ × NodeRow)}
    (hS : ∀ x ∈ succs, e.edges.lookup (u, x.1) = some false → S x.1) :
    Touches S e effects (cascadeLoop srv u status reason succs e queue effects).1
        (cascadeLoop srv u status reason succs e queue effects).2.2 ∧
      ∃ more, (cascadeLoop srv u status reason succs e queue effects).2.1 = queue ++ more ∧
        ∀ it ∈ more, S it.id := by
  induction succs generalizing e queue effects with
  | nil => exact ⟨.refl S e effects, [], by simp [cascadeLoop]⟩
  | cons x succs ih =>
    obtain ⟨w, succ⟩ := x
    obtain ⟨hone, more₁, hmore₁, hS₁⟩ :
        Touches S e effects (cascadeOne srv u status reason w succ e queue effects).1 _ ∧ _ :=
      cascadeOne_touches (hS _ (.head _))
    obtain ⟨hrest, more₂, hmore₂, hS₂⟩ :=
      ih fun y hy hopen => hS y (.tail _ hy) (hone.open_of_open hopen)
    refine ⟨hone.trans hrest, more₁ ++ more₂, ?_, List.forall_mem_append.mpr ⟨hS₁, hS₂⟩⟩
    rw [← List.append_assoc, ← hmore₁]
    exact hmore₂

theorem cascadeLoop_appended {succs : List (ℕ × NodeRow)} :
    effects <+: (cascadeLoop srv u status reason succs e queue effects).2.2 :=
  (cascadeLoop_touches (S := fun _ => True) fun _ _ _ => trivial).1.appended

/-- One round of the loop of `terminate`. -/
theorem round_touches {it : TerminateItem} {n : NodeRow} (hS : Absorbs S e) (hit : S it.id)
    (hq : ∀ it ∈ queue, S it.id) :
    Touches S e effects ((e.finish srv it n).2.cascadeSuccessors srv queue it.id it.status
        it.reason (effects ++ [(e.finish srv it n).1])).1
      ((e.finish srv it n).2.cascadeSuccessors srv queue it.id it.status it.reason
        (effects ++ [(e.finish srv it n).1])).2.2 ∧
      ∀ it' ∈ ((e.finish srv it n).2.cascadeSuccessors srv queue it.id it.status it.reason
        (effects ++ [(e.finish srv it n).1])).2.1, S it'.id := by
  have hfin : Touches S e effects (e.finish srv it n).2 (effects ++ [(e.finish srv it n).1]) :=
    .of_update hit (List.prefix_append _ _) (finish_edges e srv it n) (finish_lookup e srv it n)
  obtain ⟨hfan, more, hmore, hmem⟩ :=
    cascadeLoop_touches fun x _ => hfin.absorbs hS it.id x.1 hit
  refine ⟨hfin.trans hfan, ?_⟩
  rw [cascadeSuccessors, hmore]
  exact List.forall_mem_append.mpr ⟨hq, hmem⟩

theorem terminateLoop_touches (fuel : ℕ) (hS : Absorbs S e) (hq : ∀ it ∈ queue, S it.id) :
    Touches S e effects (terminateLoop srv fuel queue e effects).1
      (terminateLoop srv fuel queue e effects).2 := by
  induction fuel generalizing e queue effects with
  | zero => exact .refl S e effects
  | succ fuel ih =>
    cases queue with
    | nil => exact .refl S e effects
    | cons it queue =>
      obtain ⟨hit, htail⟩ := List.forall_mem_cons.mp hq
      rw [terminateLoop]
      cases e.loadForUpdate it.id with
      | none => exact ih hS htail
      | some n =>
        simp only
        split
        · exact ih hS htail
        obtain ⟨hround, hq'⟩ := round_touches hS hit htail
        exact hround.trans (ih (hround.absorbs hS) hq')

theorem terminateLoop_appended {fuel : ℕ} :
    effects <+: (terminateLoop srv fuel queue e effects).2 :=
  (terminateLoop_touches (S := fun _ => True) fuel (fun _ _ _ _ => trivial)
    fun _ _ => trivial).appended

theorem settle_touches {id : ℕ} (hS : Absorbs S e) (hid : S id) (n : NodeRow) :
    Touches S e [] (e.settle srv id n).1 (e.settle srv id n).2 := by
  unfold settle
  split
  · exact .refl S e []
  split
  · exact terminateLoop_touches _ hS (by simpa using hid)
  split
  · split
    · exact .of_update hid List.nil_prefix (makeReady_edges e srv id n) (makeReady_lookup e srv id n)
    · exact .refl S e []
  · split
    · exact .of_update hid List.nil_prefix (makeBlocked_edges e id n) (makeBlocked_lookup e id n)
    · exact .refl S e []

/-- Whatever is settled, no row comes or goes. -/
theorem settle_isSome (id : ℕ) (n : NodeRow) (x : ℕ) :
    ((e.settle srv id n).1.rows.lookup x).isSome = (e.rows.lookup x).isSome :=
  (settle_touches (S := fun _ => True) (fun _ _ _ _ => trivial) trivial n).isSome x

end DagWorker.Postgres.Engine
