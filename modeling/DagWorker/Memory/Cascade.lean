import DagWorker.Memory.Annals

/-!
# The termination cascade

`terminate` drives a node to a final status and works through a queue of the nodes that
follow it.  Every entry after the first comes with an edge that has just been marked, so
the length of the queue and the number of unmarked edges together shrink with every round.
When it returns, all edges from terminated nodes are marked again, and no blocked node has
been left with a decided rule.
-/

namespace DagWorker.Memory.Scope

open Function

variable {it : Item} {s s' : Scope} {status : Status} {reason : Reason} {q : List Item}
  {out es : List Effect} {h : ℕ}
variable {ws : List ℕ}

/-- What a node was created with. -/
def NodeRec.definition (r : NodeRec) :
    String × Int × TriggerRule × RetryPolicy × Bytes × Labels :=
  (r.kind, r.priority, r.trigger, r.retry, r.payload, r.labels)

/-- How a phase may change while no lease is granted or retried. -/
def drifts (p p' : Phase) : Bool :=
  p' = p || p' = .done || (p = .blocked || p = .ready) && (p' = .blocked || p' = .ready)

theorem drifts_trans {p p' p'' : Phase} (h : drifts p p' = true) (h' : drifts p' p'' = true) :
    drifts p p'' = true := by
  cases p <;> cases p' <;> cases p'' <;> simp_all [drifts]

/-- The record of the same node later on. -/
structure Descends (r r' : NodeRec) : Prop where
  id : r'.id = r.id
  alive : r'.alive = r.alive
  definition : NodeRec.definition r' = NodeRec.definition r
  phase : drifts r.phase r'.phase = true

theorem Descends.refl (r : NodeRec) : Descends r r := ⟨rfl, rfl, rfl, by simp [drifts]⟩

theorem Descends.trans {r r₁ r₂ : NodeRec} (h₁ : Descends r r₁) (h₂ : Descends r₁ r₂) :
    Descends r r₂ :=
  ⟨h₂.id.trans h₁.id, h₂.alive.trans h₁.alive, h₂.definition.trans h₁.definition,
    drifts_trans h₁.phase h₂.phase⟩

/-- The index, the outgoing edges and the configuration. -/
def Graph.frame (g : Graph) : GoMap NodeID ℕ × (ℕ → List ℕ) × ScopeConfig × Bool :=
  (g.index, g.succ, g.cfg, g.isSealed)

/-- What a cascade leaves alone: identities, edges, and the outcomes of the nodes
that had terminated before. -/
structure Cascades (s s' : Scope) : Prop where
  frame : s'.graph.frame = s.graph.frame
  recs : ∀ k, Descends (s.recs k) (s'.recs k)
  done : ∀ k, (s.recs k).phase = .done → (s'.recs k).phase = .done ∧
    (s'.recs k).status = (s.recs k).status ∧ (s'.recs k).reason = (s.recs k).reason

namespace Cascades

variable {s s' s₁ s₂ : Scope} {h : ℕ} {r : NodeRec}

theorem index (hc : Cascades s s') : s'.index = s.index := congrArg Prod.fst hc.frame

theorem succ (hc : Cascades s s') : s'.succ = s.succ :=
  congrArg (fun x => x.2.1) hc.frame

theorem id (hc : Cascades s s') (k : ℕ) : (s'.recs k).id = (s.recs k).id := (hc.recs k).id

theorem alive (hc : Cascades s s') (k : ℕ) : (s'.recs k).alive = (s.recs k).alive :=
  (hc.recs k).alive

theorem refl (s : Scope) : Cascades s s := ⟨rfl, fun _ => .refl _, fun _ h => ⟨h, rfl, rfl⟩⟩

theorem trans (h₁ : Cascades s s₁) (h₂ : Cascades s₁ s₂) : Cascades s s₂ := by
  refine ⟨h₂.frame.trans h₁.frame, fun k => (h₁.recs k).trans (h₂.recs k), fun k hk => ?_⟩
  obtain ⟨hd, hs, hr⟩ := h₁.done k hk
  obtain ⟨hd', hs', hr'⟩ := h₂.done k hd
  exact ⟨hd', hs'.trans hs, hr'.trans hr⟩

theorem of_update (hframe : s'.graph.frame = s.graph.frame)
    (hrecs : s'.recs = update s.recs h r) (hd : Descends (s.recs h) r)
    (hdone : (s.recs h).phase = .done → r.phase = .done ∧ r.status = (s.recs h).status ∧
      r.reason = (s.recs h).reason) : Cascades s s' := by
  refine ⟨hframe, fun k => ?_, fun k hk => ?_⟩ <;> rw [hrecs] <;> by_cases hkh : k = h
  · rwa [hkh, update_self]
  · rw [update_of_ne hkh]
    exact .refl _
  · subst hkh
    simpa using hdone hk
  · rw [update_of_ne hkh]
    exact ⟨hk, rfl, rfl⟩

theorem event (s : Scope) (h : ℕ) (kind : EventKind) (fromStatus : Status) (t : Int) :
    Cascades s (s.recordAt h kind fromStatus t).2 :=
  of_update (congrArg Graph.frame (recordAt_graph s h kind fromStatus t))
    (recordAt_recs s h kind fromStatus t) ⟨rfl, rfl, rfl, by simp [drifts]⟩
    fun hd => ⟨hd, rfl, rfl⟩

theorem makeReady (hp : (s.recs h).phase = .blocked) : Cascades s (s.makeReady h) :=
  of_update (congrArg Graph.frame (makeReady_graph s h)) (makeReady_recs s h)
    ⟨rfl, rfl, rfl, by simp [drifts, hp]⟩ (by simp [hp])

theorem finish (now : Int) (hopen : (s.recs it.h).phase ≠ .done) :
    Cascades s (s.finish it now) :=
  of_update (congrArg Graph.frame (finish_graph s it now)) (finish_recs s it now)
    ⟨rfl, rfl, rfl, by simp [drifts, finishedRec]⟩ fun hd => absurd hd hopen

theorem mark (s : Scope) (w : ℕ) (es : List PredEdge) (o : DepCounts.Outcome) :
    Cascades s (s.marked w es o) :=
  of_update rfl (marked_recs s w es o) ⟨rfl, rfl, rfl, by simp [drifts]⟩
    fun hd => ⟨hd, rfl, rfl⟩

/-- A claimable node is so still, or no longer held. -/
theorem ready_or_met {v : ℕ} (hc : Cascades s s') (hready : (s.recs v).phase = .ready) :
    (s'.recs v).phase = .ready ∨ RuleMet (s'.recs v) := by
  have hdrift := (hc.recs v).phase
  cases hp : (s'.recs v).phase <;> simp_all [drifts, RuleMet, held]

end Cascades

/-! ## Unmarked edges -/

theorem openEdges_eq_sum (s : Scope) :
    s.openEdges = ∑ v ∈ Finset.range s.size, (s.pred v).countP fun e => e.satisfied = false :=
  Count.sum_map_range _ _

theorem openEdges_congr (hgraph : s'.graph = s.graph) :
    s'.openEdges = s.openEdges := by
  simp only [openEdges, show s'.size = s.size from congrArg Graph.size hgraph,
    show s'.pred = s.pred from congrArg Graph.pred hgraph]

theorem flipFirst_eq_none {u : ℕ} {l : List PredEdge} (h : flipFirst u l = none) :
    ∀ e ∈ l, e.source = u → e.satisfied = true := by
  induction l with
  | nil => simp
  | cons a l ih =>
    rw [flipFirst] at h
    split at h
    · simp at h
    rename_i ha
    intro e he hsrc
    rcases List.mem_cons.mp he with rfl | he
    · by_contra hsat
      exact ha ⟨hsrc, by simpa using hsat⟩
    · exact ih (by simpa using h) e he hsrc

/-- Edges from `u` to a node still to be visited. -/
def Pending (u : ℕ) (ws : List ℕ) (a v : ℕ) : Prop := a = u ∧ v ∈ ws

section Mark

variable {s : Scope} {u w : ℕ} {ws : List ℕ} {es : List PredEdge}

theorem FlaggedBut.mark_none (hf : s.FlaggedBut (Pending u (w :: ws)))
    (hnone : flipFirst u (s.pred w) = none) : s.FlaggedBut (Pending u ws) := by
  intro v e he hdone
  rcases hf v e he hdone with hsat | ⟨hsrc, hmem⟩
  · exact .inl hsat
  · rcases List.mem_cons.mp hmem with rfl | hmem
    · exact .inl (flipFirst_eq_none hnone e he hsrc)
    · exact .inr ⟨hsrc, hmem⟩

theorem alive_of_flip (hm : s.Mirrored) (hsome : flipFirst u (s.pred w) = some es) :
    s.Alive w := by
  by_contra hw
  rw [hm.dead_pred w hw] at hsome
  simp [flipFirst] at hsome

theorem openEdges_mark (hx : s.Indexed) (hm : s.Mirrored)
    (hsome : flipFirst u (s.pred w) = some es) (o : DepCounts.Outcome) :
    (s.marked w es o).openEdges + 1 = s.openEdges := by
  have hw := hx.lt_size w (alive_of_flip hm hsome)
  obtain ⟨l₁, l₂, hold, rfl⟩ := flipFirst_eq_some hsome
  have hchange := Count.sum_change
    (f := fun v => (s.pred v).countP fun e => e.satisfied = false)
    (g := fun v => ((s.marked w (l₁ ++ { source := u, satisfied := true } :: l₂) o).pred
      v).countP fun e => e.satisfied = false) hw fun k hk => by
        rw [marked_pred, update_of_ne hk]
  rw [openEdges_eq_sum, openEdges_eq_sum]
  simp only [marked_pred, marked_size, update_self, hold, List.countP_append,
    List.countP_cons] at hchange ⊢
  simp only [decide_true, ite_true, reduceCtorEq, decide_false, Bool.false_eq_true, ite_false]
    at hchange
  omega

variable (hi : s.Inv) (hsome : flipFirst u (s.pred w) = some es) (o : DepCounts.Outcome)
include hi hsome

theorem FlaggedBut.mark_some (hf : s.FlaggedBut (Pending u (w :: ws))) :
    (s.marked w es o).FlaggedBut (Pending u ws) := by
  obtain ⟨l₁, l₂, hold, rfl⟩ := flipFirst_eq_some hsome
  have hphase := Tallied.phase_deps (marked_recs s w
    (l₁ ++ { source := u, satisfied := true } :: l₂) o)
  -- the marked edge is the only one from `u`
  have hnd := hi.mirrored.sources_nodup w
  rw [sources, hold, List.map_append, List.map_cons] at hnd
  have hother : ∀ e ∈ l₁ ++ l₂, e.source ≠ u := by
    intro e he heq
    have hmem : u ∈ l₁.map PredEdge.source ++ l₂.map PredEdge.source := by
      rw [← List.map_append, ← heq]
      exact List.mem_map_of_mem he
    exact (List.nodup_cons.mp (List.nodup_middle.mp hnd)).1 hmem
  intro v e he hdone
  rw [hphase] at hdone
  by_cases hv : v = w
  · subst hv
    rw [marked_pred, update_self, List.perm_middle.mem_iff, List.mem_cons] at he
    rcases he with rfl | he
    · exact .inl rfl
    · refine (hf v e ?_ hdone).imp_right fun hp => absurd hp.1 (hother e he)
      rw [hold, List.perm_middle.mem_iff]
      exact .tail _ he
  · rw [marked_pred, update_of_ne hv] at he
    rcases hf v e he hdone with hsat | ⟨hsrc, hmem⟩
    · exact .inl hsat
    · exact .inr ⟨hsrc, (List.mem_cons.mp hmem).resolve_left hv⟩

/-- A satisfied rule other than `always` has no edge left to mark. -/
theorem ruleMet_mark (v : ℕ) (hv : RuleMet (s.recs v)) :
    RuleMet ((s.marked w es o).recs v) := by
  refine forall_update (marked_recs s w es o) (fun hmet halive hheld => ?_) v hv
  have hready := hmet halive hheld
  have hpos : (s.recs w).deps.unsatisfied ≠ 0 := by
    obtain ⟨l₁, l₂, hold, -⟩ := flipFirst_eq_some hsome
    have hcount := hi.tallied.count_eq w .unsatisfied
    rw [tally, hold, List.countP_append, List.countP_cons] at hcount
    simp only [DepCounts.count, edgeOutcome_false, decide_true, ite_true] at hcount
    omega
  have halways : (s.recs w).trigger = .always := by
    by_contra hne
    exact hpos (DepCounts.unsatisfied_eq_zero_of_ready hready hne)
  simp [DepCounts.ready, halways]

omit hi hsome in
/-- The rules of the other nodes are as they were. -/
theorem ruleOpen_mark {v : ℕ} (hvw : v ≠ w) (hv : RuleOpen (s.recs v)) :
    RuleOpen ((s.marked w es o).recs v) := by
  rwa [marked_recs, update_of_ne hvw]

end Mark

/-! ## The fan-out of one node -/

def queuedHandles (queue : List Item) : Set ℕ := { k | ∃ it ∈ queue, it.h = k }

theorem queuedHandles_append (q q' : List Item) :
    queuedHandles (q ++ q') = queuedHandles q ∪ queuedHandles q' := by
  ext k
  simp only [queuedHandles, List.mem_append, or_and_right, exists_or]
  rfl

/-- One part of the fan-out of `u`, from the state `s` with the nodes `ws` to
visit and the terminations `queue` pending, to `s'` with `ws'` and `queue'`. -/
structure Fans (u : ℕ) (s : Scope) (ws : List ℕ) (queue : List Item) (es : List Effect)
    (s' : Scope) (ws' : List ℕ) (queue' : List Item) : Prop where
  path : Path s es s'
  cascades : Cascades s s'
  flagged : s.FlaggedBut (Pending u ws) → s'.FlaggedBut (Pending u ws')
  settled : ∀ v, RuleOpen (s.recs v) ∨ v ∈ queuedHandles queue →
    RuleOpen (s'.recs v) ∨ v ∈ queuedHandles queue'
  heldOK : ∀ v, RuleMet (s.recs v) → RuleMet (s'.recs v)
  measure : queue'.length + s'.openEdges ≤ queue.length + s.openEdges
  terminal : (∀ it ∈ queue, it.status.terminal = true) → ∀ it ∈ queue', it.status.terminal = true
  grows : ∀ it ∈ queue, it ∈ queue'
  apart : ∀ v, v ∉ ws → v ∉ queuedHandles queue →
    s'.recs v = s.recs v ∧ v ∉ ws' ∧ v ∉ queuedHandles queue'

namespace Fans

variable {u : ℕ} {s s₁ s₂ : Scope} {ws ws₁ ws₂ : List ℕ} {q q₁ q₂ : List Item}
  {es es' : List Effect}

theorem refl (u : ℕ) (s : Scope) (ws : List ℕ) (q : List Item) : Fans u s ws q [] s ws q :=
  ⟨Path.nil, Cascades.refl s, fun h => h, fun _ h => h, fun _ h => h, le_refl _, fun h => h,
    fun _ h => h, fun _ hw hq => ⟨rfl, hw, hq⟩⟩

theorem trans (h₁ : Fans u s ws q es s₁ ws₁ q₁) (h₂ : Fans u s₁ ws₁ q₁ es' s₂ ws₂ q₂) :
    Fans u s ws q (es ++ es') s₂ ws₂ q₂ := by
  refine ⟨h₁.path.trans h₂.path, h₁.cascades.trans h₂.cascades,
    fun h => h₂.flagged (h₁.flagged h), fun v h => h₂.settled v (h₁.settled v h),
    fun v h => h₂.heldOK v (h₁.heldOK v h), h₂.measure.trans h₁.measure,
    fun h => h₂.terminal (h₁.terminal h), fun it h => h₂.grows it (h₁.grows it h),
    fun v hw hq => ?_⟩
  obtain ⟨heq, hw₁, hq₁⟩ := h₁.apart v hw hq
  obtain ⟨heq', hrest⟩ := h₂.apart v hw₁ hq₁
  exact ⟨heq'.trans heq, hrest⟩

end Fans

namespace Fans

variable {u w : ℕ} {s : Scope} {ws : List ℕ} {q q' : List Item} {es : List PredEdge}

theorem skip (hnone : flipFirst u (s.pred w) = none) : Fans u s (w :: ws) q [] s ws q :=
  { refl u s ws q with
    flagged := fun hf => hf.mark_none hnone
    apart := fun _ hw hq => ⟨rfl, List.not_mem_of_not_mem_cons hw, hq⟩ }

variable {o : DepCounts.Outcome} (hi : s.Inv) (hu : (s.recs u).phase = .done)
  (hsome : flipFirst u (s.pred w) = some es)
  (ho : o = .ofTerminal (s.recs u).status (s.recs u).reason)
include hi hu hsome ho

omit hi in
theorem markPath : Path s [] (s.marked w es o) := by
  have hstep := Step.mark w u hu
  rw [markSatisfied_of_some s _ _ hsome, ← ho] at hstep
  exact Path.single hstep

/-- An edge to `w` was marked, and `w` got the record `r` or its termination was queued. -/
theorem visit {s' : Scope} {r : NodeRec} {ef : List Effect} (next : Option Item)
    (hq : q' = q ++ next.toList) (hpath : Path (s.marked w es o) ef s')
    (hc : Cascades (s.marked w es o) s') (hgraph : s'.graph = (s.marked w es o).graph)
    (hrecs : s'.recs = update (s.marked w es o).recs w r)
    (hdone : r.phase = .done → (s.recs w).phase = .done)
    (hmet : RuleMet ((s.marked w es o).recs w) → RuleMet r) (hw : next = none → RuleOpen r)
    (hnext : ∀ it ∈ next, it.h = w ∧ it.status.terminal = true) :
    Fans u s (w :: ws) q ef s' ws q' := by
  subst hq
  refine ⟨(markPath hu hsome ho).trans hpath, (Cascades.mark s w es o).trans hc, fun hf => ?_,
    fun v hv => ?_, fun v hv => forall_update hrecs hmet v (ruleMet_mark hi hsome o v hv), ?_,
    fun h it hmem => ?_, fun it h => List.mem_append_left _ h, fun v hv hq => ?_⟩
  · refine (hf.mark_some hi hsome o).update_rec (congrArg Graph.pred hgraph) hrecs ?_
    simpa using hdone
  · rw [queuedHandles_append]
    by_cases hvw : v = w
    · cases next with
      | none =>
        rw [hrecs, hvw, update_self]
        exact .inl (hw rfl)
      | some it => exact .inr (.inr ⟨it, .head _, hvw ▸ (hnext it rfl).1⟩)
    · rw [hrecs, update_of_ne hvw]
      exact hv.imp (ruleOpen_mark o hvw) .inl
  · have hmark := openEdges_mark hi.indexed hi.mirrored hsome o
    have hlen : next.toList.length ≤ 1 := by cases next <;> simp
    rw [openEdges_congr hgraph, List.length_append]
    omega
  · rcases List.mem_append.mp hmem with hmem | hmem
    · exact h it hmem
    · exact (hnext it (Option.mem_toList.mp hmem)).2
  · have hne := List.ne_of_not_mem_cons hv
    rw [hrecs, update_of_ne hne, marked_recs, update_of_ne hne, queuedHandles_append]
    refine ⟨rfl, List.not_mem_of_not_mem_cons hv, ?_⟩
    rintro (hmem | ⟨it, hmem, rfl⟩)
    · exact hq hmem
    · exact hne (hnext it (Option.mem_toList.mp hmem)).1

/-- An edge was marked and the target stays, or its own termination is queued. -/
theorem markOnly (next : Option Item) (hq : q' = q ++ next.toList)
    (hw : next = none → RuleOpen ((s.marked w es o).recs w))
    (hnext : ∀ it ∈ next, it.h = w ∧ it.status.terminal = true) :
    Fans u s (w :: ws) q [] (s.marked w es o) ws q' :=
  visit hi hu hsome ho next hq Path.nil (.refl _) rfl (update_eq_self ..).symm (by simp)
    (fun h => h) hw hnext

/-- An edge was marked and the target became claimable. -/
theorem release (t : Int) :
    let s₁ := s.marked w es o
    (s₁.recs w).phase = .blocked → (s₁.recs w).deps.ready (s₁.recs w).trigger = true →
    Fans u s (w :: ws) q [((s₁.makeReady w).recordAt w .ready .new t).1]
      ((s₁.makeReady w).recordAt w .ready .new t).2 ws q := by
  intro s₁ hblocked hready
  have hw : s₁.Alive w := by
    have := alive_of_flip hi.mirrored hsome
    simpa [s₁, Alive] using this
  have hw₂ : (s₁.makeReady w).Alive w := by simpa [Alive, makeReady_recs] using hw
  have hev := (Evolves.makeReady hw hblocked hready).trans
    (Evolves.event .ready .new t hw₂)
  refine visit hi hu hsome ho none (by simp) hev.path
    ((Cascades.makeReady hblocked).trans (Cascades.event _ _ _ _ _))
    ((recordAt_graph _ _ _ _ _).trans (makeReady_graph s₁ w)) (r := { s₁.recs w with
      phase := .ready, status := .new, seq := (s₁.recs w).seq + 1 }) ?_ (by simp) ?_ ?_ (by simp)
  · simp [recordAt_recs, makeReady_recs, s₁]
  · exact fun _ _ _ => hready
  · simp [RuleOpen]

end Fans

theorem fanOut_fans {u : ℕ} (hi : s.Inv) (hu : (s.recs u).phase = .done)
    (hstatus : (s.recs u).status = status) (hreason : (s.recs u).reason = reason) :
    (fanOut u status reason ws s q out).All fun r =>
      ∃ es, r.2.2 = out ++ es ∧ Fans u s ws q es r.1 [] r.2.1 ∧ Annals s es r.1 := by
  induction ws generalizing s q out with
  | nil => exact ⟨[], by simp, Fans.refl u s [] q, .nil⟩
  | cons w ws ih =>
    -- after one visit, the rest of the list follows from the induction hypothesis
    have hrest : ∀ {s₁ : Scope} {q₁ : List Item} {es₁ : List Effect},
        Fans u s (w :: ws) q es₁ s₁ ws q₁ → Annals s es₁ s₁ →
        (fanOut u status reason ws s₁ q₁ (out ++ es₁)).All fun r =>
          ∃ es, r.2.2 = out ++ es ∧ Fans u s (w :: ws) q es r.1 [] r.2.1 ∧ Annals s es r.1 := by
      intro s₁ q₁ es₁ hfan ha
      obtain ⟨hd, hs, hr⟩ := hfan.cascades.done u hu
      refine (ih (hi.path hfan.path) hd (hs.trans hstatus) (hr.trans hreason)).mono ?_
      rintro r ⟨es, hout, hfan', ha'⟩
      exact ⟨es₁ ++ es, by rw [hout, List.append_assoc], hfan.trans hfan', ha.trans ha'⟩
    have hquiet : ∀ {s₁ : Scope} {q₁ : List Item},
        Fans u s (w :: ws) q [] s₁ ws q₁ → Silent s s₁ →
        (fanOut u status reason ws s₁ q₁ out).All fun r =>
          ∃ es, r.2.2 = out ++ es ∧ Fans u s (w :: ws) q es r.1 [] r.2.1 ∧ Annals s es r.1 := by
      intro s₁ q₁ hfan hs
      simpa using hrest hfan (.of_silent hs)
    rw [fanOut]
    cases hf : flipFirst u (s.pred w) with
    | none =>
      rw [markSatisfied_of_none s _ _ hf]
      exact hquiet (Fans.skip hf) (Silent.of_recs rfl)
    | some es =>
      have hmark : Silent s (s.marked w es (.ofTerminal status reason)) := Silent.of_mark s w es _
      have ho : DepCounts.Outcome.ofTerminal status reason =
          .ofTerminal (s.recs u).status (s.recs u).reason := by rw [hstatus, hreason]
      rw [markSatisfied_of_some s _ _ hf]
      refine DepCounts.told_cases (C := Prog.All _) ?_ ?_ ?_
      · intro hunsat hwait
        exact hquiet (Fans.markOnly hi hu hf ho none (by simp)
          (fun _ _ hb => ⟨hwait hb, hunsat (.inl hb)⟩) (by simp)) hmark
      · intro _ _
        exact hquiet (Fans.markOnly hi hu hf ho (some _) rfl nofun fun _ h => by
          cases h
          exact ⟨rfl, rfl⟩) hmark
      · intro hblocked _ hready t
        have hw : (s.marked w es (.ofTerminal status reason)).Alive w := by
          simpa [Alive] using alive_of_flip hi.mirrored hf
        have hdeed := Deed.ready (hi.path (Fans.markPath hu hf ho)) hw hblocked t
        exact hrest (Fans.release hi hu hf ho t hblocked hready)
          ((Annals.of_silent hmark).trans (.of_deed hdeed))

/-! ## The queue -/

/-- The queue of terminations has been worked through. -/
structure Drains (s : Scope) (queue : List Item) (es : List Effect) (s' : Scope) : Prop where
  path : Path s es s'
  cascades : Cascades s s'
  flagged : s.Flagged → s'.Flagged
  settled : ∀ v, RuleOpen (s.recs v) ∨ v ∈ queuedHandles queue → RuleOpen (s'.recs v)
  heldOK : ∀ v, RuleMet (s.recs v) → RuleMet (s'.recs v)
  finished : ∀ it ∈ queue, s.Alive it.h → (s'.recs it.h).phase = .done
  apart : ∀ v, (∀ u, v ∉ s.succ u) → v ∉ queuedHandles queue → s'.recs v = s.recs v

theorem queuedHandles_cons (it : Item) (q : List Item) :
    queuedHandles (it :: q) = insert it.h (queuedHandles q) := by
  ext k
  simp [queuedHandles, eq_comm]

theorem Drains.nil (s : Scope) : Drains s [] [] s := by
  refine ⟨Path.nil, Cascades.refl s, fun h => h, fun v h => ?_, fun _ h => h, by simp,
    fun _ _ _ => rfl⟩
  simpa [queuedHandles] using h

/-- The head of the queue had terminated, or been deleted, before its turn. -/
theorem Drains.skip
    (hskip : (s.recs it.h).alive = false ∨ (s.recs it.h).phase = .done)
    (hd : Drains s q es s') : Drains s (it :: q) es s' where
  path := hd.path
  cascades := hd.cascades
  flagged := hd.flagged
  settled := by
    intro v hv
    rw [queuedHandles_cons, Set.mem_insert_iff] at hv
    refine hd.settled v ?_
    rcases hv with hv | rfl | hv
    · exact .inl hv
    · rcases hskip with hdead | hdone
      · exact .inl (by simp [RuleOpen, hdead])
      · exact .inl (by simp [RuleOpen, hdone])
    · exact .inr hv
  heldOK := hd.heldOK
  finished := by
    intro it' hmem halive
    rcases List.mem_cons.mp hmem with rfl | hmem
    · rcases hskip with hdead | hdone
      · rw [Alive, hdead] at halive
        cases halive
      · exact (hd.cascades.done _ hdone).1
    · exact hd.finished it' hmem halive
  apart := by
    intro v hsource hv
    rw [queuedHandles_cons, Set.mem_insert_iff, not_or] at hv
    exact hd.apart v hsource hv.2

theorem Drains.finish {s₂ : Scope} {q' : List Item} {es' : List Effect}
    (hi : s.Inv) (now t : Int) (hh : s.Alive it.h) (hopen : (s.recs it.h).phase ≠ .done)
    (hst : it.status.terminal = true) :
    let s₁ := ((s.finish it now).recordAt it.h .transition (s.recs it.h).status t).2
    let ef := ((s.finish it now).recordAt it.h .transition (s.recs it.h).status t).1
    Fans it.h s₁ (s₁.succ it.h) q es s₂ [] q' → Drains s₂ q' es' s' →
    Drains s (it :: q) (ef :: (es ++ es')) s' := by
  intro s₁ ef hfan hdrain
  have hrecs₁ : s₁.recs = update s.recs it.h
      { finishedRec (s.recs it.h) it now with seq := (s.recs it.h).seq + 1 } := by
    simp only [s₁, recordAt_recs, finish_recs, update_self, update_idem]
    rfl
  have hgraph₁ : s₁.graph = s.graph :=
    (recordAt_graph _ _ _ _ _).trans (finish_graph s it now)
  have hpath₁ : Path s [ef] s₁ :=
    (Path.single (Step.finish it now hh hopen hst)).trans
      (Path.event it.h .transition (s.recs it.h).status t
        (by simpa [finish_recs, finishedRec] using hh))
  have hcasc₁ : Cascades s s₁ :=
    (Cascades.finish now hopen).trans (Cascades.event _ _ _ _ _)
  have hdone₁ : (s₁.recs it.h).phase = .done := by
    rw [hrecs₁, update_self]
    rfl
  refine ⟨hpath₁.trans (hfan.path.trans hdrain.path),
    hcasc₁.trans (hfan.cascades.trans hdrain.cascades), ?_, ?_, ?_, ?_, ?_⟩
  · intro hf
    refine hdrain.flagged (flaggedBut_false_iff.mp ?_)
    have hpend : s₁.FlaggedBut (Pending it.h (s₁.succ it.h)) := by
      intro v e he hdone
      rw [show s₁.pred = s.pred from congrArg Graph.pred hgraph₁] at he
      by_cases hsrc : e.source = it.h
      · refine .inr ⟨hsrc, ?_⟩
        rw [show s₁.succ = s.succ from congrArg Graph.succ hgraph₁, ← hsrc]
        exact (hi.mirrored.mem_succ _ _).mpr (List.mem_map.mpr ⟨e, he, rfl⟩)
      · rw [hrecs₁, update_of_ne hsrc] at hdone
        exact .inl (hf v e he hdone)
    intro v e he hdone
    rcases hfan.flagged hpend v e he hdone with hsat | ⟨-, hmem⟩
    · exact .inl hsat
    · cases hmem
  · intro v hv
    refine hdrain.settled v (hfan.settled v ?_)
    rw [queuedHandles_cons, Set.mem_insert_iff] at hv
    rcases hv with hv | rfl | hv
    · exact .inl (forall_update hrecs₁ (by simp [RuleOpen, finishedRec]) v hv)
    · exact .inl (by simp [RuleOpen, hdone₁])
    · exact .inr hv
  · intro v hv
    refine hdrain.heldOK v (hfan.heldOK v (forall_update hrecs₁ ?_ v hv))
    simp [RuleMet, finishedRec, held]
  · intro it' hmem halive
    rcases List.mem_cons.mp hmem with rfl | hmem
    · exact ((hfan.cascades.trans hdrain.cascades).done _ hdone₁).1
    · refine hdrain.finished it' (hfan.grows it' hmem) ?_
      rw [Alive, hfan.cascades.alive, hcasc₁.alive]
      exact halive
  · intro v hsource hv
    rw [queuedHandles_cons, Set.mem_insert_iff, not_or] at hv
    have hsource₁ : ∀ u, v ∉ s₁.succ u := by rwa [hcasc₁.succ]
    obtain ⟨heq, -, hq⟩ := hfan.apart v (hsource₁ _) hv.2
    rw [hdrain.apart v (by rwa [hfan.cascades.succ]) hq, heq, hrecs₁, update_of_ne hv.1]

/-- The loop works through its whole queue, whatever the clock says. -/
theorem terminateLoop_drains {fuel : ℕ}
    (hi : s.Inv) (hterm : ∀ it ∈ q, it.status.terminal = true)
    (hfuel : q.length + s.openEdges ≤ fuel) :
    (terminateLoop fuel q s out).All fun r =>
      ∃ es, r.2 = out ++ es ∧ Drains s q es r.1 ∧ Annals s es r.1 := by
  induction fuel generalizing q s out with
  | zero =>
    have hq : q = [] := List.eq_nil_of_length_eq_zero (by omega)
    subst hq
    exact ⟨[], by simp, Drains.nil s, .nil⟩
  | succ fuel ih =>
    cases q with
    | nil => exact ⟨[], by simp, Drains.nil s, .nil⟩
    | cons it q =>
      have hterm' : ∀ it' ∈ q, it'.status.terminal = true := fun it' h =>
        hterm it' (List.mem_cons_of_mem it h)
      rw [List.length_cons] at hfuel
      rw [terminateLoop]
      split
      · rename_i hskip
        refine (ih hi hterm' (by omega)).mono ?_
        rintro r ⟨es, hout, hd, ha⟩
        exact ⟨es, hout, hd.skip hskip, ha⟩
      · rename_i hgo
        obtain ⟨hh, hopen⟩ := not_or.mp hgo
        have hh : s.Alive it.h := by simpa using hh
        have hst := hterm it (.head _)
        simp only [record, Prog.all_bind, Prog.all_getNow, Prog.pure_eq_ret, Prog.all_ret]
        intro now t
        have hh₁ : (s.finish it now).Alive it.h := by
          rw [Alive, finish_recs, update_self]
          exact hh
        have hi₁ : ((s.finish it now).recordAt it.h .transition
            (s.recs it.h).status t).2.Inv :=
          (hi.finish it now hh hopen hst).record .transition (s.recs it.h).status t hh₁
        have hrec : ((s.finish it now).recordAt it.h .transition
            (s.recs it.h).status t).2.recs it.h =
            { finishedRec (s.recs it.h) it now with seq := (s.recs it.h).seq + 1 } := by
          simp only [recordAt_recs, finish_recs, update_self]
          rfl
        refine (fanOut_fans hi₁ (by rw [hrec]; rfl) (by rw [hrec]; rfl)
          (by rw [hrec]; rfl)).mono ?_
        rintro ⟨s₂, q', out'⟩ ⟨es, hout, hfan, ha⟩
        have hopen₁ := openEdges_congr ((recordAt_graph (s.finish it now) it.h .transition
          (s.recs it.h).status t).trans (finish_graph s it now))
        have hmeasure := hfan.measure
        refine (ih (hi₁.path hfan.path) (hfan.terminal hterm') (by omega)).mono ?_
        rintro ⟨s', out''⟩ ⟨es', hout', hd, ha'⟩
        refine ⟨_, ?_, Drains.finish hi now t hh hopen hst hfan hd,
          (Annals.of_deed (Deed.finish hh hopen hst now t)).trans (ha.trans ha')⟩
        rw [hout', hout]
        simp

/-! ## Termination and settlement of listed nodes -/

/-- A node that lives and whose rule can be satisfied. -/
def Viable (r : NodeRec) : Prop := r.phase ≠ .done ∧ r.deps.unsatisfiable r.trigger = false

/-- The rules of the nodes `hs` have been applied. -/
structure Settles (s : Scope) (hs : Set ℕ) (es : List Effect) (s' : Scope) : Prop where
  path : Path s es s'
  cascades : Cascades s s'
  flagged : s.Flagged → s'.Flagged
  settled : ∀ v, RuleOpen (s.recs v) ∨ v ∈ hs → RuleOpen (s'.recs v)
  heldOK : ∀ v, RuleMet (s.recs v) ∨ v ∈ hs ∧ (s.recs v).phase = .ready → RuleMet (s'.recs v)
  viable : ∀ v, (∀ u, v ∉ s.succ u) → Viable (s.recs v) → Viable (s'.recs v)

namespace Settles

variable {s s₁ s₂ : Scope} {hs hs' : Set ℕ} {es es' : List Effect}

theorem refl (s : Scope) : Settles s ∅ [] s :=
  ⟨Path.nil, Cascades.refl s, fun h => h, fun v h => by simpa using h,
    fun v h => by simpa using h, fun _ _ h => h⟩

theorem trans (h₁ : Settles s hs es s₁) (h₂ : Settles s₁ hs' es' s₂) :
    Settles s (hs ∪ hs') (es ++ es') s₂ := by
  refine ⟨h₁.path.trans h₂.path, h₁.cascades.trans h₂.cascades,
    fun h => h₂.flagged (h₁.flagged h), fun v hv => h₂.settled v ?_,
    fun v hv => h₂.heldOK v ?_,
    fun v hv h => h₂.viable v (by rwa [h₁.cascades.succ]) (h₁.viable v hv h)⟩
  · rcases hv with hv | hv | hv
    · exact .inl (h₁.settled v (.inl hv))
    · exact .inl (h₁.settled v (.inr hv))
    · exact .inr hv
  · rcases hv with hv | ⟨hv | hv, hready⟩
    · exact .inl (h₁.heldOK v (.inl hv))
    · exact .inl (h₁.heldOK v (.inr ⟨hv, hready⟩))
    · exact (h₁.cascades.ready_or_met hready).symm.imp_right fun hp => ⟨hv, hp⟩

end Settles

theorem Drains.tale (h : Drains s q es s') (ha : Annals s es s') : Tale s es s' :=
  ⟨⟨⟨h.flagged, fun v hv => h.settled v (.inl hv), h.heldOK⟩, h.path⟩, ha⟩

/-- A terminated node needs no settling. -/
theorem Drains.settles (h : Drains s [it] es s') (halive : s.Alive it.h)
    (hlost : (s.recs it.h).deps.unsatisfiable (s.recs it.h).trigger = true) :
    Settles s {it.h} es s' := by
  have hq : queuedHandles [it] = {it.h} := by
    simp [queuedHandles, eq_comm]
  refine ⟨h.path, h.cascades, h.flagged, fun v hv => h.settled v (hq ▸ hv), fun v hv => ?_,
    fun v hsource hv => ?_⟩
  · rcases hv with hv | ⟨rfl, -⟩
    · exact h.heldOK v hv
    · simp [RuleMet, h.finished it (.head _) halive, held]
  rw [h.apart v hsource fun hmem => ?_]
  · exact hv
  · rw [hq, Set.mem_singleton_iff] at hmem
    simp [Viable, hmem, hlost] at hv

/-- `terminate` drives the node to a final status and works through everything
that follows from it. -/
theorem terminate_drains
    {msg : String} (hi : s.Inv) (hst : status.terminal = true) :
    (s.terminate h status reason msg out).All fun r =>
      ∃ es, r.2 = out ++ es ∧ Drains s [⟨h, status, reason, msg⟩] es r.1 ∧ Annals s es r.1 :=
  terminateLoop_drains hi (by simp [hst]) (by simp; omega)

/-- A node whose rule has been applied without a change. -/
theorem Settles.idle
    (hblocked : (s.recs h).phase = .blocked → Undecided (s.recs h))
    (hready : (s.recs h).phase = .ready → (s.recs h).deps.ready (s.recs h).trigger = true) :
    Settles s {h} [] s := by
  refine ⟨Path.nil, Cascades.refl s, fun hf => hf, fun v hv => ?_, fun v hv => ?_,
    fun _ _ h => h⟩
  · rcases hv with hv | rfl
    · exact hv
    · exact fun _ hp => hblocked hp
  · rcases hv with hv | ⟨rfl, hp⟩
    · exact hv
    · exact fun _ _ => hready hp

theorem settle_settles (hi : s.Inv)
    (hh : s.Alive h) :
    (s.settle h out).All fun r =>
      ∃ es, r.2 = out ++ es ∧ Settles s {h} es r.1 ∧ Annals s es r.1 := by
  have hidle : ∀ hs : Settles s {h} [] s,
      ∃ es, out = out ++ es ∧ Settles s {h} es s ∧ Annals s es s :=
    fun hs => ⟨[], by simp, hs, .nil⟩
  rw [settle]
  dsimp only
  refine DepCounts.settle_cases (C := Prog.All _) ?_ ?_ ?_ ?_
  · intro hunsat hwait hready
    exact hidle (Settles.idle (fun hb => ⟨hwait hb, hunsat (.inl hb)⟩) hready)
  · intro _ hlost
    refine (terminate_drains hi rfl).mono ?_
    rintro r ⟨es, hout, hd, ha⟩
    exact ⟨es, hout, hd.settles hh hlost, ha⟩
  · intro hp _ hready t
    have hh₁ : (s.makeReady h).Alive h := by simpa [Alive, makeReady_recs] using hh
    have hrecs : ((s.makeReady h).recordAt h .ready .new t).2.recs = update s.recs h
        { s.recs h with phase := .ready, status := .new, seq := (s.recs h).seq + 1 } := by
      simp [recordAt_recs, makeReady_recs]
    have hev := (Evolves.makeReady hh hp hready).trans (Evolves.event .ready .new t hh₁)
    refine ⟨_, rfl, ⟨hev.path, (Cascades.makeReady hp).trans (Cascades.event _ _ _ _ _),
      hev.flagged, fun v hv => ?_, fun v hv => ?_, fun v _ => forall_update hrecs ?_ v⟩,
      .of_deed (Deed.ready hi hh hp t)⟩
    · rcases hv with hv | rfl
      · exact hev.settled v hv
      · simp [hrecs, RuleOpen]
    · rcases hv with hv | ⟨rfl, hp'⟩
      · exact hev.heldOK v hv
      · rw [hp] at hp'
        cases hp'
    · simp [Viable]
  · intro hp hunsat hready
    have hund : Undecided (s.recs h) := ⟨hready, hunsat⟩
    have hev := Evolves.makeBlocked hh hp hund
    refine ⟨[], by simp, ⟨hev.path, ?_, hev.flagged, fun v hv => ?_, fun v hv => ?_,
      fun v _ => forall_update (makeBlocked_recs s h) (by simp [Viable]) v⟩,
      .of_silent (Silent.of_makeBlocked hi hp)⟩
    · exact Cascades.of_update (congrArg Graph.frame (makeBlocked_graph s h))
        (makeBlocked_recs s h) ⟨rfl, rfl, rfl, by simp [drifts, hp]⟩ (by simp [hp])
    · rcases hv with hv | rfl
      · exact hev.settled v hv
      · rw [makeBlocked_recs, update_self]
        exact fun _ _ => hund
    · rcases hv with hv | ⟨rfl, -⟩
      · exact hev.heldOK v hv
      · simp [makeBlocked_recs, RuleMet, held]

theorem settleAll_settles {hs : List ℕ} (hi : s.Inv)
    (hh : ∀ h ∈ hs, s.Alive h) :
    (settleAll hs s out).All fun r =>
      ∃ es, r.2 = out ++ es ∧ Settles s { k | k ∈ hs } es r.1 ∧ Annals s es r.1 := by
  induction hs generalizing s out with
  | nil => exact ⟨[], by simp, by simpa using Settles.refl s, .nil⟩
  | cons h hs ih =>
    rw [settleAll, Prog.all_bind]
    refine (settle_settles hi (hh h (.head _))).mono ?_
    rintro r ⟨es, hout, hs₁, ha⟩
    have halive : ∀ k ∈ hs, r.1.Alive k := fun k hk => by
      rw [Alive, hs₁.cascades.alive]
      exact hh k (List.mem_cons_of_mem h hk)
    refine (ih (hi.path hs₁.path) halive).mono ?_
    rintro r' ⟨es', hout', hs₂, ha'⟩
    refine ⟨es ++ es', by rw [hout', hout, List.append_assoc], ?_, ha.trans ha'⟩
    have hset : { k | k ∈ h :: hs } = {h} ∪ { k | k ∈ hs } := by
      ext k
      simp
    rw [hset]
    exact hs₁.trans hs₂

theorem terminateAll_spec {msg : String} (hi : s.Inv) (hst : status.terminal = true) :
    (terminateAll status reason msg ws s out).All fun r =>
      ∃ es, r.2 = out ++ es ∧ Tale s es r.1 ∧ Cascades s r.1 ∧
        ∀ w ∈ ws, s.Alive w → (r.1.recs w).phase = .done := by
  induction ws generalizing s out with
  | nil => exact ⟨[], by simp, .refl s, Cascades.refl s, by simp⟩
  | cons w ws ih =>
    rw [terminateAll, Prog.all_bind]
    refine (terminate_drains hi hst).mono ?_
    rintro r ⟨es, hout, hd, ha⟩
    refine (ih (hi.path hd.path)).mono ?_
    rintro r' ⟨es', hout', hev, hcasc, hdone⟩
    refine ⟨es ++ es', by rw [hout', hout, List.append_assoc], (hd.tale ha).trans hev,
      hd.cascades.trans hcasc, ?_⟩
    intro k hk halive
    rcases List.mem_cons.mp hk with rfl | hk
    · exact (hcasc.done k (hd.finished _ (.head _) halive)).1
    · exact hdone k hk (by rwa [Alive, hd.cascades.alive])

end DagWorker.Memory.Scope
