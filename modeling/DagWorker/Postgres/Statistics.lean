import DagWorker.Postgres.Ranking

/-!
# Exact statistics

The counters of a scope are exact after every operation of a serial run in which no
`CollectTerminal` finds a node to delete.  Ranks matter here: the cascade of a removal
with the policy `fail` must not come back to the node that is about to be deleted.
-/

namespace DagWorker.Postgres

open Dialogue (Uses uses_ask wp_bind wp_map)
open Engine (Even Balanced Steady Current)

variable {defaults : ScopeConfig} {db : Db} {fuel : ℕ} {r : StepRecord}
variable {specs : List NodeSpec} {scope : String} {edges : List Edge} {ids : List NodeID}
  {policy : CascadePolicy}

namespace Tx

variable {srv : Server} {e : Engine}

/-! ## The ends of an operation -/

theorem wp_takeStats {Q : List (String × Int) → Engine → Prop}
    (h : Q (e.stats.entries.map fun x => (x.1, x.2)) { e with stats := ∅ }) :
    takeStats.Wp srv Q e := by
  intro a x e' hexec
  cases hexec
  exact h

theorem wp_addStats {deltas : List (String × Int)} {sc : ScopeRow} {Q : Unit → Engine → Prop}
    (hsc : e.scopeRow = some sc)
    (h : Q () { e with
      scopeRow := some
        { sc with stats := deltas.foldl (fun st d => st.addColumn d.1 d.2) sc.stats } }) :
    (addStats deltas).Wp srv Q e := by
  intro a x e' hexec
  simp only [Stmt.exec, Stmt.perform, Stmt.updateScope, hsc, Option.map_some, Option.some.injEq,
    Prod.mk.injEq] at hexec
  obtain ⟨-, rfl⟩ := hexec
  exact h

/-- At the commit the counters are exact. -/
theorem finalize_exact (h : e.Balanced) (hscope : e.scopeRow.isSome) :
    finalize.Wp srv (fun _ e' => e'.toDb.Exact) e := by
  obtain ⟨sc, hsc⟩ := Option.isSome_iff_exists.mp hscope
  have hcounters : e.toDb.counters = sc.stats := by
    rw [Db.counters, hsc]
    rfl
  have hcolumn : ∀ col ∈ statColumns,
      (((e.stats.entries.map fun x => (x.1, x.2)).filter fun d => d.2 ≠ 0).foldl
          (fun st d => st.addColumn d.1 d.2) sc.stats).column col =
        Table.count e.rows (NodeRow.counted col) := by
    intro col hcol
    have hbalanced := h col hcol
    rw [hcounters, Engine.owed] at hbalanced
    rw [flushed_column sc.stats e.stats hcol]
    omega
  apply wp_bind.mpr
  apply wp_takeStats
  dsimp only
  split
  · next hempty =>
      intro col hcol
      have hnil := hcolumn col hcol
      rw [List.isEmpty_iff.mp hempty] at hnil
      rw [← hnil, List.foldl_nil, ← hcounters]
  · have hsc' : ({ e with stats := ∅ } : Engine).scopeRow = some sc := hsc
    exact wp_addStats hsc' hcolumn

theorem finalize_pure_exact {α : Type} {x : α} {e₀ : Engine} (h : e₀.Balanced)
    (hscope : e₀.scopeRow.isSome) (heven : Even e₀ e) :
    (finalize >>= fun _ => pure x).Wp srv (fun _ e' => e'.toDb.Exact) e := by
  have hscope' : e.scopeRow.isSome := by
    rw [heven.scope]
    exact hscope
  apply (finalize_exact (h.even heven) hscope').bind
  exact fun _ _ hexact => hexact

/-- A new scope has no rows to count. -/
theorem ensured {db' : Db} (h : Changes db (.ensureScope defaults) db') :
    db'.rows = db.rows ∧ db'.counters = db.counters := by
  cases h with
  | nothing => exact ⟨rfl, rfl⟩
  | createScope _ hnone =>
    refine ⟨rfl, ?_⟩
    rw [Db.counters, Db.counters, hnone]
    rfl

/-! ## Editing the graph -/

theorem unique_of_fit {l : Local} (h : db.Fit) :
    ({ toDb := db, toLocal := l } : Engine).Unique := h.unique

theorem addNodes_exact (hb : e.Balanced) (hexact : e.toDb.Exact) (hfit : e.toDb.Fit) :
    (addNodes fuel scope defaults specs).Wp srv (fun _ e' => e'.toDb.Exact) e := by
  apply addNodes_wp
  · exact fun _ => hexact
  intro e₁ hopened
  obtain ⟨hrows, hcounters⟩ := ensured hopened.changes
  obtain ⟨sc, hsc, -⟩ := hopened.valid
  have hfit₁ : e₁.toDb.Fit := (hopened.changes.ages trivial hfit).1
  have hb₁ : e₁.Balanced := by
    intro col hcol
    rw [hcounters, Engine.owed_of_eq hrows hopened.stats]
    exact hb col hcol
  apply (materialiseAddNodesBatch_wp.and
    ((materialiseAddNodesBatch_lasting specs).ages srv e₁)).bind
  rintro x e₂ ⟨⟨heven₂, -⟩, hages₂⟩
  have hfit₂ : e₂.toDb.Fit := (hages₂ hfit₁).1
  have hlink : (linkAddNodesBatch fuel scope specs x.1 []).Linking := linkAddNodesBatch_linking
  apply (((linkAddNodesBatch_nodup List.nodup_nil).and (hlink.steady srv e₂)).and
    (hlink.gentle.still srv e₂)).bind
  rintro touched e₃ ⟨⟨hnd, hsteady₃⟩, hstill₃⟩
  have hannounce : (announceFresh x.2).Neutral := announceFresh_neutral
  apply ((hannounce.linking.steady srv e₃).and (hannounce.plain.gentle.still srv e₃)).bind
  rintro effects e₄ ⟨hsteady₄, hstill₄⟩
  have hunique : e₄.Unique := (unique_of_fit hfit₂ : e₂.Unique).still (hstill₃.trans hstill₄)
  apply (settleTouched_wp_even hunique hnd).bind
  intro more e₅ heven₅
  exact finalize_pure_exact hb₁ (Option.isSome_of_eq_some hsc)
    (heven₂.trans ((hsteady₃.trans hsteady₄).even.trans heven₅))

theorem addEdges_exact (hb : e.Balanced) (hexact : e.toDb.Exact) (hu : e.Unique) :
    (addEdges fuel scope edges).Wp srv (fun _ e' => e'.toDb.Exact) e := by
  unfold addEdges
  split
  · exact hexact
  apply (beginGraphTx_wp srv e).bind
  rintro _ e ⟨rfl, hscope⟩
  have hlink : (linkEdges fuel scope edges ∅ []).Linking := linkEdges_linking
  apply (((linkEdges_nodup List.nodup_nil).and (hlink.steady srv e)).and
    (hlink.gentle.still srv e)).bind
  rintro touched e₁ ⟨⟨hnd, hsteady⟩, hstill⟩
  apply (settleTouched_wp_even (hu.still hstill) hnd).bind
  intro effects e₂ heven
  exact finalize_pure_exact hb hscope (hsteady.even.trans heven)

theorem removeEdges_exact (hb : e.Balanced) (hexact : e.toDb.Exact) (hu : e.Unique) :
    (removeEdges fuel edges).Wp srv (fun _ e' => e'.toDb.Exact) e := by
  unfold removeEdges
  split
  · exact hexact
  apply (beginGraphTx_wp srv e).bind
  rintro _ e ⟨rfl, hscope⟩
  have hunlink : (unlinkEdges edges ∅ []).Neutral := unlinkEdges_neutral
  apply (((unlinkEdges_nodup List.nodup_nil).and (hunlink.linking.steady srv e)).and
    (hunlink.plain.gentle.still srv e)).bind
  rintro touched e₁ ⟨⟨hnd, hsteady⟩, hstill⟩
  apply (settleTouched_wp_even (hu.still hstill) hnd).bind
  intro effects e₂ heven
  exact finalize_pure_exact hb hscope (hsteady.even.trans heven)

/-- A cascade that stays in `S` leaves the copies of the other rows current. -/
theorem terminateAll_spares {S : ℕ → Prop} {status : Status} {reason : Reason}
    {message : String} {ids : List ℕ} (hS : Engine.Absorbs S e) (hids : ∀ id ∈ ids, S id) :
    (terminateAll fuel status reason message ids).Wp srv
      (fun _ e' => Even e e' ∧ ∀ id n, ¬S id → Current e id n → Current e' id n) e := by
  induction ids generalizing e with
  | nil => exact ⟨.refl e, fun _ _ _ h => h⟩
  | cons id ids ih =>
    apply (terminate_wp_moved hS (hids id (.head _))).bind
    rintro more e₁ ⟨h₁, hS₁⟩
    apply (ih hS₁ fun x hx => hids x (.tail _ hx)).bind
    rintro effects e₂ ⟨heven, hspared⟩
    refine ⟨h₁.even.trans heven, fun x n hx hn => hspared x n hx (h₁.current hn ?_)⟩
    exact fun hnamed => hx hnamed.1

/-- The cascade of a removal does not come back to the node. -/
theorem applyCascade_spares {v : ℕ} {id : NodeID} (hr : e.toDb.Ranked) :
    (applyCascade fuel id policy (e.successorsForUpdate v)).Wp srv
      (fun _ e' => Even e e' ∧ ∀ n, Current e v n → Current e' v n) e := by
  unfold applyCascade
  split
  · exact ⟨.refl e, fun _ h => h⟩
  cases policy with
  | reject => trivial
  | detach => exact ⟨.refl e, fun _ h => h⟩
  | unknown => exact ⟨.refl e, fun _ h => h⟩
  | fail =>
    have hS : Engine.Absorbs (fun x => e.rankOf v < e.rankOf x) e :=
      fun u w hu hopen => hu.trans (hr.topological.lt u w (Option.isSome_of_eq_some hopen))
    have hsuccs : ∀ x ∈ (e.successorsForUpdate v).map Prod.fst, e.rankOf v < e.rankOf x := by
      intro x hx
      obtain ⟨y, hy, rfl⟩ := List.mem_map.mp hx
      exact hr.topological.lt v y.1 (Engine.mem_successorsForUpdate.mp hy).1
    apply (terminateAll_spares hS hsuccs).mono
    rintro _ e' ⟨heven, hspared⟩
    exact ⟨heven, fun n => hspared v n (lt_irrefl _)⟩

theorem removeNode_exact {id : NodeID} (hb : e.Balanced) (hr : e.toDb.Ranked) (hu : e.Unique) :
    (removeNode fuel id policy).Wp srv (fun _ e' => e'.toDb.Exact) e := by
  apply (beginGraphTx_wp srv e).bind
  rintro _ e ⟨rfl, hscope⟩
  apply wp_bind.mpr
  apply loadForUpdateByExternal_wp
  · trivial
  rintro ⟨v, n⟩ hn -
  simp only
  split
  · trivial
  apply wp_bind.mpr
  apply successorsForUpdate_wp
  have hcascade : (applyCascade fuel id policy (e.successorsForUpdate v)).Plain :=
    applyCascade_plain
  apply ((applyCascade_spares hr).and (hcascade.gentle.still srv e)).bind
  rintro effects e₁ ⟨⟨heven₁, hspared⟩, hstill₁⟩
  have hdetach : (detachSuccessors v ((e.successorsForUpdate v).map Prod.fst)).Neutral :=
    detachSuccessors_neutral
  apply ((hdetach.linking.steady srv e₁).and (hdetach.plain.gentle.still srv e₁)).bind
  rintro _ e₂ ⟨hsteady₂, hstill₂⟩
  have hedges : (query (.deleteEdgesTo v)).Linking := uses_ask trivial
  apply ((hedges.steady srv e₂).and (hedges.gentle.still srv e₂)).bind
  rintro _ e₃ ⟨hsteady₃, hstill₃⟩
  -- nothing has moved the node since it was loaded
  have hcurrent : Current e₃ v n :=
    (hsteady₂.trans hsteady₃).current v n (hspared n (current_of_row hn))
  have hunique₃ : e₃.Unique := hu.still ((hstill₁.trans hstill₂).trans hstill₃)
  apply (deleteNodeRow_even hcurrent).bind
  rintro _ e₄ ⟨heven₄, hrows₄⟩
  have heven : Even e e₄ := (heven₁.trans (hsteady₂.trans hsteady₃).even).trans heven₄
  have hunique₄ : e₄.Unique := by
    intro x y r s hrow hsow hid
    rw [hrows₄] at hrow hsow
    exact hunique₃ x y r s (Table.lookup_of_erase hrow) (Table.lookup_of_erase hsow) hid
  have htail : (if policy = .detach then
        settleTouched fuel ((e.successorsForUpdate v).map Prod.fst)
      else pure [] : Tx (List Effect)).Evens srv e₄ := by
    split
    · exact settleTouched_wp_even hunique₄ (Engine.successorsForUpdate_nodup e v)
    · exact .refl e₄
  apply htail.bind
  intro more e₅ heven₅
  exact finalize_pure_exact hb hscope (heven.trans heven₅)

theorem cancelLoop_even : (cancelLoop fuel ids).Evens srv e := by
  induction ids generalizing e with
  | nil => exact .refl e
  | cons id ids ih =>
    apply wp_bind.mpr
    apply wp_read (s := .findByExternal id) fun _ => rfl
    split
    · trivial
    split
    · exact ih
    exact terminate_even.then fun _ _ _ => ih.then fun _ _ _ => .refl _

theorem cancel_exact (hb : e.Balanced) (hexact : e.toDb.Exact) :
    (cancel fuel ids).Wp srv (fun _ e' => e'.toDb.Exact) e := by
  unfold cancel
  split
  · exact hexact
  apply (beginGraphTx_wp srv e).bind
  rintro _ e ⟨rfl, hscope⟩
  apply cancelLoop_even.bind
  intro effects e₁ heven
  exact finalize_pure_exact hb hscope heven

theorem loadScope_exact {α : Type} {k : Option ScopeRow → Tx α}
    (hnone : (k none).Wp srv (fun _ e' => e'.toDb.Exact) e)
    (hsome : ∀ sc, e.scopeRow.isSome → (k (some sc)).Wp srv (fun _ e' => e'.toDb.Exact) e) :
    (loadScope >>= k).Wp srv (fun _ e' => e'.toDb.Exact) e := by
  apply wp_bind.mpr
  apply wp_read (s := .loadScope) (x := e.scopeRow) fun _ => rfl
  cases hsc : e.scopeRow with
  | none => exact hnone
  | some sc => exact hsome sc (by rw [hsc]; rfl)

theorem cancelScope_exact (hb : e.Balanced) (hexact : e.toDb.Exact) :
    (cancelScope fuel).Wp srv (fun _ e' => e'.toDb.Exact) e := by
  apply loadScope_exact
  · exact hexact
  intro sc hscope
  have hlock : lockScopeGraph.Linking := uses_ask trivial
  apply (hlock.steady srv e).bind
  intro _ e₁ h₁
  have hlive : (query .liveNodes).Linking := uses_ask trivial
  apply (hlive.steady srv e₁).bind
  intro ids e₂ h₂
  apply terminateAll_even.bind
  intro effects e₃ h₃
  exact finalize_pure_exact hb hscope ((h₁.trans h₂).even.trans h₃)

/-! ## Leases and sweeps -/

theorem claim_exact {req : ClaimRequest} (hb : e.Balanced) (hexact : e.toDb.Exact) :
    (claim fuel req).Wp srv (fun _ e' => e'.toDb.Exact) e := by
  apply loadScope_exact
  · exact hexact
  intro sc hscope
  apply reclaimExpired_even.bind
  intro reclaimed e₁ h₁
  apply promoteScheduled_even.bind
  intro promoted e₂ h₂
  apply wp_bind.mpr
  apply (inFlight_neutral.linking.steady srv e₂).bind
  intro inProgress e₃ h₃
  apply grantLoop_even.mono
  intro res e₄ h₄
  exact finalize_pure_exact hb hscope (((h₁.trans h₂).trans h₃.even).trans h₄)

theorem complete_exact {req : CompleteRequest} (hb : e.Balanced) :
    (complete fuel req).Wp srv (fun _ e' => e'.toDb.Exact) e := by
  unfold complete
  split
  · trivial
  apply loadScope_exact
  · trivial
  intro sc hscope
  apply wp_bind.mpr
  apply wp_bind.mpr
  apply loadForUpdateByExternal_wp
  · trivial
  rintro ⟨v, n⟩ hn -
  simp only
  split
  · trivial
  apply (applyOutcome_even (current_of_row hn)).bind
  intro out e₁ heven
  exact finalize_pure_exact hb hscope heven

theorem sweep_exact {limit : Int} (hb : e.Balanced) (hexact : e.toDb.Exact) :
    (sweep fuel limit).Wp srv (fun _ e' => e'.toDb.Exact) e := by
  apply loadScope_exact
  · exact hexact
  intro sc hscope
  apply reclaimExpired_even.bind
  intro reclaimed e₁ h₁
  apply promoteScheduled_even.bind
  intro promoted e₂ h₂
  exact finalize_pure_exact hb hscope (h₁.trans h₂)

theorem collectTerminal_exact {cutoff limit : Int} (hexact : e.toDb.Exact)
    (hnone : e.terminalCandidates cutoff = []) :
    (collectTerminal cutoff limit).Wp srv (fun _ e' => e'.toDb.Exact) e := by
  apply loadScope_exact
  · exact hexact
  intro sc hscope
  apply wp_bind.mpr
  intro a cands e₁ hcands
  obtain ⟨rfl, hmem⟩ := mem_findTerminalCandidates hcands
  have hnil : cands = [] := by
    apply List.eq_nil_iff_forall_not_mem.mpr
    intro c hc
    have hcand := (hmem c hc).1
    rw [hnone] at hcand
    cases hcand
  subst hnil
  apply (moreTerminal_neutral.linking.steady srv e₁).bind
  intro more e₂ h₂
  exact h₂.exact hexact

/-! ## Scopes -/

/-- Another statement about the scope, after making sure that it exists. -/
theorem ensureScope_exact {s : Stmt} (hs : s.Linking)
    (hexact : e.toDb.Exact) :
    (ensureScope defaults >>= fun _ => query s).Wp srv (fun _ e' => e'.toDb.Exact) e := by
  apply ensureScope_wp.bind
  rintro _ e₁ ⟨hchanges, -⟩
  obtain ⟨hrows, hcounters⟩ := ensured hchanges
  have hexact₁ : e₁.toDb.Exact := by
    intro col hcol
    rw [hcounters, hrows]
    exact hexact col hcol
  have hquery : (query s).Linking := uses_ask hs
  exact (hquery.steady srv e₁).mono fun _ e₂ h => h.exact hexact₁

end Tx

/-! ## Steps and runs -/

theorem Op.program_exact {srv : Server} (hexact : db.Exact) (hr : db.Ranked)
    (hfit : db.Fit) (fuel : ℕ) (scope : String) (defaults : ScopeConfig) (op : Op)
    (hnone : ∀ cutoff limit, op = .collectTerminal cutoff limit →
      ({ toDb := db } : Engine).terminalCandidates cutoff = []) :
    (op.program fuel scope defaults).Wp srv (fun _ e' => e'.toDb.Exact) { toDb := db } := by
  have hb : ({ toDb := db } : Engine).Balanced := .start hexact
  have hu : ({ toDb := db } : Engine).Unique := Tx.unique_of_fit hfit
  cases op with
  | addNodes specs => exact wp_map.mpr (Tx.addNodes_exact hb hexact hfit)
  | addEdges edges => exact wp_map.mpr (Tx.addEdges_exact hb hexact hu)
  | removeEdges edges => exact wp_map.mpr (Tx.removeEdges_exact hb hexact hu)
  | removeNode id policy => exact wp_map.mpr (Tx.removeNode_exact hb hr hu)
  | cancel ids => exact wp_map.mpr (Tx.cancel_exact hb hexact)
  | cancelScope => exact wp_map.mpr (Tx.cancelScope_exact hb hexact)
  | claim req => exact wp_map.mpr (Tx.claim_exact hb hexact)
  | complete req => exact wp_map.mpr (Tx.complete_exact hb)
  | extend req =>
    apply wp_map.mpr
    exact (Tx.extend_neutral.linking.steady srv _).mono fun _ e' h => h.exact hexact
  | sweep limit => exact wp_map.mpr (Tx.sweep_exact hb hexact)
  | collectTerminal cutoff limit =>
    exact wp_map.mpr (Tx.collectTerminal_exact hexact (hnone cutoff limit rfl))
  | setScopeConfig cfg =>
    exact wp_map.mpr (Tx.ensureScope_exact (s := .setScopeConfig cfg) trivial hexact)
  | sealScope => exact wp_map.mpr (Tx.ensureScope_exact (s := .setSealed) trivial hexact)

/-- A collection finds no node that it may delete. -/
def FindsNone (r : StepRecord) : Prop :=
  ∀ cutoff limit, r.call.op = .collectTerminal cutoff limit →
    ({ toDb := r.before } : Engine).terminalCandidates cutoff = []

theorem FindsNone.retired (h : FindsNone r) : Retired r := by
  intro cutoff limit hop id hid
  rw [h cutoff limit hop] at hid
  cases hid

theorem exec_exact (hv : r.Valid exec) (hnone : FindsNone r) (hfit : r.before.Fit)
    (hr : r.before.Ranked) (h : r.before.Exact) : r.after.Exact := by
  obtain ⟨db, c, reply, db'⟩ := r
  have hall : (exec db c).All fun x => x.2.Exact := by
    apply Call.run_of_wp (Q := fun _ db' => db'.Exact)
    · exact Op.program_exact h hr hfit c.fuel c.scope c.defaults c.op hnone
    · exact fun err => h
    · exact h
  exact hall.of_yields hv

theorem Run.exact {steps : List StepRecord} (hrun : Run steps db)
    (hnone : ∀ r ∈ steps, FindsNone r) : db.Exact := by
  induction hrun with
  | nil =>
    unfold Db.Exact
    decide
  | @snoc steps r hrun hv ih =>
    have hbefore : ∀ q ∈ steps, FindsNone q := fun q hq => hnone q (List.mem_append_left _ hq)
    have hfit := (Run.fenced hrun fun q hq => (hbefore q hq).retired).2
    exact exec_exact hv (hnone r (by simp)) hfit (Run.ranked hrun) (ih hbefore)

/-- In a serial run whose collections find nothing to delete, every counter of the scope is
the number of its rows that belong to it, after every step. -/
theorem run_statistics_exact {steps : List StepRecord} {db : Db} (hrun : Run steps db)
    (hnone : ∀ r ∈ steps, FindsNone r) : ∀ r ∈ steps, r.after.Exact := by
  intro r hr
  obtain ⟨pre, post, rfl, hpre, hv⟩ := hrun.prefix_of_mem hr
  have hbefore : ∀ q ∈ pre, FindsNone q := fun q hq => hnone q (List.mem_append_left _ hq)
  have hfit := (Run.fenced hpre fun q hq => (hbefore q hq).retired).2
  exact exec_exact hv (hnone r hr) hfit (Run.ranked hpre) (Run.exact hpre hbefore)

/-- A node is completed, kept by a collection because another one depends on it, and then
removed together with it. -/
def dependentOps : List Op :=
  [.addNodes [{ id := "a" }, { id := "b", deps := ["a"] }], .claim { scope := "s" },
   firstSuccess "a", .collectTerminal 0 0, .removeNode "a" .fail]

/-- A test for `FindsNone`. -/
def findsNone (r : StepRecord) : Bool :=
  match r.call.op with
  | .collectTerminal cutoff _ => (({ toDb := r.before } : Engine).terminalCandidates cutoff).isEmpty
  | _ => true

theorem FindsNone.of_test (h : findsNone r = true) : FindsNone r := by
  intro cutoff limit hop
  simpa [findsNone, hop] using h

theorem dependentOps_exact : ∃ steps db, Run steps db ∧ (∀ r ∈ steps, FindsNone r) ∧
    steps.map (fun r => (r.after.counters.total, r.after.counters.failed)) =
      [(2, 0), (2, 0), (2, 0), (2, 0), (1, 1)] ∧
    ∀ r ∈ steps, r.after.Exact := by
  obtain ⟨steps, db, hrun, hp⟩ := Trace.exists_run_of_execute exec (callsOf dependentOps) {}
    (p := fun steps _ => steps.all findsNone &&
      decide (steps.map (fun r => (r.after.counters.total, r.after.counters.failed)) =
        [(2, 0), (2, 0), (2, 0), (2, 0), (1, 1)])) (by decide +kernel)
  simp only [Bool.and_eq_true, List.all_eq_true, decide_eq_true_eq] at hp
  obtain ⟨htest, htotals⟩ := hp
  have hnone : ∀ r ∈ steps, FindsNone r := fun r hr => FindsNone.of_test (htest r hr)
  exact ⟨steps, db, hrun, hnone, htotals, run_statistics_exact hrun hnone⟩

/-- A node is completed and collected. -/
def collectedOps : List Op :=
  [.addNodes [{ id := "a" }], .claim { scope := "s" }, firstSuccess "a", .collectTerminal 0 0]

/-- The only row is deleted, and the scope still counts it. -/
theorem collectedOps_inexact : ∃ steps db, Run steps db ∧
    db.rows.keys = [] ∧ db.counters.total = 1 ∧ db.counters.succeeded = 1 ∧ ¬db.Exact := by
  obtain ⟨steps, db, hrun, hp⟩ := Trace.exists_run_of_execute exec (callsOf collectedOps) {}
    (p := fun _ db => decide (db.rows.keys = [] ∧ db.counters.total = 1 ∧
      db.counters.succeeded = 1 ∧
      db.counters.column "stat_total" ≠ Table.count db.rows (NodeRow.counted "stat_total")))
    (by decide +kernel)
  obtain ⟨hrows, htotal, hsucceeded, hne⟩ := of_decide_eq_true hp
  exact ⟨steps, db, hrun, hrows, htotal, hsucceeded,
    fun hexact => hne (hexact "stat_total" (by decide))⟩

end DagWorker.Postgres
