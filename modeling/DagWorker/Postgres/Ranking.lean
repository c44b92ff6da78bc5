import DagWorker.Postgres.Balance

/-!
# Acyclic graphs in PostgreSQL

Only `AddNodes` and `AddEdges` add edges, and each of them sees to the ranks first.  So the
ranks are in order after every serial run, collections included.
-/

namespace DagWorker.Postgres

open Dialogue (Uses uses_ask wp_bind wp_map)

namespace Tx

variable {e : Engine} {srv : Server} {fuel : ℕ} {scope : String}

theorem deleteNodeRow_ordered (id : ℕ) (phase : Phase) (status : Status) (epoch : ℕ) :
    (deleteNodeRow id phase status epoch).Ordered := by
  apply Uses.bind (uses_ask trivial)
  intro _
  apply Uses.bind (uses_ask trivial)
  intro _
  exact (uses_ask trivial).bind fun _ => uses_ask trivial

theorem removeNode_ordered (fuel : ℕ) (id : NodeID) (policy : CascadePolicy) :
    (removeNode fuel id policy).Ordered := by
  apply Uses.bind beginGraphTx_neutral.plain.ordered
  intro _
  refine Uses.find (uses_ask trivial) trivial fun n => ?_
  simp only
  split
  · trivial
  apply Uses.bind (uses_ask trivial)
  intro succs
  apply Uses.bind applyCascade_plain.ordered
  intro effects
  apply Uses.bind detachSuccessors_neutral.plain.ordered
  intro _
  apply Uses.bind (uses_ask trivial)
  intro _
  apply Uses.bind (deleteNodeRow_ordered n.1 _ _ _)
  intro _
  apply Uses.bind
  · split
    · exact settleTouched_plain.ordered
    · trivial
  · intro more
    exact finalize_plain.ordered.bind fun _ => trivial

theorem claim_ordered (fuel : ℕ) (req : ClaimRequest) : (claim fuel req).Ordered :=
  claim_uses (fun _ hs => hs.ordered) (fun _ _ _ => trivial) fuel req

theorem collectTerminal_ordered (cutoff limit : Int) : (collectTerminal cutoff limit).Ordered := by
  have hloop : ∀ cands : List (ℕ × Phase × Status), (collectLoop cands).Ordered := by
    intro cands
    induction cands with
    | nil => trivial
    | cons c cands ih =>
      apply Uses.bind (uses_ask trivial)
      intro _
      exact (deleteNodeRow_ordered c.1 _ _ _).bind fun _ => ih
  refine Uses.find (uses_ask trivial) trivial fun sc => ?_
  apply Uses.bind (uses_ask trivial)
  intro cands
  apply Uses.bind (hloop cands)
  intro _
  exact moreTerminal_neutral.plain.ordered.bind fun _ => trivial

theorem materialiseAddNodesBatch_ordered (specs : List NodeSpec) :
    (materialiseAddNodesBatch specs).Ordered :=
  materialiseAddNodesBatch_uses (fun _ hs => hs.ordered) (fun _ => trivial) specs

theorem addNodes_ranked {defaults : ScopeConfig} {specs : List NodeSpec} (hr : e.toDb.Ranked) :
    (addNodes fuel scope defaults specs).Wp srv (fun _ e' => e'.toDb.Ranked) e := by
  apply addNodes_wp
  · exact fun _ => hr
  intro e₁ hopened
  obtain ⟨sc, -, -, hvalid⟩ := hopened.valid
  have hvalid := (Memory.Scope.validateBatch_ok hvalid).1
  have hr₁ := hopened.changes.ranked trivial hr
  apply (materialiseAddNodesBatch_wp.and
    ((materialiseAddNodesBatch_ordered specs).ranked srv hr₁)).bind
  rintro x e₂ ⟨⟨-, hnodes, hnamed⟩, hr₂⟩
  have hspecs : ∀ spec ∈ specs, (x.1.lookup spec.id).isSome ∧ spec.id ∉ spec.deps :=
    fun spec hspec => ⟨hnamed spec hspec, (hvalid spec hspec).self⟩
  apply (linkAddNodesBatch_ranked hr₂ hnodes hspecs).bind
  intro touched e₃ hr₃
  refine Ordered.ranked ?_ srv hr₃
  exact announceFresh_neutral.plain.ordered.bind fun _ =>
    settleTouched_plain.ordered.bind fun _ => finalize_plain.ordered.bind fun _ => trivial

theorem addEdges_ranked {edges : List Edge} (hr : e.toDb.Ranked) :
    (addEdges fuel scope edges).Wp srv (fun _ e' => e'.toDb.Ranked) e := by
  unfold addEdges
  split
  · exact hr
  apply (beginGraphTx_wp srv e).bind
  rintro _ e ⟨rfl, -⟩
  apply (linkEdges_ranked hr (.empty e)).bind
  intro touched e₁ hr₁
  refine Ordered.ranked ?_ srv hr₁
  exact settleTouched_plain.ordered.bind fun _ => finalize_plain.ordered.bind fun _ => trivial

end Tx

variable {db : Db}

theorem Op.program_ranked {srv : Server} (hr : db.Ranked) (fuel : ℕ) (scope : String)
    (defaults : ScopeConfig) (op : Op) :
    (op.program fuel scope defaults).Wp srv (fun _ e' => e'.toDb.Ranked) { toDb := db } := by
  have hkeep : ∀ {α : Type} {p : Tx α} {f : α → Reply}, p.Ordered →
      (f <$> p).Wp srv (fun _ e' => e'.toDb.Ranked) { toDb := db } :=
    fun hordered => wp_map.mpr (hordered.ranked srv hr)
  cases op with
  | addNodes specs => exact wp_map.mpr (Tx.addNodes_ranked hr)
  | addEdges edges => exact wp_map.mpr (Tx.addEdges_ranked hr)
  | removeEdges edges => exact hkeep Tx.removeEdges_plain.ordered
  | removeNode id policy => exact hkeep (Tx.removeNode_ordered fuel id policy)
  | cancel ids => exact hkeep Tx.cancel_plain.ordered
  | cancelScope => exact hkeep Tx.cancelScope_plain.ordered
  | claim req => exact hkeep (Tx.claim_ordered fuel req)
  | complete req => exact hkeep Tx.complete_plain.ordered
  | extend req => exact hkeep Tx.extend_neutral.plain.ordered
  | sweep limit => exact hkeep Tx.sweep_plain.ordered
  | collectTerminal cutoff limit => exact hkeep (Tx.collectTerminal_ordered cutoff limit)
  | setScopeConfig cfg => exact hkeep ((uses_ask trivial).bind fun _ => uses_ask trivial)
  | sealScope => exact hkeep ((uses_ask trivial).bind fun _ => uses_ask trivial)

theorem Db.ranked_empty : ({} : Db).Ranked := by
  constructor
  · constructor
    · intro x y hx
      cases hx
    · intro u w hlinked
      cases hlinked
    · intro u w hlinked
      cases hlinked
  · intro x hx
    cases hx

theorem Run.ranked {steps : List StepRecord} (hrun : Run steps db) : db.Ranked := by
  induction hrun with
  | nil => exact Db.ranked_empty
  | @snoc steps r hrun hv ih =>
    obtain ⟨db, c, reply, db'⟩ := r
    have hall : (exec db c).All fun x => x.2.Ranked := by
      apply Call.run_of_wp (Q := fun _ db' => db'.Ranked)
      · exact Op.program_ranked ih c.fuel c.scope c.defaults c.op
      · exact fun err => ih
      · exact ih
    exact hall.of_yields hv

/-- After every serial run the ranks are distinct and increase along every edge, and the
graph has no cycle. -/
theorem run_acyclic {steps : List StepRecord} (hrun : Run steps db) :
    db.Topological ∧ ∀ u, ¬Relation.TransGen db.Linked u u :=
  ⟨hrun.ranked.topological, hrun.ranked.topological.acyclic⟩

/-- The edge leads from the younger node to the older one. -/
theorem backwardEdge_acyclic : ∃ steps db, Run steps db ∧ db.edges.keys = [(2, 1)] ∧
    db.Topological := by
  obtain ⟨steps, db, hrun, hp⟩ := Trace.exists_run_of_execute exec
    (callsOf [.addNodes [{ id := "a" }, { id := "b" }], .addEdges [⟨"b", "a"⟩]]) {}
    (p := fun _ db => decide (db.edges.keys = [(2, 1)])) (by decide +kernel)
  exact ⟨steps, db, hrun, of_decide_eq_true hp, (run_acyclic hrun).1⟩

end DagWorker.Postgres
