import DagWorker.Postgres.Order

/-!
# Edge insertion in the tables

On a finite graph `addEdgeOrder` computes the insertion of an edge, in whatever order the
server lists the neighbours of a node.  The searches take fuel here; more than one unit for
each node is enough.
-/

namespace DagWorker.Postgres.Tx

open Function

variable {srv : Server} {e : Engine}
variable (ids : List ℕ)

/-- Every run of the program ends with a value. -/
abbrev Halts {α : Type} (srv : Server) (p : Tx α) (e : Engine) : Prop :=
  Dialogue.Halts (Stmt.exec srv) p e

/-! ## The searches end -/

theorem unordered_id : ({} : Answer).unordered ids = some ids := by
  exact if_pos (List.Perm.refl ids)

theorem successorRanks_halts (n : ℕ) : (successorRanks n).Halts srv e := by
  apply Dialogue.halts_ask (a := {}) (x := (Stmt.rankPairs e (e.targets n), e))
  simp [Stmt.exec, Stmt.perform, unordered_id, Db.applyAll]

theorem predecessorRanks_halts (n : ℕ) : (predecessorRanks n).Halts srv e := by
  apply Dialogue.halts_ask (a := {}) (x := (Stmt.rankPairs e (e.sources n), e))
  simp [Stmt.exec, Stmt.perform, unordered_id, Db.applyAll]

theorem ranksOf_halts : (ranksOf ids).Halts srv e :=
  Dialogue.halts_ask (a := {}) (x := (Stmt.rankPairs e ids, e)) rfl

theorem Node.mem_keys {id : ℕ} (h : e.Node id) : id ∈ e.rows.keys := by
  rwa [Db.Node, AList.lookup_isSome, AList.mem_keys] at h

theorem forwardLoop_halts (ht : e.toDb.Topological) {x y ub fuel : ℕ} (hy : e.Node y)
    {st : Search}
    (hst : Worklist.Explored e.Linked (fun s => decide (e.rankOf s < ub)) y st.lists)
    (hfuel : e.rows.keys.length + st.stack.length < fuel + st.visited.length) :
    (forwardLoop x y ub fuel st).Halts srv e := by
  induction fuel generalizing st with
  | zero =>
    have hle : st.visited.length ≤ e.rows.keys.length :=
      hst.length_le (Node.mem_keys hy) fun u v huv => Node.mem_keys (ht.nodes u v huv).2
    omega
  | succ fuel ih =>
    obtain ⟨parent, visited, stack⟩ := st
    cases stack with
    | nil => trivial
    | cons n stack =>
      apply (successorRanks_halts n).bind (successorRanks_wp ht
        (Q := fun ps e' => e' = e ∧ Ranks e ps ∧ ∀ w, w ∈ ps.map Prod.fst ↔ e.Linked n w)
        fun ps hps hmem => ⟨rfl, hps, hmem⟩)
      rintro ps _ ⟨rfl, hps, hmem⟩
      cases hscan : forwardScan x y ub n ps ⟨parent, visited, stack⟩ with
      | error path => trivial
      | ok st' =>
        obtain ⟨-, hlists⟩ := forwardScan_ok hps hscan
        apply ih
        · rw [hlists]
          exact hst.step hmem
        have hlen : st'.lists.1.length + stack.length =
            visited.length + st'.lists.2.length := by
          rw [hlists]
          exact Worklist.length_scan _ _ _
        simp only [Search.lists, List.length_cons] at hfuel hlen
        omega

theorem backwardLoop_halts (ht : e.toDb.Topological) {x lb fuel : ℕ} (hx : e.Node x)
    {st : Search}
    (hst : Worklist.Explored (fun w u => e.Linked u w) (fun p => decide (lb < e.rankOf p)) x
      st.lists)
    (hfuel : e.rows.keys.length + st.stack.length < fuel + st.visited.length) :
    (backwardLoop lb fuel st).Halts srv e := by
  induction fuel generalizing st with
  | zero =>
    have hle : st.visited.length ≤ e.rows.keys.length :=
      hst.length_le (Node.mem_keys hx) fun u v huv => Node.mem_keys (ht.nodes v u huv).1
    omega
  | succ fuel ih =>
    obtain ⟨parent, visited, stack⟩ := st
    cases stack with
    | nil => trivial
    | cons n stack =>
      apply (predecessorRanks_halts n).bind (predecessorRanks_wp ht
        (Q := fun ps e' => e' = e ∧ Ranks e ps ∧ ∀ u, u ∈ ps.map Prod.fst ↔ e.Linked u n)
        fun ps hps hmem => ⟨rfl, hps, hmem⟩)
      rintro ps _ ⟨rfl, hps, hmem⟩
      have hlists : (backwardScan lb n ps ⟨parent, visited, stack⟩).lists =
          Worklist.scan _ _ (visited, stack) := backwardScan_lists hps
      apply ih
      · rw [hlists]
        exact hst.step hmem
      have hlen : (backwardScan lb n ps ⟨parent, visited, stack⟩).lists.1.length +
          stack.length = visited.length +
          (backwardScan lb n ps ⟨parent, visited, stack⟩).lists.2.length := by
        rw [hlists]
        exact Worklist.length_scan _ _ _
      simp only [Search.lists, List.length_cons] at hfuel hlen ⊢
      omega

/-! ## Handing out ranks -/

/-- The checks of `dagw.nodes` hold for every row. -/
def Checked (e : Engine) : Prop := ∀ id r, e.rows.lookup id = some r → r.admissible = true

theorem updateRank_halts (hc : Checked e) (id rank : ℕ) :
    (updateNode id fun r => { r with rank := rank }).Halts srv e := by
  cases hr : e.rows.lookup id with
  | none =>
    apply Dialogue.halts_ask (a := {}) (x := (none, e))
    simp [Stmt.exec, Stmt.perform, hr, Db.applyAll]
  | some r =>
    have hadm : NodeRow.admissible { r with rank := rank } = true := hc id r hr
    apply Dialogue.halts_ask (a := {})
      (x := (some { r with rank := rank },
        { e with rows := e.rows.insert id { r with rank := rank } }))
    simp [Stmt.exec, Stmt.perform, hr, hadm, Db.applyAll, Db.apply]

theorem assignRanks_halts (hc : Checked e) (ids pool : List ℕ) :
    (assignRanks ids pool).Halts srv e := by
  induction ids generalizing pool e with
  | nil => trivial
  | cons id ids ih =>
    cases pool with
    | nil => trivial
    | cons rank pool =>
      apply (updateRank_halts hc id rank).bind (P := fun _ e' => Checked e')
      · apply wp_updateNode
        · exact fun _ => hc
        intro r hr hadm k r' hk
        by_cases hki : k = id
        · subst hki
          rw [AList.lookup_insert] at hk
          exact Option.some.inj hk ▸ hadm
        · rw [AList.lookup_insert_ne hki] at hk
          exact hc k r' hk
      · exact fun _ e' hc' => ih hc' pool

theorem reorder_halts (hc : Checked e) (B F : List ℕ) : (reorder B F).Halts srv e := by
  apply (ranksOf_halts (B ++ F)).bind (wp_read (s := .ranksOf (B ++ F)) (fun _ => rfl)
    (Q := fun _ e' => e' = e) rfl)
  rintro ranks _ rfl
  exact assignRanks_halts hc _ _

/-- With one unit of fuel for each node, and one more, no run is cut short. -/
theorem addEdgeOrder_halts (ht : e.toDb.Topological) (hc : Checked e) {fuel x y : ℕ}
    (hx : e.Node x) (hy : e.Node y) (hfuel : e.rows.keys.length < fuel) :
    (addEdgeOrder fuel x y).Halts srv e := by
  apply (ranksOf_halts [x, y]).bind (wp_read (s := .ranksOf [x, y]) (fun _ => rfl)
    (Q := fun _ e' => e' = e) rfl)
  rintro ranks e₁ rfl
  dsimp only
  split
  · trivial
  have hforward : (forwardSearch fuel x y (rankIn ranks x)).Halts srv e₁ :=
    forwardLoop_halts ht hy (.initial _ _ y) (Nat.add_lt_add_right hfuel 1)
  have hsearch : (forwardSearch fuel x y (rankIn ranks x)).Wp srv _ e₁ :=
    forwardLoop_wp ht (.initial _ _ y) fun v hv hstack => absurd hv hstack
  apply hforward.bind hsearch
  rintro r e₂ ⟨rfl, -, -⟩
  cases r with
  | error path => trivial
  | ok F =>
    have hbackward : (backwardSearch fuel x (rankIn ranks y)).Halts srv e₂ :=
      backwardLoop_halts ht hx (.initial _ _ x) (Nat.add_lt_add_right hfuel 1)
    have hsearch : (backwardSearch fuel x (rankIn ranks y)).Wp srv _ e₂ :=
      backwardLoop_wp ht (.initial _ _ x)
    apply hbackward.bind hsearch
    rintro B _ ⟨rfl, -⟩
    exact (reorder_halts hc B F).bind (P := fun _ _ => True) (Dialogue.wp_true _ _)
      fun _ _ _ => trivial

/-! ## The insertion -/

/-- A graph in the tables. -/
structure Stores {V : Type} (e : Engine) (id : V → ℕ) (ord : V → ℕ) (Edge : V → V → Prop) :
    Prop where
  presents : Rank.Presents id ord Edge e.rankOf e.Node e.Linked
  checked : Checked e

variable (srv) in
/-- `addEdgeOrder` returns, and computes the insertion of an edge, in whatever order the
server lists rows. -/
theorem addEdgeOrder_insertion {V : Type} [Fintype V] {id ord : V → ℕ} {Edge : V → V → Prop}
    (hs : Stores e id ord Edge) (hinj : Injective ord) (hlt : ∀ u v, Edge u v → ord u < ord v)
    {x y : V} (hne : x ≠ y) {fuel : ℕ} (hfuel : e.rows.keys.length < fuel) :
    (addEdgeOrder fuel (id x) (id y)).Halts srv e ∧
      (addEdgeOrder fuel (id x) (id y)).Wp srv (fun path e' =>
        (path.isSome → Rank.insertion ord Edge x y = none) ∧
        (path = none → Rank.insertion ord Edge x y = some (e'.rankOf ∘ id))) e := by
  have hp := hs.presents
  have ht := hp.topological hinj hlt
  have hnode : ∀ v, e.Node (id v) := fun v => (hp.node _).mpr ⟨v, rfl⟩
  refine ⟨addEdgeOrder_halts ht hs.checked (hnode x) (hnode y) hfuel, ?_⟩
  apply (addEdgeOrder_inserts ht (hnode x) (hnode y) fun heq => hne (hp.inj heq)).mono
  rintro _ _ (⟨path, hreach⟩ | hxy | ⟨B, F, pool, hyx, ha, hF, hred, h'⟩)
  · exact ⟨fun _ => hp.insertion_of_reach hreach, by simp⟩
  · exact ⟨by simp, fun _ => hp.insertion_of_lt ht hxy⟩
  · refine ⟨by simp, fun _ => ?_⟩
    rw [h'.rank]
    exact hp.insertion_of_affected hinj ht ha hF hred hyx

end DagWorker.Postgres.Tx
