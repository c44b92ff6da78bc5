import DagWorker.Postgres.Order
import DagWorker.Memory.Batches
import DagWorker.Support.Table

/-!
# Adding nodes and edges

The maps of loaded nodes that `AddNodes` and `AddEdges` carry along name rows that exist,
by their identifiers.  Every edge they record keeps the topological order.
-/

namespace DagWorker.Postgres

open Dialogue (wp_bind wp_ofExcept)

variable {u fuel : ℕ} {scope : String} {target : ℕ × NodeRow} {nodes : Nodes} {k j : NodeID}
  {spec : NodeSpec} {specs : List NodeSpec} {touched : List ℕ}
variable {source x : ℕ × NodeRow} {edges : List Edge} {defaults : ScopeConfig}

/-- The row `id` is that of the node `k`. -/
def Db.Names (db : Db) (id : ℕ) (k : NodeID) : Prop :=
  ∃ r, db.rows.lookup id = some r ∧ r.nodeID = k

theorem Db.Names.still {db db' : Db} {id : ℕ} (h : db.Names id k) (hstill : db.Still db') :
    db'.Names id k := by
  obtain ⟨r, hr, hid⟩ := h
  obtain ⟨r', hr', hi⟩ := hstill.row id r hr
  exact ⟨r', hr', hi.nodeID.trans hid⟩

namespace Tx

variable {srv : Server} {e : Engine}

/-! ## One edge -/

theorem ranked_of_link {db db' : Db} (hr : db.Ranked) {w : ℕ} {b : Bool}
    (hlt : db.rankOf u < db.rankOf w) (h : Changes db (.insertEdge u w b) db') : db'.Ranked := by
  cases h with
  | nothing => exact hr
  | link _ _ _ hnone hu hw =>
    have hlinked : ∀ a c, ({ db with edges := db.edges.insert (u, w) b } : Db).Linked a c →
        (a, c) = (u, w) ∨ db.Linked a c := by
      intro a c hac
      by_cases hk : (a, c) = (u, w)
      · exact .inl hk
      · rw [Db.Linked, AList.lookup_insert_ne hk] at hac
        exact .inr hac
    constructor
    · constructor
      · exact hr.topological.inj
      · intro a c hac
        rcases hlinked a c hac with hk | hold
        · cases hk
          exact hlt
        · exact hr.topological.lt a c hold
      · intro a c hac
        rcases hlinked a c hac with hk | hold
        · cases hk
          exact ⟨hu, hw⟩
        · exact hr.topological.nodes a c hold
    · exact hr.below

theorem linkDependency_ranked (hr : e.toDb.Ranked) (hsource : e.Node source.1)
    (htarget : e.Node target.1) (hne : source.1 ≠ target.1) :
    (linkDependency fuel scope source target).Wp srv (fun _ e' => e'.toDb.Ranked) e := by
  apply wp_bind.mpr
  apply wp_read (s := .edgeExists source.1 target.1) fun _ => rfl
  split
  · exact hr
  split
  · trivial
  apply (addEdgeOrder_wp hr hsource htarget hne).bind
  intro path e₁ h₁
  cases path with
  | some path =>
    apply wp_bind.mpr
    exact wp_changes fun _ _ _ => trivial
  | none =>
    have hmakes := h₁ rfl
    apply wp_bind.mpr
    apply wp_changes
    intro _ e₂ h₂
    have hr₂ := ranked_of_link hmakes.ranked hmakes.lt h₂
    apply wp_bind.mpr
    apply wp_changes
    intro _ e₃ h₃
    exact h₃.ranked (fun _ => rfl) hr₂

/-! ## Loaded nodes -/

/-- Every entry names a row by its identifier. -/
def Coherent (e : Engine) (nodes : Nodes) : Prop :=
  ∀ k x, nodes.lookup k = some x → e.Names x.1 k

theorem Coherent.still {e' : Engine} (h : Coherent e nodes)
    (hstill : e.toDb.Still e'.toDb) : Coherent e' nodes :=
  fun k x hx => (h k x hx).still hstill

theorem Coherent.kept {e' : Engine} (h : Coherent e nodes)
    (hkept : ∀ id r, e.rows.lookup id = some r → e'.rows.lookup id = some r) :
    Coherent e' nodes := by
  intro k x hx
  obtain ⟨r, hr, hid⟩ := h k x hx
  exact ⟨r, hkept x.1 r hr, hid⟩

theorem Coherent.insert (h : Coherent e nodes)
    (hx : e.Names x.1 k) : Coherent e (nodes.insert k x) := by
  intro j y hy
  by_cases hj : j = k
  · subst hj
    rw [AList.lookup_insert, Option.some.injEq] at hy
    exact hy ▸ hx
  · rw [AList.lookup_insert_ne hj] at hy
    exact h j y hy

theorem Coherent.empty (e : Engine) : Coherent e ∅ := by
  intro k x hx
  cases hx

theorem ne_of_nodeID {w : ℕ} (hu : e.Names u j) (hw : e.Names w k) (hne : j ≠ k) : u ≠ w := by
  rintro rfl
  obtain ⟨r, hr, rfl⟩ := hu
  obtain ⟨s, hs, rfl⟩ := hw
  obtain rfl := Option.mem_unique hr hs
  exact hne rfl

theorem node_of_named (hu : e.Names u k) :
    e.Node u := by
  obtain ⟨r, hr, -⟩ := hu
  exact .of_some hr

theorem loadForUpdateByExternal_wp {Q : Option (ℕ × NodeRow) → Engine → Prop}
    (hnone : Q none e)
    (hsome : ∀ x, e.rows.lookup x.1 = some x.2 → x.2.nodeID = k → Q (some x) e) :
    (loadForUpdateByExternal k).Wp srv Q e := by
  apply wp_read (s := .loadForUpdateByExternal k) (fun _ => rfl)
  cases hfind : e.findExternal k with
  | none => exact hnone
  | some x =>
    obtain ⟨hr, hid⟩ := Engine.findExternal_some hfind
    exact hsome x hr hid

/-- What linking keeps: the order, and the loaded nodes. -/
structure Links (e : Engine) (nodes nodes' : Nodes) (e' : Engine) : Prop where
  ranked : e'.toDb.Ranked
  coherent : Coherent e' nodes'
  still : e.toDb.Still e'.toDb
  grows : ∀ k, (nodes.lookup k).isSome → (nodes'.lookup k).isSome

theorem isSome_insert (h : (nodes.lookup k).isSome) : ((nodes.insert j x).lookup k).isSome := by
  by_cases hk : k = j
  · subst hk
    rw [AList.lookup_insert]
    rfl
  · rwa [AList.lookup_insert_ne hk]

theorem Links.refl (hr : e.toDb.Ranked) (hnodes : Coherent e nodes) :
    Links e nodes nodes e :=
  ⟨hr, hnodes, .refl e.toDb, fun _ h => h⟩

theorem Links.trans {e₁ e₂ : Engine} {nodes₁ nodes₂ : Nodes} (h : Links e nodes nodes₁ e₁)
    (h' : Links e₁ nodes₁ nodes₂ e₂) : Links e nodes nodes₂ e₂ :=
  ⟨h'.ranked, h'.coherent, h.still.trans h'.still, fun k hk => h'.grows k (h.grows k hk)⟩

/-- One dependency is recorded, and its two ends are kept in the map. -/
theorem linkDependency_links (hr : e.toDb.Ranked) (hnodes : Coherent e nodes)
    (hsource : e.Names source.1 j) (htarget : e.Names target.1 k) (hne : j ≠ k) :
    (linkDependency fuel scope source target).Wp srv (fun row e' =>
      Links e nodes ((nodes.insert j source).insert k (target.1, row)) e') e := by
  have hranked : (linkDependency fuel scope source target).Wp srv
      (fun _ e' => e'.toDb.Ranked) e :=
    linkDependency_ranked hr (node_of_named hsource) (node_of_named htarget)
      (ne_of_nodeID hsource htarget hne)
  apply (hranked.and (linkDependency_linking.gentle.still srv e)).mono
  rintro row e' ⟨hr', hstill⟩
  have hsame : Coherent e ((nodes.insert j source).insert k (target.1, row)) :=
    (hnodes.insert hsource).insert htarget
  exact ⟨hr', hsame.still hstill, hstill, fun _ h => isSome_insert (isSome_insert h)⟩

/-! ## The loops -/

/-- The source of an edge is in the map or has just been loaded. -/
theorem source_wp {dep : NodeID} {err : Err} {Q : ℕ × NodeRow → Engine → Prop}
    (hnodes : Coherent e nodes)
    (hQ : ∀ x : ℕ × NodeRow, e.Names x.1 dep → Q x e) :
    (match nodes.lookup dep with
      | some n => pure n
      | none => do
        let loaded ← loadForUpdateByExternal dep
        match loaded with
        | some n => pure n
        | none => .fail err : Tx (ℕ × NodeRow)).Wp srv Q e := by
  cases hlookup : nodes.lookup dep with
  | some n => exact hQ n (hnodes dep n hlookup)
  | none =>
    apply wp_bind.mpr
    apply loadForUpdateByExternal_wp
    · trivial
    · exact fun x hx hid => hQ x ⟨x.2, hx, hid⟩

theorem linkDeps_links {deps : List NodeID}
    (hr : e.toDb.Ranked) (hnodes : Coherent e nodes)
    (htarget : e.Names target.1 spec.id)
    (hself : spec.id ∉ deps) :
    (linkDeps fuel scope spec deps target nodes).Wp srv
      (fun nodes' e' => Links e nodes nodes' e') e := by
  induction deps generalizing e target nodes with
  | nil => exact .refl hr hnodes
  | cons dep deps ih =>
    rw [List.mem_cons, not_or] at hself
    apply wp_bind.mpr
    apply source_wp hnodes
    intro source hsource
    apply (linkDependency_links hr hnodes hsource htarget (Ne.symm hself.1)).bind
    intro row e₁ h₁
    have htarget₁ : e₁.Names target.1 spec.id :=
      h₁.coherent spec.id (target.1, row) (AList.lookup_insert _)
    have hrest : (linkDeps fuel scope spec deps (target.1, row)
        ((nodes.insert dep source).insert spec.id (target.1, row))).Wp srv _ e₁ :=
      ih h₁.ranked h₁.coherent htarget₁ hself.2
    exact hrest.mono fun nodes' e' h => h₁.trans h

theorem addOnce_nodup {items : List ℕ} (h : items.Nodup) (id : ℕ) : (addOnce items id).Nodup := by
  unfold addOnce
  split
  · exact h
  · next hid => exact h.append (List.nodup_singleton id) (by simpa using hid)

theorem linkAddNodesBatch_nodup (hnd : touched.Nodup) :
    (linkAddNodesBatch fuel scope specs nodes touched).Wp srv (fun touched' _ => touched'.Nodup)
      e := by
  induction specs generalizing e nodes touched with
  | nil => exact hnd
  | cons spec specs ih =>
    exact (Dialogue.wp_true _ e).bind fun _ _ _ => ih (addOnce_nodup hnd _)

theorem linkAddNodesBatch_ranked (hr : e.toDb.Ranked) (hnodes : Coherent e nodes)
    (hspecs : ∀ spec ∈ specs, (nodes.lookup spec.id).isSome ∧ spec.id ∉ spec.deps) :
    (linkAddNodesBatch fuel scope specs nodes touched).Wp srv (fun _ e' => e'.toDb.Ranked) e := by
  induction specs generalizing e nodes touched with
  | nil => exact hr
  | cons spec specs ih =>
    obtain ⟨hsome, hself⟩ := hspecs spec (.head _)
    obtain ⟨target, htarget⟩ := Option.isSome_iff_exists.mp hsome
    rw [linkAddNodesBatch]
    simp only [htarget, Option.getD_some]
    apply (linkDeps_links hr hnodes (hnodes spec.id target htarget) hself).bind
    intro nodes₁ e₁ h₁
    apply ih h₁.ranked h₁.coherent
    intro s hs
    obtain ⟨hsome, hself⟩ := hspecs s (.tail _ hs)
    exact ⟨h₁.grows s.id hsome, hself⟩

theorem endpoint_wp {id : NodeID} {which : String} (hnodes : Coherent e nodes)
    {Q : (ℕ × NodeRow) × Nodes → Engine → Prop}
    (h : ∀ x, Coherent e x.2 → e.Names x.1.1 id → Q x e) :
    (endpoint nodes id which).Wp srv Q e := by
  unfold endpoint
  cases hlookup : nodes.lookup id with
  | some n => exact h (n, nodes) hnodes (hnodes id n hlookup)
  | none =>
    apply wp_bind.mpr
    apply loadForUpdateByExternal_wp
    · trivial
    · intro x hx hid
      exact h (x, nodes.insert id x) (hnodes.insert ⟨x.2, hx, hid⟩) ⟨x.2, hx, hid⟩

theorem linkEdges_nodup (hnd : touched.Nodup) :
    (linkEdges fuel scope edges nodes touched).Wp srv (fun touched' _ => touched'.Nodup) e := by
  induction edges generalizing e nodes touched with
  | nil => exact hnd
  | cons edge edges ih =>
    rw [linkEdges]
    split
    · trivial
    apply (Dialogue.wp_true _ e).bind
    intro _ e₁ _
    apply (Dialogue.wp_true _ e₁).bind
    intro _ e₂ _
    exact (Dialogue.wp_true _ e₂).bind fun _ _ _ => ih (addOnce_nodup hnd _)

theorem linkEdges_ranked (hr : e.toDb.Ranked) (hnodes : Coherent e nodes) :
    (linkEdges fuel scope edges nodes touched).Wp srv (fun _ e' => e'.toDb.Ranked) e := by
  induction edges generalizing e nodes touched with
  | nil => exact hr
  | cons edge edges ih =>
    rw [linkEdges]
    split
    · trivial
    next hne =>
      apply wp_bind.mpr
      apply endpoint_wp hnodes
      intro source hnodes₁ hsource
      apply wp_bind.mpr
      apply endpoint_wp hnodes₁
      intro target hnodes₂ htarget
      apply (linkDependency_links hr hnodes₂ hsource htarget hne).bind
      intro row e₁ h₁
      exact ih h₁.ranked h₁.coherent

theorem unlinkEdges_nodup (hnd : touched.Nodup) :
    (unlinkEdges edges nodes touched).Wp srv (fun touched' _ => touched'.Nodup) e := by
  induction edges generalizing e nodes touched with
  | nil => exact hnd
  | cons edge edges ih =>
    apply (Dialogue.wp_true _ e).bind
    intro source e₁ _
    apply (Dialogue.wp_true _ e₁).bind
    intro target e₂ _
    apply (Dialogue.wp_true _ e₂).bind
    intro changed e₃ _
    apply ih
    split
    · exact addOnce_nodup hnd _
    · exact hnd

/-! ## New nodes -/

/-- The rows of `out` are new, one for each spec, and nothing else has changed. -/
structure Inserted (e : Engine) (specs : List NodeSpec) (out : List (ℕ × NodeRow))
    (e' : Engine) : Prop where
  kept : ∀ id r, e.rows.lookup id = some r → e'.rows.lookup id = some r
  rows : ∀ x ∈ out, e'.rows.lookup x.1 = some x.2
  named : ∀ spec ∈ specs, ∃ x ∈ out, x.2.nodeID = spec.id
  count : ∀ p : NodeRow → Bool, Table.count e'.rows p =
    Table.count e.rows p + (out.map fun x => (p x.2).toNat).sum
  scopeRow : e'.scopeRow = e.scopeRow
  stats : e'.stats = e.stats

theorem Inserted.of_one {id : ℕ} {r : NodeRow} {e' : Engine}
    (hnone : e.rows.lookup id = none) (hid : r.nodeID = spec.id)
    (hrows : e'.rows = e.rows.insert id r) (hscope : e'.scopeRow = e.scopeRow)
    (hstats : e'.stats = e.stats) : Inserted e [spec] [(id, r)] e' := by
  constructor
  · intro x s hs
    have hx : x ≠ id := by
      rintro rfl
      rw [hnone] at hs
      cases hs
    rw [hrows, AList.lookup_insert_ne hx, hs]
  · intro x hx
    rw [List.mem_singleton.mp hx, hrows]
    exact AList.lookup_insert _
  · intro s hs
    rw [List.mem_singleton.mp hs]
    exact ⟨(id, r), List.mem_singleton_self _, hid⟩
  · intro p
    rw [hrows, Table.count_insert_of_none hnone]
    simp
  · exact hscope
  · exact hstats

theorem Inserted.append {e₁ e₂ : Engine} {specs' : List NodeSpec}
    {out out' : List (ℕ × NodeRow)} (h : Inserted e specs out e₁)
    (h' : Inserted e₁ specs' out' e₂) : Inserted e (specs ++ specs') (out ++ out') e₂ := by
  constructor
  · exact fun id r hr => h'.kept id r (h.kept id r hr)
  · intro x hx
    rcases List.mem_append.mp hx with hx | hx
    · exact h'.kept x.1 x.2 (h.rows x hx)
    · exact h'.rows x hx
  · intro spec hspec
    rcases List.mem_append.mp hspec with hspec | hspec
    · obtain ⟨x, hx, hid⟩ := h.named spec hspec
      exact ⟨x, List.mem_append_left _ hx, hid⟩
    · obtain ⟨x, hx, hid⟩ := h'.named spec hspec
      exact ⟨x, List.mem_append_right _ hx, hid⟩
  · intro p
    rw [h'.count, h.count, List.map_append, List.sum_append, Nat.add_assoc]
  · exact h'.scopeRow.trans h.scopeRow
  · exact h'.stats.trans h.stats

/-- The row as it was inserted for a spec. -/
def Written (spec : NodeSpec) (r : NodeRow) : Prop :=
  ∃ rank epoch created updated, r = createdRow spec rank epoch created updated

theorem insertNode_wp : (query (.insertNode spec)).Wp srv
    (fun x e' => Inserted e [spec] [x] e' ∧ Written spec x.2) e := by
  intro a x e' hexec
  obtain ⟨ws, l, hp, rfl⟩ := Stmt.perform_of_exec hexec
  simp only [Stmt.perform] at hp
  split at hp
  · next hnew =>
      cases hp
      exact ⟨.of_one (Option.isNone_iff_eq_none.mp hnew.1) rfl rfl rfl rfl, _, _, _, _, rfl⟩
  · cases hp

theorem insertNodes_wp : (insertNodes specs).Wp srv (fun out e' => Inserted e specs out e' ∧
    ∀ spec ∈ specs, ∃ x ∈ out, Written spec x.2) e := by
  induction specs generalizing e with
  | nil => exact ⟨⟨fun _ _ h => h, by simp, by simp, by simp, rfl, rfl⟩, by simp⟩
  | cons spec specs ih =>
    apply insertNode_wp.bind
    rintro x e₁ ⟨h₁, hx⟩
    apply ih.bind
    rintro out e₂ ⟨h₂, hout⟩
    refine ⟨h₁.append h₂, fun spec' hspec => ?_⟩
    rcases List.mem_cons.mp hspec with rfl | hspec
    · exact ⟨x, .head _, hx⟩
    · obtain ⟨y, hy, hwritten⟩ := hout spec' hspec
      exact ⟨y, List.mem_cons_of_mem x hy, hwritten⟩

/-- The row with the identifier of the spec, among those that were read. -/
def rowFor (existing : List (ℕ × NodeRow)) (spec : NodeSpec) : Option (ℕ × NodeRow) :=
  existing.find? fun x => x.2.nodeID = spec.id

theorem rowFor_some {existing : List (ℕ × NodeRow)} (h : rowFor existing spec = some x) :
    x ∈ existing ∧ x.2.nodeID = spec.id :=
  ⟨List.mem_of_find?_eq_some h, by simpa using List.find?_some h⟩

/-- The nodes of a batch that exist have to match, and the others are to be created. -/
theorem splitSpecs_ok_iff {existing : List (ℕ × NodeRow)} {toCreate : List NodeSpec}
    {out : Nodes × List NodeSpec} : splitSpecs existing specs nodes toCreate = .ok out ↔
      (∀ spec ∈ specs, (rowFor existing spec).all fun x => specMatches x.2 spec) ∧
      out = ((specs.filterMap (rowFor existing)).foldl (fun m n => m.insert n.2.nodeID n) nodes,
        toCreate ++ specs.filter fun spec => (rowFor existing spec).isNone) := by
  induction specs generalizing nodes toCreate with
  | nil =>
    rw [splitSpecs, Except.ok.injEq, eq_comm]
    simp
  | cons spec specs ih =>
    rw [splitSpecs, ← rowFor]
    cases hrow : rowFor existing spec with
    | none => simp [ih, hrow]
    | some n =>
      have hid := (rowFor_some hrow).2
      cases hm : specMatches n.2 spec with
      | false => simp [hm, hrow]
      | true => simp [ih, hm, hrow, hid]

/-- Created nodes enter the map under their identifiers. -/
theorem foldl_insert_coherent {created : List (ℕ × NodeRow)}
    (hnodes : Coherent e nodes) (hrows : ∀ x ∈ created, e.rows.lookup x.1 = some x.2) :
    Coherent e (created.foldl (fun m n => m.insert n.2.nodeID n) nodes) ∧
      (∀ k, (nodes.lookup k).isSome →
        ((created.foldl (fun m n => m.insert n.2.nodeID n) nodes).lookup k).isSome) ∧
      ∀ x ∈ created,
        ((created.foldl (fun m n => m.insert n.2.nodeID n) nodes).lookup x.2.nodeID).isSome := by
  induction created generalizing nodes with
  | nil => exact ⟨hnodes, fun _ h => h, by simp⟩
  | cons n created ih =>
    have hn : e.Names n.1 n.2.nodeID :=
      ⟨n.2, hrows n (.head _), rfl⟩
    obtain ⟨hout, hgrows, hall⟩ :=
      ih (hnodes.insert hn) fun x hx => hrows x (.tail _ hx)
    refine ⟨hout, fun k hk => hgrows k (isSome_insert hk), ?_⟩
    intro x hx
    rcases List.mem_cons.mp hx with rfl | hx
    · apply hgrows
      rw [AList.lookup_insert]
      rfl
    · exact hall x hx

/-! ## The opening of `AddNodes` -/

theorem ensureScope_wp : (ensureScope defaults).Wp srv (fun _ e' =>
    Changes e.toDb (.ensureScope defaults) e'.toDb ∧ e'.stats = e.stats ∧ e'.scopeRow.isSome) e := by
  intro a x e' hexec
  refine ⟨Stmt.exec_changes hexec, ?_⟩
  obtain ⟨ws, l, hp, rfl⟩ := Stmt.perform_of_exec hexec
  simp only [Stmt.perform] at hp
  split at hp
  · next sc hsc =>
      cases hp
      exact ⟨rfl, by simp [Db.applyAll, hsc]⟩
  · cases hp
    exact ⟨rfl, rfl⟩

/-- The scope exists and is open, and its configuration admits the batch. -/
structure Opened (e : Engine) (defaults : ScopeConfig) (specs : List NodeSpec) (e' : Engine) :
    Prop where
  changes : Changes e.toDb (.ensureScope defaults) e'.toDb
  stats : e'.stats = e.stats
  valid : ∃ sc, e'.scopeRow = some sc ∧ sc.isSealed = false ∧
    validateAddNodesBatch sc.cfg.resolved specs = .ok ()

/-- What follows the checks of `AddNodes`. -/
def addBatch (fuel : ℕ) (scope : String) (specs : List NodeSpec) : Tx (List Effect) := do
  let (nodes, fresh) ← materialiseAddNodesBatch specs
  let touched ← linkAddNodesBatch fuel scope specs nodes []
  let effects ← announceFresh fresh
  let more ← settleTouched fuel touched
  finalize
  pure (effects ++ more)

theorem addNodes_wp {Q : List Effect → Engine → Prop} (hnil : specs = [] → Q [] e)
    (h : ∀ e₁, Opened e defaults specs e₁ → (addBatch fuel scope specs).Wp srv Q e₁) :
    (addNodes fuel scope defaults specs).Wp srv Q e := by
  unfold addNodes
  split
  · next hspecs => exact hnil hspecs
  apply ensureScope_wp.bind
  rintro _ e₁ ⟨hchanges, hstats, hsome⟩
  obtain ⟨sc, hsc⟩ := Option.isSome_iff_exists.mp hsome
  apply wp_bind.mpr
  apply wp_read (s := .lockScopeGraph) fun _ => rfl
  apply wp_bind.mpr
  apply wp_read (s := .loadScope) (x := e₁.scopeRow) fun _ => rfl
  simp only [hsc, Option.getD_some]
  split
  · trivial
  next hopen =>
    apply wp_bind.mpr
    apply wp_ofExcept
    intro _ hvalid
    exact h e₁ ⟨hchanges, hstats, sc, hsc, by simpa using hopen, hvalid⟩

end Tx
end DagWorker.Postgres
