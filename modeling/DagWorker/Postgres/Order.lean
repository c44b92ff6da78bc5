import DagWorker.Postgres.Serial
import DagWorker.Support.Insertion

/-!
# Topological order of the rows

The ranks of the rows are distinct and increase along every edge.  The two searches of
`addEdgeOrder` find the regions between the endpoints of a proposed edge, and the ranks of
these regions are handed out again.
-/

namespace DagWorker.Postgres

open Function
open Dialogue (Uses uses_ask wp_bind)
open Relation (ReflTransGen)

variable {db db' : Db} {id w n x y ub fuel : ℕ} {r : NodeRow} {ids : List ℕ} {ps : List (ℕ × ℕ)}
  {st : Search}
variable {Q : List (ℕ × ℕ) → Engine → Prop}

namespace Db

def rankOf (db : Db) (id : ℕ) : ℕ := ((db.rows.lookup id).map NodeRow.rank).getD 0

def Node (db : Db) (id : ℕ) : Prop := (db.rows.lookup id).isSome

def Linked (db : Db) (u w : ℕ) : Prop := (db.edges.lookup (u, w)).isSome

/-- Ranks are distinct and increase along every edge. -/
abbrev Topological (db : Db) : Prop := Rank.Topological db.rankOf db.Node db.Linked

/-- And they are below the next one. -/
structure Ranked (db : Db) : Prop where
  topological : db.Topological
  below : ∀ id, db.Node id → db.rankOf id < db.nextRank

theorem rankOf_eq (hr : db.rows.lookup id = some r) :
    db.rankOf id = r.rank := by
  simp [rankOf, hr]

theorem Node.of_some (hr : db.rows.lookup id = some r) :
    db.Node id := by
  rw [Node, hr]
  rfl

theorem Ranked.mono (h : db.Ranked)
    (hnode : ∀ id, db'.Node id → db.Node id ∧ db'.rankOf id = db.rankOf id)
    (hedge : ∀ u w, db'.Linked u w → db.Linked u w)
    (hends : ∀ u w, db'.Linked u w → db'.Node u ∧ db'.Node w)
    (hnext : db.nextRank ≤ db'.nextRank) : db'.Ranked := by
  constructor
  · constructor
    · intro u v hu hv heq
      rw [(hnode u hu).2, (hnode v hv).2] at heq
      exact h.topological.inj u v (hnode u hu).1 (hnode v hv).1 heq
    · intro u v huv
      obtain ⟨hu, hv⟩ := hends u v huv
      rw [(hnode u hu).2, (hnode v hv).2]
      exact h.topological.lt u v (hedge u v huv)
    · exact hends
  · intro id hid
    rw [(hnode id hid).2]
    exact (h.below id (hnode id hid).1).trans_le hnext

theorem Ranked.of_ranks (h : db.Ranked)
    (hrow : ∀ id, (db'.rows.lookup id).map NodeRow.rank = (db.rows.lookup id).map NodeRow.rank)
    (hedge : ∀ u w, db'.Linked u w → db.Linked u w) (hnext : db.nextRank ≤ db'.nextRank) :
    db'.Ranked := by
  have hnode : ∀ id, db'.Node id ↔ db.Node id := by
    intro id
    have hsome := congrArg Option.isSome (hrow id)
    rw [Option.isSome_map, Option.isSome_map] at hsome
    rw [Node, Node, hsome]
  apply h.mono
  · intro id hid
    refine ⟨(hnode id).mp hid, ?_⟩
    rw [rankOf, hrow, rankOf]
  · exact hedge
  · intro u w huw
    obtain ⟨hu, hw⟩ := h.topological.nodes u w (hedge u w huw)
    exact ⟨(hnode u).mpr hu, (hnode w).mpr hw⟩
  · exact hnext

theorem Ranked.create (h : db.Ranked) {rank : ℕ} {spec : NodeSpec} {epoch : ℕ}
    {created updated : Int} (hnone : db.rows.lookup id = none) (hrank : db.nextRank ≤ rank) :
    ({ db with
      rows := db.rows.insert id (createdRow spec rank epoch created updated)
      nextID := id + 1
      nextRank := rank + 1 } : Db).Ranked := by
  generalize hdb' : ({ db with
      rows := db.rows.insert id (createdRow spec rank epoch created updated)
      nextID := id + 1
      nextRank := rank + 1 } : Db) = db'
  have hown : db'.rankOf id = rank := by
    rw [← hdb', rankOf, AList.lookup_insert]
    rfl
  have hother : ∀ x, x ≠ id → db'.rows.lookup x = db.rows.lookup x := by
    intro x hx
    rw [← hdb']
    exact AList.lookup_insert_ne hx
  have hrankOf : ∀ x, x ≠ id → db'.rankOf x = db.rankOf x := by
    intro x hx
    rw [rankOf, hother x hx, rankOf]
  have hold : ∀ x, db'.Node x → x ≠ id → db.Node x := by
    intro x hx hne
    rwa [Node, hother x hne] at hx
  have hne : ∀ x, db.Node x → x ≠ id := by
    rintro x hx rfl
    rw [Node, hnone] at hx
    cases hx
  have hedges : ∀ u w, db'.Linked u w → db.Linked u w := by
    intro u w huw
    rwa [← hdb'] at huw
  constructor
  · constructor
    · intro u v hu hv heq
      by_cases hui : u = id
      · by_cases hvi : v = id
        · rw [hui, hvi]
        · rw [hui, hown, hrankOf v hvi] at heq
          have := h.below v (hold v hv hvi)
          omega
      · by_cases hvi : v = id
        · rw [hvi, hown, hrankOf u hui] at heq
          have := h.below u (hold u hu hui)
          omega
        · rw [hrankOf u hui, hrankOf v hvi] at heq
          exact h.topological.inj u v (hold u hu hui) (hold v hv hvi) heq
    · intro u w huw
      obtain ⟨hu, hw⟩ := h.topological.nodes u w (hedges u w huw)
      rw [hrankOf u (hne u hu), hrankOf w (hne w hw)]
      exact h.topological.lt u w (hedges u w huw)
    · intro u w huw
      obtain ⟨hu, hw⟩ := h.topological.nodes u w (hedges u w huw)
      rw [Node, Node, hother u (hne u hu), hother w (hne w hw)]
      exact ⟨hu, hw⟩
  · intro x hx
    have hnext : db'.nextRank = rank + 1 := by rw [← hdb']
    by_cases hxi : x = id
    · rw [hxi, hown, hnext]
      exact Nat.lt_succ_self _
    · rw [hrankOf x hxi, hnext]
      have := h.below x (hold x hx hxi)
      omega

theorem Ranked.delete (h : db.Ranked) (id : ℕ) :
    ({ db.dropEdges (db.incident id) with rows := db.rows.erase id } : Db).Ranked := by
  have hedge : ∀ u w, ({ db.dropEdges (db.incident id) with rows := db.rows.erase id } : Db).Linked
      u w → u ≠ id ∧ w ≠ id ∧ db.Linked u w := by
    intro u w huw
    rw [Linked, incident_lookup] at huw
    split at huw
    · cases huw
    · next hne => exact ⟨fun hu => hne (.inl hu), fun hw => hne (.inr hw), huw⟩
  have hkept : ∀ x, x ≠ id → (db.rows.erase id).lookup x = db.rows.lookup x :=
    fun x hx => AList.lookup_erase_ne hx
  apply h.mono
  · intro x hx
    have hne : x ≠ id := by
      rintro rfl
      rw [Node, AList.lookup_erase] at hx
      cases hx
    rw [Node, hkept x hne] at hx
    refine ⟨hx, ?_⟩
    rw [rankOf, hkept x hne, rankOf]
  · exact fun u w huw => (hedge u w huw).2.2
  · intro u w huw
    obtain ⟨hu, hw, hold⟩ := hedge u w huw
    obtain ⟨hnu, hnw⟩ := h.topological.nodes u w hold
    rw [Node, Node, hkept u hu, hkept w hw]
    exact ⟨hnu, hnw⟩
  · exact le_rfl

end Db

/-! ## Statements that keep the order -/

/-- No rank is changed and no edge added. -/
def Stmt.Ordered : Stmt → Prop
  | .updateNode _ f => ∀ r : NodeRow, (f r).rank = r.rank
  | .insertEdge _ _ _ => False
  | _ => True

theorem Stmt.Plain.ordered {s : Stmt} (h : s.Plain) : s.Ordered := by
  cases s <;> first | exact h | trivial | exact fun r => (h r).2

theorem rank_insert {m : GoMap ℕ NodeRow} {r' : NodeRow} (hr : m.lookup id = some r)
    (hrank : r'.rank = r.rank) (x : ℕ) :
    ((m.insert id r').lookup x).map NodeRow.rank = (m.lookup x).map NodeRow.rank := by
  by_cases hx : x = id
  · subst hx
    rw [AList.lookup_insert, hr, Option.map_some, Option.map_some, hrank]
  · rw [AList.lookup_insert_ne hx]

theorem Changes.ranked {s : Stmt} (h : Changes db s db') (hs : s.Ordered)
    (hr : db.Ranked) : db'.Ranked := by
  cases h with
  | nothing => exact hr
  | createScope | configure | close | raise | count =>
    exact hr.of_ranks (fun _ => rfl) (fun _ _ h => h) le_rfl
  | update id f r hrow hadm =>
    exact hr.of_ranks (rank_insert hrow (hs r)) (fun _ _ h => h) le_rfl
  | insert spec id rank created updated hid hrank hnone hnew => exact hr.create hnone hrank
  | delete id => exact hr.delete id
  | link => exact hs.elim
  | mark u w hopen =>
    refine hr.of_ranks (fun _ => rfl) (fun a b hab => ?_) le_rfl
    by_cases hk : (a, b) = (u, w)
    · rw [Db.Linked, hk, hopen]
      rfl
    · rwa [Db.Linked, AList.lookup_insert_ne hk] at hab
  | unlink u w b hb =>
    refine hr.of_ranks (fun _ => rfl) (fun a c hac => ?_) le_rfl
    by_cases hk : (a, c) = (u, w)
    · rw [Db.Linked, hk, AList.lookup_erase] at hac
      cases hac
    · rwa [Db.Linked, AList.lookup_erase_ne hk] at hac
  | detach w =>
    refine hr.of_ranks (fun _ => rfl) (fun a b hab => ?_) le_rfl
    rw [Db.Linked, Db.edgesTo_lookup] at hab
    split at hab
    · cases hab
    · exact hab
  | grant _ _ _ _ _ _ hrow | prolong _ _ _ _ _ _ hrow =>
    exact hr.of_ranks (rank_insert hrow rfl) (fun _ _ h => h) le_rfl

namespace Tx

abbrev Ordered {α : Type} (p : Tx α) : Prop := Uses Stmt.Ordered p

theorem Plain.ordered {α : Type} {p : Tx α} (h : p.Plain) : p.Ordered :=
  h.mono fun _ hs => hs.ordered

theorem Ordered.ranked {α : Type} {p : Tx α} (h : p.Ordered) (srv : Server) {e : Engine}
    (hr : e.toDb.Ranked) : p.Wp srv (fun _ e' => e'.toDb.Ranked) e := by
  have hrel : p.Wp srv (fun _ e' => e.toDb.Ranked → e'.toDb.Ranked) e :=
    Uses.wp (R := fun e e' : Engine => e.toDb.Ranked → e'.toDb.Ranked) h (fun _ h => h)
      (fun _ _ _ h₁ h₂ h => h₂ (h₁ h))
      (fun s hs a e r e' hexec => (Stmt.exec_changes hexec).ranked hs) e
  exact hrel.mono fun _ e' himp => himp hr

variable {srv : Server} {e : Engine}

/-! ## The searches -/

def Ranks (e : Engine) (ps : List (ℕ × ℕ)) : Prop := ∀ p ∈ ps, p.2 = e.rankOf p.1

theorem rankPairs_ranks (ids : List ℕ) : Ranks e (Stmt.rankPairs e ids) := by
  intro p hp
  obtain ⟨x, hx, rfl⟩ := List.mem_map.mp hp
  exact (Db.rankOf_eq (Engine.mem_rowsOf.mp hx).2).symm

theorem mem_rankPairs :
    w ∈ (Stmt.rankPairs e ids).map Prod.fst ↔ w ∈ ids ∧ e.Node w := by
  rw [Stmt.rankPairs, List.map_map, List.mem_map]
  constructor
  · rintro ⟨x, hx, rfl⟩
    obtain ⟨hid, hr⟩ := Engine.mem_rowsOf.mp hx
    exact ⟨hid, .of_some hr⟩
  · rintro ⟨hid, hnode⟩
    obtain ⟨r, hr⟩ := Option.isSome_iff_exists.mp hnode
    exact ⟨(w, r), Engine.mem_rowsOf.mpr ⟨hid, hr⟩, rfl⟩

theorem rankIn_rankPairs (hw : w ∈ ids) (hnode : e.Node w) :
    rankIn (Stmt.rankPairs e ids) w = e.rankOf w := by
  unfold rankIn
  cases hfind : (Stmt.rankPairs e ids).find? fun x => x.1 = w with
  | none =>
    rw [List.find?_eq_none] at hfind
    obtain ⟨p, hp, hpw⟩ := List.mem_map.mp (mem_rankPairs.mpr ⟨hw, hnode⟩)
    exact absurd (decide_eq_true hpw) (hfind p hp)
  | some p =>
    have hp : p.1 = w := by simpa using List.find?_some hfind
    rw [Option.map_some, Option.getD_some,
      rankPairs_ranks ids p (List.mem_of_find?_eq_some hfind), hp]

theorem mem_sources {u : ℕ} : u ∈ e.sources w ↔ e.Linked u w := by
  rw [Engine.sources, (List.perm_insertionSort _ _).mem_iff, Db.Linked, AList.lookup_isSome,
    AList.mem_keys]
  simp

theorem unordered_perm {a : Answer} {rows : List ℕ} (h : a.unordered ids = some rows) :
    rows.Perm ids := by
  unfold Answer.unordered at h
  split at h
  · next hperm =>
      rw [Option.some.injEq] at h
      exact h ▸ hperm
  · cases h

theorem successorRanks_wp (ht : e.toDb.Topological)
    (h : ∀ ps, Ranks e ps → (∀ w, w ∈ ps.map Prod.fst ↔ e.Linked n w) → Q ps e) :
    (successorRanks n).Wp srv Q e := by
  intro a ps e' hexec
  obtain ⟨ws, l, hp, rfl⟩ := Stmt.perform_of_exec hexec
  obtain ⟨ids, hids, ⟨⟩⟩ := Option.bind_eq_some_iff.mp hp
  apply h _ (rankPairs_ranks ids)
  intro w
  rw [mem_rankPairs, (unordered_perm hids).mem_iff, Engine.mem_targets]
  exact ⟨fun h => h.1, fun h => ⟨h, (ht.nodes n w h).2⟩⟩

theorem predecessorRanks_wp (ht : e.toDb.Topological)
    (h : ∀ ps, Ranks e ps → (∀ u, u ∈ ps.map Prod.fst ↔ e.Linked u n) → Q ps e) :
    (predecessorRanks n).Wp srv Q e := by
  intro a ps e' hexec
  obtain ⟨ws, l, hp, rfl⟩ := Stmt.perform_of_exec hexec
  obtain ⟨ids, hids, ⟨⟩⟩ := Option.bind_eq_some_iff.mp hp
  apply h _ (rankPairs_ranks ids)
  intro u
  rw [mem_rankPairs, (unordered_perm hids).mem_iff, mem_sources]
  exact ⟨fun h => h.1, fun h => ⟨h, (ht.nodes u n h).1⟩⟩

def Search.lists (st : Search) : List ℕ × List ℕ := (st.visited, st.stack)

theorem forwardScan_ok {st' : Search} (hps : Ranks e ps)
    (h : forwardScan x y ub n ps st = .ok st') :
    x ∉ ps.map Prod.fst ∧
      st'.lists = Worklist.scan (fun s => decide (e.rankOf s < ub)) (ps.map Prod.fst) st.lists := by
  induction ps generalizing st with
  | nil =>
    cases h
    exact ⟨List.not_mem_nil, rfl⟩
  | cons p ps ih =>
    obtain ⟨s, rank⟩ := p
    have hrank : rank = e.rankOf s := hps (s, rank) (.head _)
    have hps' : Ranks e ps := fun p hp => hps p (.tail _ hp)
    rw [forwardScan] at h
    split at h
    · cases h
    next hne =>
      rw [List.map_cons, Worklist.scan]
      split at h
      · next hnew =>
          rw [hrank] at hnew
          rw [if_pos ⟨hnew.1, decide_eq_true hnew.2⟩]
          obtain ⟨hx, hlists⟩ := ih hps' h
          exact ⟨by simp [hx, Ne.symm hne], hlists⟩
      · next hold =>
          rw [hrank] at hold
          rw [if_neg fun hnew => hold ⟨hnew.1, of_decide_eq_true hnew.2⟩]
          obtain ⟨hx, hlists⟩ := ih hps' h
          exact ⟨by simp [hx, Ne.symm hne], hlists⟩

theorem forwardScan_error {path : List ℕ}
    (h : forwardScan x y ub n ps st = .error path) : x ∈ ps.map Prod.fst := by
  induction ps generalizing st with
  | nil => cases h
  | cons p ps ih =>
    rw [forwardScan] at h
    split at h
    · next heq => simp [heq]
    · split at h
      · exact .tail _ (ih h)
      · exact .tail _ (ih h)

theorem backwardScan_lists {lb : ℕ} (hps : Ranks e ps) :
    (backwardScan lb n ps st).lists =
      Worklist.scan (fun p => decide (lb < e.rankOf p)) (ps.map Prod.fst) st.lists := by
  induction ps generalizing st with
  | nil => rfl
  | cons p ps ih =>
    obtain ⟨s, rank⟩ := p
    have hrank : rank = e.rankOf s := hps (s, rank) (.head _)
    have hps' : Ranks e ps := fun p hp => hps p (.tail _ hp)
    rw [backwardScan, List.map_cons, Worklist.scan]
    split
    · next hnew =>
        rw [hrank] at hnew
        rw [if_pos ⟨hnew.1, decide_eq_true hnew.2⟩]
        exact ih hps'
    · next hold =>
        rw [hrank] at hold
        rw [if_neg fun hnew => hold ⟨hnew.1, of_decide_eq_true hnew.2⟩]
        exact ih hps'

/-- The forward search ends with the region of `y`, or with a path when `y` reaches `x`. -/
theorem forwardLoop_wp (ht : e.toDb.Topological)
    (hst : Worklist.Explored e.Linked (fun s => decide (e.rankOf s < ub)) y st.lists)
    (hx : ∀ v ∈ st.visited, v ∉ st.stack → ¬e.Linked v x) :
    (forwardLoop x y ub fuel st).Wp srv (fun r e' => e' = e ∧
      (∀ path, r = .error path → ReflTransGen e.Linked y x) ∧ ∀ F, r = .ok F →
      Worklist.Explored e.Linked (fun s => decide (e.rankOf s < ub)) y (F, []) ∧
        ∀ v ∈ F, ¬e.Linked v x) e := by
  induction fuel generalizing st with
  | zero => trivial
  | succ fuel ih =>
    obtain ⟨parent, visited, stack⟩ := st
    cases stack with
    | nil =>
      refine ⟨rfl, by simp, fun F hF => ?_⟩
      cases hF
      exact ⟨hst, fun v hv => hx v hv List.not_mem_nil⟩
    | cons n stack =>
      apply wp_bind.mpr
      apply successorRanks_wp ht
      intro ps hps hmem
      cases hscan : forwardScan x y ub n ps ⟨parent, visited, stack⟩ with
      | error path =>
        have hlink : e.Linked n x := (hmem x).mp (forwardScan_error hscan)
        have hreach := hst.reach n (hst.stacked n (.head _))
        exact ⟨rfl, fun _ _ => hreach.tail hlink, fun F hF => by cases hF⟩
      | ok st' =>
        obtain ⟨hnx, hlists⟩ := forwardScan_ok hps hscan
        have hstep : Worklist.Explored _ _ _ (Worklist.scan _ _ (visited, stack)) :=
          hst.step hmem
        apply ih
        · rw [hlists]
          exact hstep
        intro v hv hstack
        have hv' : v ∈ st'.lists.1 := hv
        have hstack' : v ∉ st'.lists.2 := hstack
        rw [hlists] at hv' hstack'
        by_cases hvn : v = n
        · subst hvn
          intro hlink
          exact hnx ((hmem x).mpr hlink)
        obtain ⟨hold, hnot⟩ := Worklist.settled_of_scan hv' hstack'
        apply hx v hold
        intro hcons
        rcases List.mem_cons.mp hcons with heq | hmem
        · exact hvn heq
        · exact hnot hmem

theorem backwardLoop_wp (ht : e.toDb.Topological) {lb : ℕ}
    (hst : Worklist.Explored (fun w u => e.Linked u w) (fun p => decide (lb < e.rankOf p)) x
      st.lists) :
    (backwardLoop lb fuel st).Wp srv (fun B e' => e' = e ∧
      Worklist.Explored (fun w u => e.Linked u w) (fun p => decide (lb < e.rankOf p)) x (B, []))
      e := by
  induction fuel generalizing st with
  | zero => trivial
  | succ fuel ih =>
    obtain ⟨parent, visited, stack⟩ := st
    cases stack with
    | nil => exact ⟨rfl, hst⟩
    | cons n stack =>
      apply wp_bind.mpr
      apply predecessorRanks_wp ht
      intro ps hps hmem
      apply ih
      rw [backwardScan_lists hps]
      exact hst.step hmem

/-! ## Reassigning ranks -/

/-- The ranks have been reassigned, and nothing else. -/
structure Reranked (ord : ℕ → ℕ) (e e' : Engine) : Prop where
  rank : e'.rankOf = ord
  node : ∀ x, e'.Node x ↔ e.Node x
  edges : e'.edges = e.edges
  next : e'.nextRank = e.nextRank

theorem assignRanks_wp {pool : List ℕ} (hnode : ∀ id ∈ ids, e.Node id) :
    (assignRanks ids pool).Wp srv
      (fun _ e' => Reranked (Rank.assign e.rankOf ids pool) e e') e := by
  induction ids generalizing pool e with
  | nil => exact ⟨rfl, fun _ => Iff.rfl, rfl, rfl⟩
  | cons id ids ih =>
    cases pool with
    | nil => exact ⟨rfl, fun _ => Iff.rfl, rfl, rfl⟩
    | cons rank pool =>
      obtain ⟨r, hr⟩ := Option.isSome_iff_exists.mp (hnode id (.head _))
      apply wp_bind.mpr
      apply wp_updateNode
      · intro hnone
        rw [hr] at hnone
        cases hnone
      intro r' hr' _
      generalize he₁ : ({ e with
        rows := e.rows.insert id { r' with rank := rank } } : Engine) = e₁
      have hrows : e₁.rows = e.rows.insert id { r' with rank := rank } := by rw [← he₁]
      have hnode₁ : ∀ x, e₁.Node x ↔ e.Node x := by
        intro x
        rw [Db.Node, Db.Node, hrows]
        by_cases hx : x = id
        · subst hx
          simp [hr]
        · rw [AList.lookup_insert_ne hx]
      have hrank₁ : e₁.rankOf = update e.rankOf id rank := by
        funext x
        rw [Db.rankOf, hrows]
        by_cases hx : x = id
        · subst hx
          simp
        · rw [AList.lookup_insert_ne hx, update_of_ne hx, Db.rankOf]
      apply (ih fun x hx => (hnode₁ x).mpr (hnode x (.tail _ hx))).mono
      intro _ e₂ h₂
      constructor
      · rw [h₂.rank, hrank₁]
        rfl
      · exact fun x => (h₂.node x).trans (hnode₁ x)
      · rw [h₂.edges, ← he₁]
      · rw [h₂.next, ← he₁]

theorem reorder_wp (ht : e.toDb.Topological) {B F : List ℕ}
    (ha : Rank.Affected e.rankOf e.Node e.Linked x y B F) (hB : B.Nodup) (hF : F.Nodup) :
    (reorder B F).Wp srv (fun _ e' => ∃ B' F' pool, B'.Perm B ∧ F'.Perm F ∧
      Rank.Redistribution e.rankOf B' F' pool ∧
      Reranked (Rank.assign e.rankOf (B' ++ F') pool) e e') e := by
  apply wp_bind.mpr
  apply wp_read (s := .ranksOf (B ++ F)) fun _ => rfl
  have hranks : ∀ w ∈ B ++ F, rankIn (Stmt.rankPairs e (B ++ F)) w = e.rankOf w :=
    fun w hw => rankIn_rankPairs hw (ha.node hw)
  generalize Stmt.rankPairs e (B ++ F) = ranks at hranks
  have hB' : B.insertionSort (fun a b => rankIn ranks a ≤ rankIn ranks b) = Rank.byRank e.rankOf B :=
    Rank.byRank_congr fun w hw => hranks w (List.mem_append_left _ hw)
  have hF' : F.insertionSort (fun a b => rankIn ranks a ≤ rankIn ranks b) = Rank.byRank e.rankOf F :=
    Rank.byRank_congr fun w hw => hranks w (List.mem_append_right _ hw)
  have hpermB := Rank.byRank_perm e.rankOf B
  have hpermF := Rank.byRank_perm e.rankOf F
  have hperm := hpermB.append hpermF
  dsimp only
  rw [hB', hF', List.map_congr_left fun w hw => hranks w (hperm.mem_iff.mp hw)]
  apply (assignRanks_wp fun w hw => ha.node (hperm.mem_iff.mp hw)).mono
  exact fun _ e' h' => ⟨_, _, _, hpermB, hpermF, ha.redistribution ht hB hF, h'⟩

/-- What `addEdgeOrder` does: it returns a path when `y` reaches `x`, leaves ranks that are
in order, and hands out those of the two regions otherwise. -/
inductive Inserts (x y : ℕ) (e : Engine) : Option (List ℕ) → Engine → Prop
  | cycle (path : List ℕ) (hreach : ReflTransGen e.Linked y x) : Inserts x y e (some path) e
  | fast (hlt : e.rankOf x < e.rankOf y) : Inserts x y e none e
  | reordered {e' : Engine} (B F : List ℕ) (pool : List ℕ) (hlt : e.rankOf y < e.rankOf x)
      (ha : Rank.Affected e.rankOf e.Node e.Linked x y B F)
      (hF : ∀ f ∈ F, ReflTransGen e.Linked y f)
      (hr : Rank.Redistribution e.rankOf B F pool)
      (h' : Reranked (Rank.assign e.rankOf (B ++ F) pool) e e') : Inserts x y e none e'

theorem addEdgeOrder_inserts (ht : e.toDb.Topological) (hx : e.Node x)
    (hy : e.Node y) (hne : x ≠ y) : (addEdgeOrder fuel x y).Wp srv (Inserts x y e) e := by
  apply wp_bind.mpr
  apply wp_read (s := .ranksOf [x, y]) fun _ => rfl
  rw [rankIn_rankPairs (by simp) hx, rankIn_rankPairs (by simp) hy]
  dsimp only
  split
  · next hlt => exact .fast hlt
  next hle =>
    have hlt : e.rankOf y < e.rankOf x :=
      lt_of_le_of_ne (not_lt.mp hle) fun heq => hne (ht.inj y x hy hx heq).symm
    have hforward : (forwardSearch fuel x y (e.rankOf x)).Wp srv _ e :=
      forwardLoop_wp ht (.initial _ _ y)
        fun v hv hstack => absurd hv hstack
    apply hforward.bind
    rintro r e₁ ⟨rfl, hcycle, hF⟩
    cases r with
    | error path => exact .cycle path (hcycle path rfl)
    | ok F =>
      obtain ⟨hF, hFx⟩ := hF F rfl
      have hbackward : (backwardSearch fuel x (e₁.rankOf y)).Wp srv _ e₁ :=
        backwardLoop_wp ht (.initial _ _ x)
      apply hbackward.bind
      rintro B e₂ ⟨rfl, hB⟩
      have ha := Rank.affected_of_explored ht hx hy hlt hF hFx hB
      apply (reorder_wp ht ha hB.nodup hF.nodup).bind
      rintro _ e₃ ⟨B', F', pool, hpermB, hpermF, hred, h'⟩
      exact .reordered B' F' pool hlt (ha.perm hpermB hpermF)
        (fun f hf => hF.reach f (hpermF.mem_iff.mp hf)) hred h'

/-! ## Ranks after an edge was accepted -/

/-- The order that an accepted edge needs. -/
structure Makes (x y : ℕ) (e e' : Engine) : Prop where
  ranked : e'.toDb.Ranked
  lt : e'.rankOf x < e'.rankOf y
  node : ∀ w, e'.Node w ↔ e.Node w
  edges : e'.edges = e.edges

theorem Reranked.makes {e' : Engine} {B F pool : List ℕ} (hr : e.toDb.Ranked)
    (ha : Rank.Affected e.rankOf e.Node e.Linked x y B F)
    (hred : Rank.Redistribution e.rankOf B F pool)
    (h' : Reranked (Rank.assign e.rankOf (B ++ F) pool) e e') : Makes x y e e' := by
  have hlinked : ∀ u w, e'.Linked u w ↔ e.Linked u w := by
    intro u w
    rw [Db.Linked, Db.Linked, h'.edges]
  constructor
  · constructor
    · constructor
      · intro u v hu hv heq
        rw [h'.rank] at heq
        exact ha.rank_inj hr.topological hred ((h'.node u).mp hu) ((h'.node v).mp hv) heq
      · intro u v huv
        rw [h'.rank]
        exact ha.edge_lt hr.topological hred ((hlinked u v).mp huv)
      · intro u v huv
        obtain ⟨hu, hv⟩ := hr.topological.nodes u v ((hlinked u v).mp huv)
        exact ⟨(h'.node u).mpr hu, (h'.node v).mpr hv⟩
    · intro id hid
      rw [h'.rank, h'.next]
      have hle : ∀ n, e.Node n → e.rankOf n ≤ e.nextRank - 1 := by
        intro n hn
        have := hr.below n hn
        omega
      have hid := (h'.node id).mp hid
      have hbound := ha.rank_le hred hle hid
      have := hr.below id hid
      omega
  · rw [h'.rank]
    exact ha.new_edge_lt hred
  · exact h'.node
  · exact h'.edges

/-- Without a cycle, the ranks allow for the edge. -/
theorem addEdgeOrder_wp (hr : e.toDb.Ranked) (hx : e.Node x) (hy : e.Node y)
    (hne : x ≠ y) :
    (addEdgeOrder fuel x y).Wp srv (fun path e' => path = none → Makes x y e e') e := by
  apply (addEdgeOrder_inserts hr.topological hx hy hne).mono
  rintro _ _ (⟨path, -⟩ | hlt | ⟨B, F, pool, -, ha, -, hred, h'⟩)
  · exact fun h => by cases h
  · exact fun _ => ⟨hr, hlt, fun _ => Iff.rfl, rfl⟩
  · exact fun _ => h'.makes hr ha hred

end Tx

end DagWorker.Postgres
