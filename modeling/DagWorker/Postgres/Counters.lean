import DagWorker.Postgres.Serial
import DagWorker.Postgres.Cascade

/-!
# Counters and rows

A transaction moves rows between buckets and collects the deltas of the counters.  What
the rows say minus what the deltas say stays the same, as long as every move is booked
from the bucket the row is in.  The caller's copy of a row has to be current for that.
-/

namespace DagWorker.Postgres

variable {id u : ℕ} {r r' n : NodeRow} {status : Status} {reason : Reason}
  {queue : List TerminateItem}
variable {ids : List ℕ} (p : Phase) (s : ScopeStats)

/-- The counter that a row belongs to. -/
def NodeRow.bucket (r : NodeRow) : String := bucketColumn r.phase r.status

def NodeRow.counted (col : String) (r : NodeRow) : Bool :=
  decide (col = "stat_total") || decide (r.bucket = col)

def same (a b : String) : Int := if a = b then 1 else 0

theorem bucketColumn_ne_total (s : Status) : bucketColumn p s ≠ "stat_total" := by
  cases p <;> simp only [bucketColumn] <;> (try split) <;> decide

/-- A row counts for its bucket and for the total. -/
theorem counted_eq (r : NodeRow) (col : String) :
    ((r.counted col).toNat : Int) = same r.bucket col + same "stat_total" col := by
  by_cases hcol : col = "stat_total"
  · subst hcol
    have hr : r.bucket ≠ "stat_total" := bucketColumn_ne_total _ _
    simp [NodeRow.counted, same, hr]
  · by_cases hr : r.bucket = col <;> simp [NodeRow.counted, same, hcol, Ne.symm hcol, hr]

/-! ## Columns -/

def statColumns : List String :=
  ["stat_total", "stat_blocked", "stat_scheduled", "stat_ready", "stat_in_progress",
    "stat_succeeded", "stat_failed"]

theorem ScopeStats.column_inProgress : s.column "stat_in_progress" = s.inProgress := by
  simp [ScopeStats.column]

theorem ScopeStats.column_addColumn (c : String) (d : Int) {col : String}
    (hcol : col ∈ statColumns) : (s.addColumn c d).column col = s.column col + d * same c col := by
  by_cases hc : c = col
  · subst hc
    simp only [statColumns, List.mem_cons, List.not_mem_nil, or_false] at hcol
    rcases hcol with rfl | rfl | rfl | rfl | rfl | rfl | rfl <;>
      simp [ScopeStats.column, ScopeStats.addColumn, same]
  · have hzero : same c col = 0 := if_neg hc
    rw [hzero, Int.mul_zero, Int.add_zero]
    unfold ScopeStats.addColumn
    split_ifs <;> subst_vars <;> simp [ScopeStats.column, Ne.symm hc]

theorem sum_same {l : List (Sigma fun _ : String => Int)} (hnd : l.NodupKeys) (col : String) :
    (l.map fun x => x.2 * same x.1 col).sum = (l.dlookup col).getD 0 := by
  induction l with
  | nil => rfl
  | cons x l ih =>
    obtain ⟨c, d⟩ := x
    rw [List.nodupKeys_cons] at hnd
    rw [List.map_cons, List.sum_cons, ih hnd.2]
    by_cases hc : c = col
    · subst hc
      have hnone : l.dlookup c = none := List.dlookup_eq_none.mpr hnd.1
      rw [List.dlookup_cons_eq, hnone]
      simp [same]
    · rw [List.dlookup_cons_ne _ _ (Ne.symm hc)]
      simp [same, hc]

theorem flushed_column (m : GoMap String Int) {col : String} (hcol : col ∈ statColumns) :
    (((m.entries.map fun x => (x.1, x.2)).filter fun d => d.2 ≠ 0).foldl
        (fun st d => st.addColumn d.1 d.2) s).column col =
      s.column col + (m.lookup col).getD 0 := by
  have hfold : ∀ (ds : List (String × Int)) (s : ScopeStats),
      (ds.foldl (fun st d => st.addColumn d.1 d.2) s).column col =
        s.column col + (ds.map fun d => d.2 * same d.1 col).sum := by
    intro ds
    induction ds with
    | nil => simp
    | cons d ds ih =>
      intro s
      rw [List.foldl_cons, ih, ScopeStats.column_addColumn s d.1 d.2 hcol, List.map_cons,
        List.sum_cons]
      omega
  have hfilter : ∀ ds : List (String × Int),
      ((ds.filter fun d => d.2 ≠ 0).map fun d => d.2 * same d.1 col).sum =
        (ds.map fun d => d.2 * same d.1 col).sum := by
    intro ds
    induction ds with
    | nil => rfl
    | cons d ds ih =>
      rw [List.filter_cons]
      split
      · rw [List.map_cons, List.sum_cons, ih, List.map_cons, List.sum_cons]
      next hzero =>
        have hd : d.2 = 0 := by simpa using hzero
        rw [ih, List.map_cons, List.sum_cons, hd]
        omega
  rw [hfold, hfilter, List.map_map]
  exact congrArg _ (sum_same m.nodupKeys col)

namespace Engine

/-- What a counter has to hold at the commit, less its delta so far. -/
def owed (e : Engine) (col : String) : Int :=
  (Table.count e.rows (NodeRow.counted col) : Int) - (e.stats.lookup col).getD 0

/-- Rows and deltas have changed together. -/
structure Even (e e' : Engine) : Prop where
  stored : e'.scopeRow.map ScopeRow.stats = e.scopeRow.map ScopeRow.stats
  owed : ∀ col, e'.owed col = e.owed col

theorem Even.refl (e : Engine) : Even e e := ⟨rfl, fun _ => rfl⟩

theorem Even.trans {e₁ e₂ e₃ : Engine} (h : Even e₁ e₂) (h' : Even e₂ e₃) : Even e₁ e₃ :=
  ⟨h'.stored.trans h.stored, fun col => (h'.owed col).trans (h.owed col)⟩

variable {e e' : Engine}

theorem owed_of_eq (hrows : e'.rows = e.rows) (hstats : e'.stats = e.stats) (col : String) :
    e'.owed col = e.owed col := by
  rw [owed, hrows, hstats, owed]

theorem owed_bump (c : String) (d : Int) (col : String) :
    (e.bump c d).owed col = e.owed col - d * same c col := by
  unfold owed bump same
  by_cases h : c = col
  · subst h
    simp
    omega
  · simp [h, AList.lookup_insert_ne (Ne.symm h)]

theorem owed_moveBucket (s : Status) (p' : Phase) (s' : Status) (col : String) :
    (e.moveBucket p s p' s').owed col =
      e.owed col + same (bucketColumn p s) col - same (bucketColumn p' s') col := by
  unfold moveBucket
  simp only
  split
  · next h =>
      rw [h]
      omega
  · rw [owed_bump, owed_bump]
    omega

theorem owed_insert (hr : e.rows.lookup id = some r)
    (hrows : e'.rows = e.rows.insert id r') (hstats : e'.stats = e.stats) (col : String) :
    e'.owed col = e.owed col - same r.bucket col + same r'.bucket col := by
  have hcount := Table.count_insert_of_some (p := NodeRow.counted col) (v := r') hr
  have hold := counted_eq r col
  have hnew := counted_eq r' col
  rw [owed, owed, hrows, hstats]
  omega

/-- A row moves, and the move is booked from the bucket it was in. -/
theorem Even.of_move {p : Phase} {s : Status}
    (hr : e.rows.lookup id = some r) (hbucket : bucketColumn p s = r.bucket)
    (hrows : e'.rows = e.rows.insert id r')
    (hstats : e'.stats = (e.moveBucket p s r'.phase r'.status).stats)
    (hstored : e'.scopeRow.map ScopeRow.stats = e.scopeRow.map ScopeRow.stats) : Even e e' := by
  refine ⟨hstored, fun col => ?_⟩
  have hmove := owed_moveBucket (e := e) p s r'.phase r'.status col
  have hmoved : (e.moveBucket p s r'.phase r'.status).rows.lookup id = some r := by
    rw [moveBucket_rows]
    exact hr
  have hinsert := owed_insert hmoved (hrows.trans (by rw [moveBucket_rows])) hstats col
  have hbucket' : bucketColumn r'.phase r'.status = r'.bucket := rfl
  rw [hinsert, hmove, hbucket, hbucket']
  omega

theorem Even.of_keep (hr : e.rows.lookup id = some r)
    (hbucket : r'.bucket = r.bucket) (hrows : e'.rows = e.rows.insert id r')
    (hstats : e'.stats = e.stats)
    (hstored : e'.scopeRow.map ScopeRow.stats = e.scopeRow.map ScopeRow.stats) : Even e e' := by
  refine ⟨hstored, fun col => ?_⟩
  rw [owed_insert hr hrows hstats, hbucket]
  omega

/-! ## The cascade -/

/-- Counters and rows have changed together, and rows that moved are in `S` and are named by
an effect. -/
structure Moved (S : ℕ → Prop) (effects : List Effect) (e e' : Engine) : Prop where
  even : Even e e'
  row : ∀ x r, e.rows.lookup x = some r → ∃ r', e'.rows.lookup x = some r' ∧
    r'.nodeID = r.nodeID ∧
      (r'.bucket = r.bucket ∨ S x ∧ ∃ ef ∈ effects, ef.nodeID = r.nodeID)

/-- The caller's copy of a row, as far as the counters are concerned. -/
def Current (e : Engine) (id : ℕ) (n : NodeRow) : Prop :=
  ∃ r, e.rows.lookup id = some r ∧ r.bucket = n.bucket ∧ r.nodeID = n.nodeID

variable {S : ℕ → Prop} {effects effects' : List Effect} {srv : Server}

namespace Moved

theorem refl (S : ℕ → Prop) (effects : List Effect) (e : Engine) : Moved S effects e e :=
  ⟨.refl e, fun _ r hr => ⟨r, hr, rfl, .inl rfl⟩⟩

theorem trans {e₁ e₂ e₃ : Engine} (h : Moved S effects e₁ e₂) (h' : Moved S effects' e₂ e₃)
    (hsub : effects ⊆ effects') : Moved S effects' e₁ e₃ := by
  refine ⟨h.even.trans h'.even, fun x r hr => ?_⟩
  obtain ⟨r₂, hr₂, hid₂, hcase₂⟩ := h.row x r hr
  obtain ⟨r₃, hr₃, hid₃, hcase₃⟩ := h'.row x r₂ hr₂
  refine ⟨r₃, hr₃, hid₃.trans hid₂, ?_⟩
  rcases hcase₃ with heq₃ | ⟨hS, ef, hef, hname⟩
  · rcases hcase₂ with heq₂ | ⟨hS, ef, hef, hname⟩
    · exact .inl (heq₃.trans heq₂)
    · exact .inr ⟨hS, ef, hsub hef, hname⟩
  · exact .inr ⟨hS, ef, hef, hname.trans hid₂⟩

theorem of_row (hr : e.rows.lookup id = some r)
    (hrows : e'.rows = e.rows.insert id r') (hid : r'.nodeID = r.nodeID)
    (hbucket : r'.bucket = r.bucket ∨ S id ∧ ∃ ef ∈ effects, ef.nodeID = r.nodeID)
    (heven : Even e e') : Moved S effects e e' := by
  refine ⟨heven, fun x s hs => ?_⟩
  rw [hrows]
  by_cases hx : x = id
  · subst hx
    obtain rfl := Option.mem_unique hr hs
    exact ⟨r', AList.lookup_insert _, hid, hbucket⟩
  · exact ⟨s, (AList.lookup_insert_ne hx).trans hs, rfl, .inl rfl⟩

theorem current (h : Moved S effects e e') (hn : Current e id n)
    (hunnamed : ¬(S id ∧ ∃ ef ∈ effects, ef.nodeID = n.nodeID)) : Current e' id n := by
  obtain ⟨r, hr, hbucket, hid⟩ := hn
  obtain ⟨r', hr', hid', hcase⟩ := h.row id r hr
  refine ⟨r', hr', ?_, hid'.trans hid⟩
  rcases hcase with heq | hnamed
  · exact heq.trans hbucket
  · rw [hid] at hnamed
    exact absurd hnamed hunnamed

end Moved

theorem resolved_moved {w : ℕ} (status : Status) (reason : Reason)
    (hr : e.rows.lookup w = some r) : Moved S effects e (e.resolved u w status reason) := by
  have heq : e.resolved u w status reason =
      { e with
        edges := e.edges.insert (u, w) true
        rows := e.rows.insert w (told status reason r) } :=
    Tx.updateNode_of_some (e := { e with edges := e.edges.insert (u, w) true }) hr
  rw [heq]
  have hbucket : (told status reason r).bucket = r.bucket := rfl
  exact .of_row hr rfl rfl (.inl hbucket) (.of_keep hr hbucket rfl rfl rfl)

theorem moveBucket_congr {p : Phase} {s : Status} {p' : Phase} {s' : Status}
    (hstats : e'.stats = e.stats) :
    (e'.moveBucket p s p' s').stats = (e.moveBucket p s p' s').stats := by
  unfold moveBucket
  simp only
  split
  · exact hstats
  · simp only [bump, hstats]

@[simp] theorem moveBucket_scopeRow (s : Status) (p' : Phase) (s' : Status) :
    (e.moveBucket p s p' s').scopeRow = e.scopeRow := by
  unfold moveBucket
  simp only
  split <;> rfl

theorem makeReady_moved (hn : Current e id n) (hS : S id) :
    Moved S (effects ++ [(e.makeReady srv id n).1]) e (e.makeReady srv id n).2 := by
  obtain ⟨r, hr, hbucket, hid⟩ := hn
  have hrows : (e.makeReady srv id n).2.rows =
      e.rows.insert id (readied (srv.fifo e.fifos) r) := by
    simp only [makeReady, insertEvent, moveBucket_rows, Tx.updateNode_of_some hr]
    rfl
  apply Moved.of_row hr hrows rfl
  · refine .inr ⟨hS, _, List.mem_append_right _ (List.mem_singleton_self _), ?_⟩
    rw [makeReady_nodeID, hid]
  apply Even.of_move (p := n.phase) (s := n.status) hr hbucket.symm hrows
  · simp only [makeReady, insertEvent, Tx.updateNode_of_some hr]
    exact moveBucket_congr rfl
  · simp only [makeReady, insertEvent, Tx.updateNode_of_some hr, moveBucket_scopeRow]

theorem finish_moved {it : TerminateItem} (hn : e.rows.lookup it.id = some n)
    (hS : S it.id) :
    Moved S (effects ++ [(e.finish srv it n).1]) e (e.finish srv it n).2 := by
  have hrows : (e.finish srv it n).2.rows = e.rows.insert it.id (finished it n) := by
    simp only [finish, insertEvent, moveBucket_rows, Tx.updateNode_of_some hn]
    rfl
  apply Moved.of_row hn hrows rfl
  · exact .inr ⟨hS, _, List.mem_append_right _ (List.mem_singleton_self _), rfl⟩
  apply Even.of_move (p := n.phase) (s := n.status) hn rfl hrows
  · simp only [finish, insertEvent, Tx.updateNode_of_some hn]
    exact moveBucket_congr rfl
  · simp only [finish, insertEvent, Tx.updateNode_of_some hn, moveBucket_scopeRow]

theorem cascadeOne_moved {w : ℕ} {succ : NodeRow} (hn : Current e w succ)
    (hS : e.edges.lookup (u, w) = some false → S w) :
    Moved S (cascadeOne srv u status reason w succ e queue effects).2.2 e
      (cascadeOne srv u status reason w succ e queue effects).1 := by
  have hcases : Cascaded srv u status reason w succ e queue effects _ :=
    cascadeOne_cascaded u status reason w succ
  have hcurrent := hn
  obtain ⟨r, hr, -⟩ := hn
  generalize cascadeOne srv u status reason w succ e queue effects = x at hcases
  cases hcases with
  | skip => exact .refl S effects e
  | tell | enqueue => exact resolved_moved status reason hr
  | release hopen =>
    have htold : Moved S [] e (e.resolved u w status reason) := resolved_moved status reason hr
    have hsucc := htold.current hcurrent (by simp)
    exact htold.trans (makeReady_moved hsucc (hS hopen)) (List.nil_subset _)

theorem cascadeLoop_moved {succs : List (ℕ × NodeRow)}
    (hnd : (succs.map Prod.fst).Nodup) (hn : ∀ x ∈ succs, Current e x.1 x.2)
    (hS : ∀ x ∈ succs, e.edges.lookup (u, x.1) = some false → S x.1) :
    Moved S (cascadeLoop srv u status reason succs e queue effects).2.2 e
      (cascadeLoop srv u status reason succs e queue effects).1 := by
  induction succs generalizing e queue effects with
  | nil => exact .refl S effects e
  | cons x succs ih =>
    obtain ⟨w, succ⟩ := x
    rw [List.map_cons, List.nodup_cons] at hnd
    have hone : Moved S (cascadeOne srv u status reason w succ e queue effects).2.2 e
        (cascadeOne srv u status reason w succ e queue effects).1 :=
      cascadeOne_moved (hn _ (.head _)) (hS _ (.head _))
    -- the other successors are not touched
    obtain ⟨hframe, -⟩ :
        Touches (· = w) e effects (cascadeOne srv u status reason w succ e queue effects).1 _ ∧ _ :=
      cascadeOne_touches fun _ => rfl
    have hn₁ : ∀ y ∈ succs,
        Current (cascadeOne srv u status reason w succ e queue effects).1 y.1 y.2 := by
      intro y hy
      obtain ⟨r, hr, hcopy⟩ := hn y (.tail _ hy)
      have hne : y.1 ≠ w := by
        rintro rfl
        exact hnd.1 (List.mem_map.mpr ⟨y, hy, rfl⟩)
      exact ⟨r, (hframe.row y.1 hne).trans hr, hcopy⟩
    refine hone.trans (ih hnd.2 hn₁ fun y hy hopen => ?_) cascadeLoop_appended.subset
    exact hS y (.tail _ hy) (hframe.open_of_open hopen)

theorem terminateLoop_moved {fuel : ℕ} (hS : Absorbs S e) (hq : ∀ it ∈ queue, S it.id) :
    Moved S (terminateLoop srv fuel queue e effects).2 e
      (terminateLoop srv fuel queue e effects).1 := by
  induction fuel generalizing e queue effects with
  | zero => exact .refl S effects e
  | succ fuel ih =>
    cases queue with
    | nil => exact .refl S effects e
    | cons it queue =>
      obtain ⟨hit, htail⟩ := List.forall_mem_cons.mp hq
      rw [terminateLoop]
      cases hn : e.loadForUpdate it.id with
      | none => exact ih hS htail
      | some n =>
        simp only
        split
        · exact ih hS htail
        have hfin : Moved S (effects ++ [(e.finish srv it n).1]) e (e.finish srv it n).2 :=
          finish_moved hn hit
        have hfan : ∀ st, (e.finish srv it n).2.cascadeSuccessors srv queue it.id it.status
            it.reason (effects ++ [(e.finish srv it n).1]) = st →
            Moved S st.2.2 (e.finish srv it n).2 st.1 := by
          rintro _ rfl
          apply cascadeLoop_moved (successorsForUpdate_nodup _ it.id)
          · exact fun x hx => ⟨x.2, (mem_successorsForUpdate.mp hx).2, rfl, rfl⟩
          · intro x _ hopen
            rw [finish_edges] at hopen
            exact hS it.id x.1 hit hopen
        obtain ⟨hround, hq'⟩ := round_touches hS hit htail
        exact (hfin.trans (hfan _ rfl) cascadeLoop_appended.subset).trans
          (ih (hround.absorbs hS) hq') terminateLoop_appended.subset

theorem terminate_moved {root : ℕ} {message : String}
    (hS : Absorbs S e) (hroot : S root) :
    Moved S (e.terminate srv root status reason message).2 e
      (e.terminate srv root status reason message).1 := by
  apply terminateLoop_moved hS
  intro it hit
  rw [List.mem_singleton.mp hit]
  exact hroot

/-! ## Settling -/

def Unique (e : Engine) : Prop :=
  ∀ x y r s, e.rows.lookup x = some r → e.rows.lookup y = some s → r.nodeID = s.nodeID → x = y

/-- Nothing is reported, and only the row of `id` has moved. -/
structure Alone (id : ℕ) (e e' : Engine) : Prop where
  even : Even e e'
  row : ∀ x, x ≠ id → e'.rows.lookup x = e.rows.lookup x
  own : ∀ r, e.rows.lookup id = some r → ∃ r', e'.rows.lookup id = some r' ∧ r'.nodeID = r.nodeID

theorem makeBlocked_alone (hn : Current e id n) :
    Alone id e (e.makeBlocked id n) := by
  obtain ⟨r, hr, hbucket, -⟩ := hn
  have hrows : (e.makeBlocked id n).rows =
      e.rows.insert id { r with phase := .blocked, status := .new } := by
    simp only [makeBlocked, moveBucket_rows, Tx.updateNode_of_some hr]
  constructor
  · apply Even.of_move (p := n.phase) (s := n.status) hr hbucket.symm hrows
    · simp only [makeBlocked, Tx.updateNode_of_some hr]
      exact moveBucket_congr rfl
    · simp only [makeBlocked, Tx.updateNode_of_some hr, moveBucket_scopeRow]
  · intro x hx
    rw [hrows, AList.lookup_insert_ne hx]
  · intro s hs
    obtain rfl := Option.mem_unique hr hs
    refine ⟨{ r with phase := .blocked, status := .new }, ?_, rfl⟩
    rw [hrows]
    exact AList.lookup_insert _

/-- What settling a node does, from a current copy of its row. -/
theorem settle_cases (hn : Current e id n) :
    Moved (fun _ => True) (e.settle srv id n).2 e (e.settle srv id n).1 ∨
      (e.settle srv id n).2 = [] ∧ Alone id e (e.settle srv id n).1 := by
  have hrefl : Moved (fun _ => True) [] e e := .refl _ _ e
  unfold settle
  split
  · exact .inl hrefl
  split
  · exact .inl (terminate_moved (fun _ _ _ _ => trivial) trivial)
  split
  · split
    · have hready : Moved (fun _ => True) ([] ++ [(e.makeReady srv id n).1]) e _ :=
        makeReady_moved hn trivial
      exact .inl hready
    · exact .inl hrefl
  · split
    · exact .inr ⟨rfl, makeBlocked_alone hn⟩
    · exact .inl hrefl

theorem settle_even (hn : Current e id n) :
    Even e (e.settle srv id n).1 := by
  rcases settle_cases hn with h | ⟨-, h⟩
  · exact h.even
  · exact h.even

/-- A settle that names no other node leaves the copies of the others current. -/
theorem settle_current (hu : e.Unique) (hn : Current e id n)
    (hnames : ∀ ef ∈ (e.settle srv id n).2, ef.nodeID = n.nodeID) {x : ℕ} {m : NodeRow}
    (hx : x ≠ id) (hm : Current e x m) : Current (e.settle srv id n).1 x m := by
  rcases settle_cases hn with h | ⟨-, h⟩
  · apply h.current hm
    rintro ⟨-, ef, hef, hname⟩
    obtain ⟨r, hr, -, hrid⟩ := hn
    obtain ⟨s, hs, -, hsid⟩ := hm
    have hsame : s.nodeID = r.nodeID := by
      rw [hsid, hrid, ← hname, hnames ef hef]
    exact hx (hu x id s r hs hr hsame)
  · obtain ⟨s, hs, hcopy⟩ := hm
    exact ⟨s, (h.row x hx).trans hs, hcopy⟩

theorem settle_unique (hu : e.Unique) (hn : Current e id n) :
    (e.settle srv id n).1.Unique := by
  have hforward : ∀ x r, e.rows.lookup x = some r →
      ∃ r', (e.settle srv id n).1.rows.lookup x = some r' ∧ r'.nodeID = r.nodeID := by
    intro x r hr
    rcases settle_cases hn with h | ⟨-, h⟩
    · obtain ⟨r', hr', hid, -⟩ := h.row x r hr
      exact ⟨r', hr', hid⟩
    by_cases hx : x = id
    · subst hx
      exact h.own r hr
    · exact ⟨r, (h.row x hx).trans hr, rfl⟩
  have hback : ∀ x r', (e.settle srv id n).1.rows.lookup x = some r' →
      ∃ r, e.rows.lookup x = some r ∧ r'.nodeID = r.nodeID := by
    intro x r' hr'
    have hsome : (e.rows.lookup x).isSome := by
      rw [← settle_isSome, hr']
      rfl
    obtain ⟨r, hr⟩ := Option.isSome_iff_exists.mp hsome
    obtain ⟨r'', hr'', hid⟩ := hforward x r hr
    obtain rfl := Option.mem_unique hr'' hr'
    exact ⟨r, hr, hid⟩
  intro x y r' s' hr' hs' hname
  obtain ⟨r, hr, hrid⟩ := hback x r' hr'
  obtain ⟨s, hs, hsid⟩ := hback y s' hs'
  exact hu x y r s hr hs (hrid.symm.trans (hname.trans hsid))

/-- A snapshot is used only as long as it is current. -/
theorem settleLoop_even {snapshots : GoMap ℕ NodeRow} {stale : Bool} (hu : e.Unique)
    (hnd : ids.Nodup)
    (hsnap : stale = false → ∀ id ∈ ids, ∀ n, snapshots.lookup id = some n → Current e id n) :
    Even e (settleLoop srv snapshots ids stale e).1 := by
  induction ids generalizing e stale with
  | nil => exact .refl e
  | cons id ids ih =>
    rw [List.nodup_cons] at hnd
    rw [settleLoop]
    cases hlookup : snapshots.lookup id with
    | none =>
      exact ih hu hnd.2 fun h x hx => hsnap h x (.tail _ hx)
    | some n =>
      simp only [settleOne]
      cases stale with
      | true =>
        cases hrow : e.loadForUpdate id with
        | none => exact ih hu hnd.2 (by simp)
        | some m =>
          have hm : Current e id m := ⟨m, hrow, rfl, rfl⟩
          exact (settle_even hm).trans (ih (settle_unique hu hm) hnd.2 (by simp))
      | false =>
        have hn : Current e id n := hsnap rfl id (.head _) n hlookup
        simp only [Bool.false_eq_true, if_false, Bool.false_or]
        apply (settle_even hn).trans
        apply ih (settle_unique hu hn) hnd.2
        intro hquiet x hx m hm
        apply settle_current hu hn
        · intro ef hef
          rw [List.any_eq_false] at hquiet
          simpa using hquiet ef hef
        · rintro rfl
          exact hnd.1 hx
        · exact hsnap rfl x (.tail _ hx) m hm

theorem settleTouched_even (hu : e.Unique) (hnd : ids.Nodup) :
    Even e (e.settleTouched srv ids).1 := by
  unfold settleTouched
  split
  · exact .refl e
  apply settleLoop_even hu hnd
  intro _ id hid n hn
  rw [snapshotsOf_loadMany hnd hid] at hn
  exact ⟨n, hn, rfl, rfl⟩

end Engine
end DagWorker.Postgres
