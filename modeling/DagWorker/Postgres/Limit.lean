import DagWorker.Postgres.Books

/-!
# The limit of leases in flight

Claims of one scope run concurrently.  A claim reads the counter of leases in flight at one
point and writes it at another, so that the limit holds as long as the counter has not
grown when the claim commits.
-/

namespace DagWorker.Postgres

variable {seen : ScopeRow}

namespace Book

variable {k : ℕ} {b : Book} {db : Db} {own own' : Own} {srv : Server}

/-! ## Granting -/

/-- A statement that neither writes nor books. -/
theorem Holds.unwritten (h : b.clear.Holds k db own) (hguarded : own'.Guarded)
    (hwrites : own'.writes = own.writes) (hstats : own'.stats = own.stats) :
    Book.Holds k { b.clear with last := own'.lastScope } db own' := by
  refine h.advance hguarded (hwrites.trans (List.append_nil _).symm) (by simp) (fun col => ?_) ?_
    rfl fun _ _ hr => hr.elim
  · have hrows : (own'.engine db).rows = (own.engine db).rows := by
      simp only [Own.engine, Own.view, hwrites]
    rw [Engine.owed_of_eq hrows hstats]
    simp only [Book.clear]
    omega
  · rw [Own.pending, hstats]
    exact h.top

/-- One more lease in flight. -/
def raise (b : Book) : Book := { b with top := b.top + 1 }

/-- A ready row was claimed, and the move is not booked yet. -/
def granted (b : Book) : Book :=
  { b.clear with off := fun col => b.off col - same "stat_ready" col + same "stat_in_progress" col }

variable {α : Type} {Q : α → Db → Own → Prop} {cfg : ScopeConfig} {sc : ScopeRow}
  {kinds : List String} {workerID : String} {leaseFor : Int}

theorem leads_claimStmt {g : Option (ℕ × NodeRow) → Tx α} (hnone : b.clear.Leads k srv (g none) Q)
    (hsome : ∀ id n, n.phase = .claimed → n.status = .inProgress →
      b.granted.Leads k srv (g (some (id, n))) Q) :
    b.clear.Leads k srv (Tx.query (.claim kinds workerID leaseFor) >>= g) Q := by
  apply leads_query
  intro a snap db own n own' hdb hamid
  have hguarded := Stmt.amid_guarded hamid hdb.guarded
  obtain ⟨ws, l, hperform, heq⟩ := Stmt.amid_cases hamid
  simp only [Stmt.perform, Option.bind_eq_bind, Option.bind_eq_some_iff] at hperform
  obtain ⟨ids, hids, hperform⟩ := hperform
  split at hperform
  · cases hperform
    have hsame := hdb.unwritten hguarded (by rw [heq, List.append_nil]) (by rw [heq]; rfl)
    have hlast : own'.lastScope = b.clear.last := by
      rw [heq]
      exact hdb.last
    rw [hlast] at hsame
    exact ⟨_, hnone, hsame⟩
  · next id r rest hrows =>
      split at hperform
      · cases hperform
        obtain ⟨hrow, hphase⟩ := Answer.ready_of_skipLocked hrows hids
        have hview : (own'.view db).rows = (own.view db).rows.insert id
            (claimedRow workerID (a.clock 0 + leaseFor) r) := by
          rw [heq, Own.view, Db.applyAll_append]
          rfl
        refine ⟨_, hsome _ _ rfl rfl,
          hdb.advance hguarded (by rw [heq]) ?_ (fun col => ?_) ?_ ?_ ?_⟩
        · intro w hw sc hsc
          rw [List.mem_singleton.mp hw] at hsc
          cases hsc
        · have howed : (own'.engine db).owed col = (own.engine db).owed col - same r.bucket col +
              same (claimedRow workerID (a.clock 0 + leaseFor) r).bucket col :=
            Engine.owed_insert hrow hview (by rw [heq]; rfl) col
          have hold : r.bucket = "stat_ready" := by
            simp [NodeRow.bucket, hphase, bucketColumn]
          have hnew : (claimedRow workerID (a.clock 0 + leaseFor) r).bucket =
              "stat_in_progress" := rfl
          rw [howed, hold, hnew]
          simp only [granted, Book.clear]
          omega
        · rw [heq]
          exact hdb.top
        · rw [heq]
          exact hdb.last
        · exact fun _ _ hr => hr.elim
      · cases hperform

theorem leads_claimOne : b.clear.Leads k srv (Tx.claimOne kinds leaseFor workerID) fun n =>
    (if n.isSome then b.raise else b).clear.Holds k := by
  apply leads_claimStmt
  · exact Setting.triple_ret (stable k _ srv) fun h => h
  intro id n hphase hstatus
  apply turns_moveBucket.bind
  intro _
  apply (turns_quiet (s := .insertEvent _) trivial).bind
  refine fun ef => Setting.triple_ret (stable k _ srv) fun h => ?_
  rw [hphase, hstatus] at h
  refine h.weaken ?_ rfl ?_ fun _ _ hr => hr
  · simp [move, raise, granted, Book.clear, bucketColumn, same]
  · funext col
    simp only [move, raise, granted, Book.clear, bucketColumn, Option.isSome_some, if_true]
    omega

/-- The book after the counter was read. -/
def counting (b : Book) (sc : ScopeRow) (v : Int) : Book :=
  { b.clear with last := some sc, top := v - sc.stats.inProgress }

theorem Holds.view_scopeRow (h : b.Holds k db own) : (own.view db).scopeRow = db.scopeRow :=
  Db.applyAll_scopeRow h.plain db

theorem leads_inProgress {g : Int → Tx α}
    (hg : ∀ sc : ScopeRow, Leads k srv { b.clear with last := some sc } (g sc.stats.inProgress) Q) :
    b.clear.Leads k srv (Tx.query .inProgress >>= g) Q := by
  apply leads_query
  intro a snap db own v own' hdb hamid
  have hguarded := Stmt.amid_guarded hamid hdb.guarded
  obtain ⟨ws, l, hperform, heq⟩ := Stmt.amid_cases hamid
  simp only [Stmt.perform] at hperform
  split at hperform
  · cases hperform
  next sc hsc =>
    cases hperform
    have hsame := hdb.unwritten hguarded (by rw [heq, List.append_nil]) (by rw [heq]; rfl)
    have hlast : own'.lastScope = some sc := by
      rw [heq]
      exact hsc
    rw [hlast] at hsame
    exact ⟨_, hg sc, hsame⟩

theorem leads_inFlight (hcfg : 0 < cfg.maxInFlight) (hb : b.top = 0) :
    b.clear.Leads k srv (Tx.inFlight cfg) fun v db own =>
      ∃ sc, v ≤ sc.stats.inProgress ∧ (b.counting sc v).Holds k db own := by
  unfold Tx.inFlight
  rw [if_pos hcfg]
  apply leads_inProgress
  intro sc
  apply leads_query
  intro a snap db own v own' hdb hamid
  have hquiet := (hdb.quiet (s := .pendingStat "stat_in_progress") trivial hamid).1
  obtain ⟨ws, l, hperform, heq⟩ := Stmt.amid_cases hamid
  cases hperform
  have hv : own'.pending "stat_in_progress" = own.pending "stat_in_progress" := by
    rw [heq]
    rfl
  have hlow : own.pending "stat_in_progress" ≤ 0 := hdb.top.trans hb.le
  refine ⟨b.counting sc (sc.stats.inProgress + own.pending "stat_in_progress"),
    Setting.triple_ret (stable_exists _ _) fun h => ⟨sc, add_le_of_nonpos_right hlow, h⟩,
    hquiet.within, hquiet.guarded, hquiet.plain, hquiet.owed, ?_, hquiet.last, hquiet.held⟩
  simp only [counting]
  omega

/-- The bound of the delta after the grants. -/
def Modest (k : ℕ) (sc : ScopeRow) (top : Int) : Prop := top ≤ 0 ∨ sc.stats.inProgress + top ≤ k

theorem leads_grantLoop {req : ClaimRequest} {left : ℕ} {v : Int} {res : ClaimResult}
    (hcfg : cfg.maxInFlight = k) (hk : 0 < k) (hv : sc.stats.inProgress + b.top ≤ v)
    (hmodest : Modest k sc b.top) :
    b.clear.Leads k srv (Tx.grantLoop cfg req left v res) fun _ db own =>
      ∃ top, Modest k sc top ∧ Book.Holds k { b.clear with top := top } db own := by
  have hdone : ∀ {b : Book} {x : ClaimResult}, Modest k sc b.top →
      b.clear.Leads k srv (pure x) fun _ db own =>
        ∃ top, Modest k sc top ∧ Book.Holds k { b.clear with top := top } db own :=
    fun hmodest => Setting.triple_ret (stable_exists _ _) fun h => ⟨_, hmodest, h⟩
  induction left generalizing b v res with
  | zero => exact hdone hmodest
  | succ left ih =>
    rw [Tx.grantLoop]
    split
    · exact hdone hmodest
    next hroom =>
      apply leads_claimOne.bind
      intro n
      cases n with
      | none => exact hdone hmodest
      | some x =>
        refine ih (b := b.raise) ?_ (.inr ?_)
        all_goals
          simp only [raise]
          omega

end Book

/-! ## Writing the counter -/

/-- What `flushCounters` adds to the counter of leases in flight. -/
theorem flushed_inProgress (s : ScopeStats) (m : GoMap String Int) :
    (((m.entries.map fun x => (x.1, x.2)).filter fun d => d.2 ≠ 0).foldl
        (fun st d => st.addColumn d.1 d.2) s).inProgress =
      s.inProgress + (m.lookup "stat_in_progress").getD 0 := by
  have hcol : "stat_in_progress" ∈ statColumns := by decide
  have hflush := flushed_column s m hcol
  rwa [ScopeStats.column_inProgress, ScopeStats.column_inProgress] at hflush

namespace Book

variable {k : ℕ} {b : Book} {db db' snap : Db} {own own' : Own} {srv : Server} {d : Int}

/-- The deltas are taken out, and the counter has still to get `d`. -/
structure Closing (k : ℕ) (d : Int) (last : Option ScopeRow) (db : Db) (own : Own) : Prop where
  within : db.Within k
  guarded : own.Guarded
  plain : ∀ w ∈ own.writes, ∀ sc, w ≠ .scopeRow sc
  claimed : ((own.view db).claimed : Int) = db.claimed + d
  last : own.lastScope = last

structure Flushed (k : ℕ) (d : Int) (last : Option ScopeRow) (db : Db) (own : Own) : Prop where
  within : db.Within k
  guarded : own.Guarded
  locked : Lock.scopeRow ∈ own.locks
  scope : ∃ sc sc', db.scopeRow = some sc ∧ (own.view db).scopeRow = some sc' ∧
    sc'.cfg = sc.cfg ∧ sc'.stats.inProgress = sc.stats.inProgress + d
  claimed : ((own.view db).claimed : Int) = db.claimed + d
  last : own.lastScope = last

theorem claimed_view (hguarded : own.Guarded) (hagree : Db.Agree own.locks db db') :
    ((own.view db').claimed : Int) - db'.claimed = (own.view db).claimed - db.claimed := by
  have hcount := hguarded.count_view hagree (NodeRow.counted "stat_in_progress")
  rw [← Db.claimed_eq, ← Db.claimed_eq, ← Db.claimed_eq, ← Db.claimed_eq] at hcount
  exact hcount

theorem closing_stable (k : ℕ) (d : Int) (last : Option ScopeRow) (srv : Server) :
    (amidClaims k srv).Stable (Closing k d last) := by
  rintro db db' own ⟨hagree, hwithin⟩ h
  have hview := claimed_view h.guarded hagree
  have hclaimed := h.claimed
  exact ⟨hwithin h.within, h.guarded, h.plain, by omega, h.last⟩

theorem flushed_stable (k : ℕ) (d : Int) (last : Option ScopeRow) (srv : Server) :
    (amidClaims k srv).Stable (Flushed k d last) := by
  rintro db db' own ⟨hagree, hwithin⟩ h
  have hview := claimed_view h.guarded hagree
  have hclaimed := h.claimed
  have hsame := hagree.scopeRow h.locked
  refine ⟨hwithin h.within, h.guarded, h.locked, ?_, by omega, h.last⟩
  rw [hsame, Own.view, Db.applyAll_scopeRow_congr hsame]
  exact h.scope

/-- A commit stays within the limit, if the counter has not grown since it was read. -/
def Bounded (k : ℕ) (db : Db) (own : Own) : Prop :=
  (∀ sc seen, db.scopeRow = some sc → own.lastScope = some seen →
    sc.stats.inProgress ≤ seen.stats.inProgress) → (own.view db).Within k

theorem Flushed.bounded (h : Flushed k d (some seen) db own) (hmodest : Modest k seen d) :
    Bounded k db own := by
  intro hfresh
  obtain ⟨sc, sc', hsc, hsc', hcfg, hstat⟩ := h.scope
  obtain ⟨sc₁, hsc₁, hk, hle⟩ := h.within.scope
  obtain rfl := Option.mem_unique hsc hsc₁
  have hclaimed := h.claimed
  have hlimit := h.within.le
  have hcounter := hfresh sc seen hsc h.last
  refine ⟨⟨sc', hsc', ?_, by omega⟩, ?_⟩
  · rw [hcfg]
    exact hk
  · rcases hmodest with hlow | hroom
    · omega
    · omega

theorem Closing.bounded {last : Option ScopeRow} (h : Closing k 0 last db own) :
    Bounded k db own := by
  intro _
  obtain ⟨sc, hsc, hk, hle⟩ := h.within.scope
  have hclaimed := h.claimed
  have hlimit := h.within.le
  refine ⟨⟨sc, ?_, hk, by omega⟩, by omega⟩
  exact (Db.applyAll_scopeRow h.plain db).trans hsc

theorem leads_takeStats (hoff : b.off = fun _ => 0) :
    b.Leads k srv Tx.takeStats fun ds db own => ∃ m : GoMap String Int,
      ds = (m.entries.map fun x => (x.1, x.2)) ∧ (m.lookup "stat_in_progress").getD 0 ≤ b.top ∧
        Closing k ((m.lookup "stat_in_progress").getD 0) b.last db own := by
  intro db own h
  refine Pact.ensures_query (stable k b srv) ?_ h ?_
  · rintro ds st st' t hrely ⟨m, hds, htop, hc⟩
    exact ⟨m, hds, htop, closing_stable k _ _ srv _ _ _ hrely hc⟩
  intro a snap db' ds own' _ _ hdb hamid
  have hguarded := Stmt.amid_guarded hamid hdb.guarded
  obtain ⟨ws, l, hperform, heq⟩ := Stmt.amid_cases hamid
  cases hperform
  have hwrites : own'.writes = own.writes := by
    rw [heq]
    exact List.append_nil _
  have howed := hdb.owed "stat_in_progress"
  refine ⟨own.stats, rfl, hdb.top, hdb.within, hguarded, ?_, ?_, ?_⟩
  · rw [hwrites]
    exact hdb.plain
  · rw [hoff] at howed
    simp only [Engine.owed, Own.engine, Own.view, ← Db.claimed_eq] at howed
    rw [Own.view, hwrites]
    omega
  · rw [heq]
    exact hdb.last

theorem triple_addStats {last : Option ScopeRow} {ds : List (String × Int)}
    (hds : ∀ s : ScopeStats, (ds.foldl (fun st x => st.addColumn x.1 x.2) s).inProgress =
      s.inProgress + d) :
    (amidClaims k srv).Triple (Closing k d last) (Tx.addStats ds) fun _ => Flushed k d last := by
  intro db own h
  apply Pact.ensures_query (closing_stable k d last srv) (fun _ => flushed_stable k d last srv) h
  intro a snap db' n own' _ _ hdb hamid
  have hguarded := Stmt.amid_guarded hamid hdb.guarded
  obtain ⟨ws, l, hperform, heq⟩ := Stmt.amid_cases hamid
  cases hperform
  obtain ⟨sc, hsc, -⟩ := hdb.within.scope
  have hsees : ((Stmt.addStats ds).sees snap db' own).scopeRow = some sc :=
    (Db.applyAll_scopeRow hdb.plain db').trans hsc
  have hview : own'.view db' = (own.view db').apply (.scopeRow { sc with
      stats := ds.foldl (fun st x => st.addColumn x.1 x.2) sc.stats }) := by
    rw [heq, Own.view, Db.applyAll_append, Stmt.updateScope, hsees]
    rfl
  refine ⟨hdb.within, hguarded, ?_, ?_, ?_, ?_⟩
  · rw [heq]
    apply List.mem_append_right
    rw [Stmt.locks, Engine.scopeLock, hsees]
    exact List.mem_singleton_self _
  · refine ⟨sc, { sc with stats := ds.foldl (fun st x => st.addColumn x.1 x.2) sc.stats }, hsc, ?_,
      rfl, hds sc.stats⟩
    rw [hview]
    rfl
  · rw [hview]
    exact hdb.claimed
  · rw [heq]
    exact hdb.last

/-- Whether or not there was a delta to be written. -/
def Finished (k : ℕ) (db : Db) (own : Own) : Prop :=
  (∃ last, Closing k 0 last db own) ∨
    ∃ d seen, Modest k seen d ∧ Flushed k d (some seen) db own

theorem finished_stable (k : ℕ) (srv : Server) : (amidClaims k srv).Stable (Finished k) := by
  rintro db db' own hrely (⟨last, h⟩ | ⟨d, seen, hmodest, h⟩)
  · exact .inl ⟨last, closing_stable k 0 last srv _ _ _ hrely h⟩
  · exact .inr ⟨d, seen, hmodest, flushed_stable k d _ srv _ _ _ hrely h⟩

theorem Finished.bounded (h : Finished k db own) : Bounded k db own := by
  rcases h with ⟨last, h⟩ | ⟨d, seen, hmodest, h⟩
  · exact h.bounded
  · exact h.bounded hmodest

theorem leads_finalize (hoff : b.off = fun _ => 0) (hlast : b.last = some seen)
    (hmodest : Modest k seen b.top) : b.Leads k srv Tx.finalize fun _ => Finished k := by
  apply (leads_takeStats hoff).bind
  rintro ds db own ⟨m, rfl, htop, hclosing⟩
  have hadd := fun s => flushed_inProgress s m
  have hlow : Modest k seen ((m.lookup "stat_in_progress").getD 0) := by
    unfold Modest at hmodest ⊢
    omega
  dsimp only
  split
  · next hempty =>
      have hzero : (m.lookup "stat_in_progress").getD 0 = 0 := by
        have hnone := hadd {}
        rw [List.isEmpty_iff.mp hempty] at hnone
        simpa using hnone.symm
      rw [hzero] at hclosing
      exact Setting.ensures_ret (finished_stable k srv) (.inl ⟨b.last, hclosing⟩)
  · rw [hlast] at hclosing
    exact (triple_addStats hadd).post (fun h => .inr ⟨_, seen, hlow, h⟩) db own hclosing

/-! ## Claims -/

theorem holds_new (hwithin : db.Within k) : Book.Holds k {} db {} := by
  refine ⟨hwithin, fun w hw => absurd hw List.not_mem_nil, fun w hw => absurd hw List.not_mem_nil,
    fun col => ?_, le_rfl, rfl, fun _ _ hr => hr.elim⟩
  rfl

theorem leads_loadScope {α : Type} {Q : α → Db → Own → Prop} {g : Option ScopeRow → Tx α}
    (hg : ∀ row : ScopeRow, row.cfg.resolved.maxInFlight = k →
      Leads k srv { b.clear with last := some row } (g (some row)) Q) :
    b.clear.Leads k srv (Tx.loadScope >>= g) Q := by
  apply leads_query
  intro a snap db own sc own' hdb hamid
  have hguarded := Stmt.amid_guarded hamid hdb.guarded
  obtain ⟨ws, l, hperform, heq⟩ := Stmt.amid_cases hamid
  cases hperform
  obtain ⟨row, hrow, hk, -⟩ := hdb.within.scope
  have hsees : (Stmt.loadScope.sees snap db own).scopeRow = some row :=
    hdb.view_scopeRow.trans hrow
  have hsame := hdb.unwritten hguarded (by rw [heq, List.append_nil]) (by rw [heq]; rfl)
  have hlast : own'.lastScope = some row := by
    rw [heq]
    exact hsees
  rw [hlast] at hsame
  rw [hsees]
  exact ⟨_, hg row hk, hsame⟩

/-- A claim amid claims ends with books that stay within the limit. -/
theorem leads_claim (hk : 0 < k) (fuel : ℕ) (req : ClaimRequest) :
    Leads k srv {} (Tx.claim fuel req) fun _ => Finished k := by
  apply leads_loadScope (b := {})
  intro row hcfg
  apply (turns_reclaimExpired (b := { last := some row })).bind
  intro reclaimed
  apply turns_promoteScheduled.bind
  intro promoted
  have hloop : Leads k srv (Book.clear { last := some row })
      (Tx.claimLoop row.cfg.resolved req (max req.max 1).toNat) fun _ db own =>
      ∃ seen top, Modest k seen top ∧ Book.Holds k { top := top, last := some seen } db own := by
    apply (leads_inFlight (hcfg ▸ hk) rfl).bind
    rintro v db own ⟨seen, hle, h⟩
    refine (leads_grantLoop (b := counting { last := some row } seen v) hcfg hk ?_
      (.inl ?_)).post (fun h => ⟨seen, h⟩) db own h
    all_goals
      simp only [counting]
      omega
  apply hloop.bind
  rintro res db own ⟨seen, top, hmodest, h⟩
  apply (leads_finalize rfl rfl hmodest db own h).bind
  exact fun _ db own h => Setting.ensures_ret (finished_stable k srv) h

end Book

/-! ## Concurrent claims -/

def Action.claims : Action → Bool
  | .begin (.operation (.claim _)) _ _ _ _ => true
  | .begin _ _ _ _ _ => false
  | _ => true

/-- A transaction commits only if the counter of leases in flight is at most what the
transaction has read. -/
def World.fresh (w : World) : Action → Bool
  | .commit i =>
    (w.sessions[i]?).all fun s => w.db.scopeRow.all fun sc => s.own.lastScope.all fun seen =>
      sc.stats.inProgress ≤ seen.stats.inProgress
  | _ => true

/-- **Concurrent claims and the limit.**  In every run of claims in which no claim commits
after the counter has grown beyond what it read, the claimed nodes stay within the limit. -/
theorem claims_within_limit {k : ℕ} {db : Db} (hk : 0 < k) (hwithin : db.Within k) {w : World}
    (hrun : Relation.ReflTransGen
      (Actions.Takes World.act fun w a => a.claims && w.fresh a) { db := db } w) :
    w.db.claimed ≤ k := by
  have hstart : ∀ (w : World) t fuel scope defaults srv, w.db.Within k →
      ((Action.begin t fuel scope defaults srv).claims &&
        w.fresh (.begin t fuel scope defaults srv)) = true →
      (Book.amidClaims k srv).Ensures (fun _ => Book.Finished k)
        (t.program fuel scope defaults) w.db {} := by
    intro w t fuel scope defaults srv hdb hok
    rw [Bool.and_eq_true] at hok
    cases t with
    | statement s => cases hok.1
    | operation op =>
      cases op with
      | claim req =>
        exact Setting.Ensures.map (Q := fun _ => Book.Finished k) (f := Reply.claimed)
          (Book.leads_claim hk fuel req w.db {} (Book.holds_new hdb))
      | _ => cases hok.1
  have hcommit : ∀ (w : World) i s r, w.db.Within k → w.sessions[i]? = some s →
      s.prog = Dialogue.ret r → ((Action.commit i).claims && w.fresh (.commit i)) = true →
      Book.Finished k w.db s.own → (s.own.view w.db).Within k ∧
        ∀ t ∈ w.sessions.eraseIdx i, w.db.Within k → (s.own.view w.db).Within k := by
    intro w i s r _ hs _ hok hfinished
    have hnext : (s.own.view w.db).Within k := by
      apply hfinished.bounded
      intro sc seen hsc hseen
      simp only [Bool.and_eq_true, World.fresh, hs, hsc, hseen, Option.all_some,
        decide_eq_true_eq] at hok
      exact hok.2
    exact ⟨hnext, fun _ _ _ => hnext⟩
  have hstay := World.run_within (P := fun _ => Pact.keeping (Db.Within k))
    (Q := fun _ _ => Book.Finished k) hstart hcommit hwithin hrun
  exact hstay.1.le

/-- A scope with a limit of one lease and two ready nodes. -/
def twoReadyOps : List Op :=
  [.setScopeConfig { maxInFlight := 1 }, .addNodes [{ id := "a" }, { id := "b" }]]

def beginClaim : Action := .begin (.operation (.claim { scope := "s" })) 10 "s" {} countingServer

/-- The second claim begins when the first has committed. -/
def oneByOne : List Action :=
  [beginClaim] ++ statements 0 12 [] ++ [.commit 0, beginClaim] ++ statements 0 7 [] ++ [.commit 0]

/-- Both claims grant a lease before either writes the counter. -/
def sideBySide : List Action :=
  [beginClaim, beginClaim] ++ statements 0 10 [] ++ statements 1 10 [1] ++
    statements 0 2 [2] ++ [.commit 0] ++ statements 0 2 [] ++ [.commit 0]

/-- A test for `Within`. -/
def Db.within (k : ℕ) (db : Db) : Bool :=
  db.scopeRow.any (fun sc => sc.cfg.resolved.maxInFlight = k &&
    (db.claimed : Int) ≤ sc.stats.inProgress) && db.claimed ≤ k

theorem Db.Within.of_test {k : ℕ} {db : Db} (h : db.within k = true) : db.Within k := by
  simp only [Db.within, Bool.and_eq_true, Option.any_eq_true, decide_eq_true_eq] at h
  obtain ⟨⟨sc, hsc, hk, hle⟩, hlimit⟩ := h
  exact ⟨⟨sc, hsc, hk, hle⟩, hlimit⟩

theorem oneByOne_within_limit : ∃ steps db w, Run steps db ∧ db.Within 1 ∧
    Relation.ReflTransGen (Actions.Takes World.act fun w a => a.claims && w.fresh a)
      { db := db } w ∧ w.db.claimed = 1 ∧ w.db.claimed ≤ 1 := by
  obtain ⟨steps, db, hrun, hp⟩ := Trace.exists_run_of_execute exec (callsOf twoReadyOps) {}
    (p := fun _ db => db.within 1 &&
      Actions.heeds World.act (fun w a => a.claims && w.fresh a) oneByOne { db := db } &&
      (Actions.drive World.act oneByOne { db := db }).any fun w : World =>
        decide (w.db.claimed = 1)) (by decide +kernel)
  simp only [Bool.and_eq_true] at hp
  obtain ⟨⟨htest, hheeds⟩, hdrive⟩ := hp
  obtain ⟨w, hw, hclaimed⟩ := (Option.any_eq_true _ _).mp hdrive
  have hwithin := Db.Within.of_test htest
  have hsteps := Actions.steps_of_drive hheeds hw
  exact ⟨steps, db, w, hrun, hwithin, hsteps, of_decide_eq_true hclaimed,
    claims_within_limit (by decide) hwithin hsteps⟩

/-- Two concurrent claims exceed a limit of one. -/
theorem sideBySide_exceed_limit : ∃ steps db w, Run steps db ∧ db.Within 1 ∧
    Relation.ReflTransGen (Actions.Takes World.act fun _ a => a.claims) { db := db } w ∧
    w.db.claimed = 2 := by
  obtain ⟨steps, db, hrun, hp⟩ := Trace.exists_run_of_execute exec (callsOf twoReadyOps) {}
    (p := fun _ db => db.within 1 &&
      Actions.heeds World.act (fun _ a => a.claims) sideBySide { db := db } &&
      (Actions.drive World.act sideBySide { db := db }).any fun w : World =>
        decide (w.db.claimed = 2)) (by decide +kernel)
  simp only [Bool.and_eq_true] at hp
  obtain ⟨⟨htest, hheeds⟩, hdrive⟩ := hp
  obtain ⟨w, hw, hclaimed⟩ := (Option.any_eq_true _ _).mp hdrive
  exact ⟨steps, db, w, hrun, Db.Within.of_test htest, Actions.steps_of_drive hheeds hw,
    of_decide_eq_true hclaimed⟩

end DagWorker.Postgres
