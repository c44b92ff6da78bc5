import DagWorker.Postgres.Views

/-!
# Sealing amid transactions that add nodes

`AddNodes` reads the flag of the scope row once, under the advisory lock of the graph;
`Seal` sets the flag without that lock.  So a scope may be sealed while a transaction that
has found it open is still to commit.  When that does not happen, a sealed scope gets no
more nodes, and one that is complete stays complete.
-/

namespace DagWorker.Postgres

open Relation (ReflTransGen)

variable {db db' : Db} {s : Stmt} {own : Own}
variable (defaults : ScopeConfig)

/-- `Store.ScopeStats`. -/
def Db.scopeStats (db : Db) : ScopeStats :=
  match db.scopeRow with
  | none => {}
  | some sc => { sc.stats with complete := sc.isSealed && sc.stats.nonTerminal = 0 }

def Db.isSealed (db : Db) : Bool := db.scopeRow.any ScopeRow.isSealed

/-! ## The scope row stays, and stays sealed -/

/-- The scope row is still there, and still sealed. -/
def Db.Persists (db db' : Db) : Prop :=
  ∀ sc, db.scopeRow = some sc → ∃ sc', db'.scopeRow = some sc' ∧
    (sc.isSealed = true → sc'.isSealed = true)

namespace Db.Persists

variable {db db' : Db}

theorem refl (db : Db) : db.Persists db := fun sc hsc => ⟨sc, hsc, id⟩

theorem of_eq (h : db'.scopeRow = db.scopeRow) : db.Persists db' :=
  fun sc hsc => ⟨sc, h.trans hsc, id⟩

theorem trans {db₁ db₂ db₃ : Db} (h : db₁.Persists db₂) (h' : db₂.Persists db₃) :
    db₁.Persists db₃ := by
  intro sc hsc
  obtain ⟨sc₂, hsc₂, hsealed⟩ := h sc hsc
  obtain ⟨sc₃, hsc₃, hsealed'⟩ := h' sc₂ hsc₂
  exact ⟨sc₃, hsc₃, hsealed' ∘ hsealed⟩

theorem isSome (h : db.Persists db') (hdb : db.scopeRow.isSome = true) :
    db'.scopeRow.isSome = true := by
  obtain ⟨sc, hsc⟩ := Option.isSome_iff_exists.mp hdb
  obtain ⟨sc', hsc', -⟩ := h sc hsc
  rw [hsc']
  rfl

theorem isSealed (h : db.Persists db') (hdb : db.isSealed = true) : db'.isSealed = true := by
  obtain ⟨sc, hsc, hsealed⟩ := (Option.any_eq_true _ _).mp hdb
  obtain ⟨sc', hsc', himp⟩ := h sc hsc
  exact (Option.any_eq_true _ _).mpr ⟨sc', hsc', himp hsealed⟩

end Db.Persists

theorem Changes.persists (h : Changes db s db') : db.Persists db' := by
  cases h with
  | createScope defaults hnone =>
    intro sc hsc
    rw [hnone] at hsc
    cases hsc
  | configure cfg sc hsc | raise epoch sc hsc | count deltas sc hsc =>
    intro sc' hsc'
    rw [hsc] at hsc'
    cases hsc'
    exact ⟨_, rfl, id⟩
  | close sc hsc => exact fun _ _ => ⟨_, rfl, fun _ => rfl⟩
  | _ => exact .of_eq rfl

/-- The scope row before and after a statement, as the transaction sees it. -/
theorem Stmt.amid_persists {srv : Server} {a : Answer} {snap : Db} {own' : Own}
    {r : s.Result} (h : s.amid srv a snap db own = some (r, own')) :
    (own.view db).Persists (own'.view db) := by
  obtain ⟨ws, l, hperform, rfl⟩ := Stmt.amid_cases h
  have hsees : (own.view db).scopeRow = (s.sees snap db own).scopeRow := by
    cases s <;> rfl
  have hexec : s.exec srv a (s.sees snap db own) =
      some (r, { toDb := (s.sees snap db own).toDb.applyAll ws, toLocal := l }) := by
    rw [Stmt.exec, hperform]
    rfl
  have hchanges := (Stmt.exec_changes hexec).persists
  have hview : ((own.view db).applyAll ws).scopeRow =
      ((s.sees snap db own).toDb.applyAll ws).scopeRow := Db.applyAll_scopeRow_congr hsees ws
  have hboth := ((Db.Persists.of_eq hsees.symm).trans hchanges).trans (.of_eq hview)
  change (own.view db).Persists (db.applyAll (own.writes ++ ws))
  rw [Db.applyAll_append]
  exact hboth

/-! ## What the transactions keep -/

/-- A transaction keeps the scope row and its seal. -/
structure Own.Keeps (db : Db) (own : Own) : Prop where
  guarded : own.Guarded
  persists : db.Persists (own.view db)

theorem Own.keeps_new (db : Db) : Own.Keeps db {} :=
  ⟨fun _ hw => absurd hw List.not_mem_nil, .refl db⟩

theorem Own.Keeps.stable (h : own.Keeps db)
    (hagree : Db.Agree own.locks db db') : own.Keeps db' := by
  refine ⟨h.guarded, ?_⟩
  rcases h.guarded.scope_view with hlock | hview
  · have hsame := hagree.scopeRow hlock
    have hback : db'.Persists db := .of_eq hsame.symm
    exact (hback.trans h.persists).trans (.of_eq (Db.applyAll_scopeRow_congr hsame own.writes))
  · exact .of_eq (hview db')

theorem Own.Keeps.amid {srv : Server} {a : Answer} {snap : Db} {own' : Own}
    {r : s.Result} (h : own.Keeps db) (hamid : s.amid srv a snap db own = some (r, own')) :
    own'.Keeps db :=
  ⟨Stmt.amid_guarded hamid h.guarded, h.persists.trans (Stmt.amid_persists hamid)⟩

def Task.addsNodes : Task → Bool
  | .operation (.addNodes _) => true
  | _ => false

/-- `AddNodes`, or one of the two statements of `Seal`. -/
def Task.sealing : Task → Bool
  | .operation (.addNodes _) => true
  | .statement (.ensureScope _) => true
  | .statement .setSealed => true
  | _ => false

namespace Sealing

/-- The scope is not sealed while a transaction that adds nodes has read its row. -/
def pact (t : Task) : Pact where
  may own db db' := db.Persists db' ∧
    (t.addsNodes = true → own.lastScope.isSome = true → db'.isSealed = true → db.isSealed = true)
  refl _ db := ⟨.refl db, fun _ _ => id⟩
  trans h h' := ⟨h.1.trans h'.1, fun ht hread => h.2 ht hread ∘ h'.2 ht hread⟩

/-- How a transaction ends: with nothing to write to a sealed scope, if it is one of
`AddNodes` or `Seal`. -/
structure Ends (t : Task) (db : Db) (own : Own) : Prop where
  keeps : own.Keeps db
  unchanged : t.sealing = true → db.isSealed = true → own.view db = db

variable {t : Task} {srv : Server} {db : Db} {own : Own}

theorem ensures_keeps (t : Task) (srv : Server) {α : Type} (p : Tx α) (h : own.Keeps db) :
    ((pact t).amid srv).Ensures (fun _ db own => own.Keeps db) p db own := by
  have hstable : ((pact t).amid srv).Stable fun db own => own.Keeps db :=
    fun _ _ _ hrely h => h.stable hrely.1
  exact Setting.ensures_of_kept hstable
    (fun s a snap db r own own' h hamid => Own.Keeps.amid h hamid) p h

/-- Before the flag is read. -/
structure Early (made : Bool) (db : Db) (own : Own) : Prop where
  keeps : own.Keeps db
  unread : own.lastScope = none
  made : made = true → (own.view db).scopeRow.isSome = true

/-- The flag was read, and the scope is not sealed. -/
structure Admitted (db : Db) (own : Own) : Prop where
  keeps : own.Keeps db
  read : own.lastScope.isSome = true
  made : (own.view db).scopeRow.isSome = true
  unsealed : db.isSealed = false

/-- A scope row that is there stays there when others commit. -/
theorem made_stable (hkeeps : own.Keeps db) (hagree : Db.Agree own.locks db db')
    (hpersists : db.Persists db') (h : (own.view db).scopeRow.isSome = true) :
    (own.view db').scopeRow.isSome = true := by
  rcases hkeeps.guarded.scope_view with hlock | hview
  · rw [Own.view, Db.applyAll_scopeRow_congr (hagree.scopeRow hlock) own.writes]
    exact h
  · rw [hview db] at h
    rw [hview db']
    exact hpersists.isSome h

theorem early_stable (made : Bool) (t : Task) (srv : Server) :
    ((pact t).amid srv).Stable (Early made) := by
  rintro db db' own ⟨hagree, hpersists, -⟩ h
  exact ⟨h.keeps.stable hagree, h.unread,
    fun hmade => made_stable h.keeps hagree hpersists (h.made hmade)⟩

theorem admitted_stable (ht : t.addsNodes = true) (srv : Server) :
    ((pact t).amid srv).Stable Admitted := by
  rintro db db' own ⟨hagree, hpersists, hopen⟩ h
  refine ⟨h.keeps.stable hagree, h.read, made_stable h.keeps hagree hpersists h.made, ?_⟩
  rw [Bool.eq_false_iff]
  intro hsealed
  exact absurd (h.unsealed.symm.trans (hopen ht h.read hsealed)) (by decide)

/-- The statements before the flag is read. -/
theorem ensures_early {made made' : Bool} (s : Stmt) (hread : ∀ e last, s.scopeRead e last = last)
    (hmade : ∀ a e r ws l, s.perform srv a e = some (r, ws, l) → made' = true →
      made = true ∨ (e.toDb.applyAll ws).scopeRow.isSome = true)
    (hsees : ∀ snap db own, (s.sees snap db own).toDb = own.view db) (h : Early made db own) :
    ((pact t).amid srv).Ensures (fun _ => Early made') (Tx.query s) db own := by
  refine Pact.ensures_query (early_stable made t srv) (fun _ => early_stable made' t srv) h ?_
  intro a snap db r own' _ _ h hamid
  have hpersists := Stmt.amid_persists hamid
  have hkeeps := h.keeps.amid hamid
  obtain ⟨ws, l, hperform, rfl⟩ := Stmt.amid_cases hamid
  refine ⟨hkeeps, ?_, fun hmade' => ?_⟩
  · dsimp only
    rw [hread]
    exact h.unread
  rcases hmade a _ r ws l hperform hmade' with hbefore | hafter
  · exact hpersists.isSome (h.made hbefore)
  · rw [hsees] at hafter
    rw [Own.view, Db.applyAll_append]
    exact hafter

theorem ensures_ensureScope (h : Early false db own) :
    ((pact t).amid srv).Ensures (fun _ => Early true) (Tx.ensureScope defaults) db own := by
  refine ensures_early (.ensureScope defaults) (fun _ _ => rfl) ?_ (fun _ _ _ => rfl) h
  intro a e r ws l hperform _
  simp only [Stmt.perform] at hperform
  split at hperform
  · next sc hsc =>
      cases hperform
      exact .inr (by rw [Db.applyAll, List.foldl_nil, hsc]; rfl)
  · cases hperform
    exact .inr rfl

theorem ensures_lockScopeGraph (h : Early true db own) :
    ((pact t).amid srv).Ensures (fun _ => Early true) Tx.lockScopeGraph db own :=
  ensures_early .lockScopeGraph (fun _ _ => rfl) (fun _ _ _ _ _ _ _ => .inl rfl)
    (fun _ _ _ => rfl) h

/-- Either the flag is set, or the scope is not sealed from here on. -/
theorem ensures_loadScope (ht : t.addsNodes = true) (h : Early true db own) :
    ((pact t).amid srv).Ensures
      (fun sc db own => (sc.getD {}).isSealed = true ∨ Admitted db own) Tx.loadScope db own := by
  refine Pact.ensures_query (early_stable true t srv) ?_ h ?_
  · rintro sc db db' own hrely (hsealed | h)
    · exact .inl hsealed
    · exact .inr (admitted_stable ht srv db db' own hrely h)
  intro a snap db sc own' _ _ h hamid
  have hpersists := Stmt.amid_persists hamid
  have hkeeps := h.keeps.amid hamid
  have hmade := hpersists.isSome (h.made rfl)
  obtain ⟨ws, l, hperform, rfl⟩ := Stmt.amid_cases hamid
  cases hperform
  obtain ⟨sc, hsc⟩ := Option.isSome_iff_exists.mp (h.made rfl)
  have hread : (Stmt.sees snap db own .loadScope).scopeRow = some sc := hsc
  rw [hread]
  by_cases hsealed : sc.isSealed = true
  · exact .inl hsealed
  refine .inr ⟨hkeeps, ?_, hmade, ?_⟩
  · dsimp only [Stmt.scopeRead]
    rw [hread]
    rfl
  rw [Bool.eq_false_iff]
  intro hdb
  have hview := h.keeps.persists.isSealed hdb
  rw [Db.isSealed, hsc] at hview
  exact hsealed hview

/-- Once admitted, a transaction may do anything. -/
theorem ensures_admitted (ht : t.addsNodes = true) {α : Type} (p : Tx α) (h : Admitted db own) :
    ((pact t).amid srv).Ensures (fun _ => Admitted) p db own := by
  refine Setting.ensures_of_kept (admitted_stable ht srv) ?_ p h
  intro s a snap db r own own' h hamid
  have hpersists := Stmt.amid_persists hamid
  have hkeeps := h.keeps.amid hamid
  have hmade := hpersists.isSome h.made
  obtain ⟨ws, l, hperform, rfl⟩ := Stmt.amid_cases hamid
  refine ⟨hkeeps, ?_, hmade, h.unsealed⟩
  cases s with
  | loadScope | inProgress => exact h.made
  | _ => exact h.read

theorem Admitted.ends (h : Admitted db own) : Ends t db own :=
  ⟨h.keeps, fun _ hsealed => absurd (h.unsealed.symm.trans hsealed) (by decide)⟩

/-- A transaction that has written nothing. -/
theorem Early.ends {made : Bool} (h : Early made db own) (hnone : own.writes = []) :
    Ends t db own :=
  ⟨h.keeps, fun _ _ => by rw [Own.view, hnone]; rfl⟩

theorem early_new (db : Db) : Early false db {} :=
  ⟨Own.keeps_new db, rfl, fun h => absurd h (by decide)⟩

theorem ensures_addNodes (ht : t.addsNodes = true) (fuel : ℕ) (scope : String)
    (defaults : ScopeConfig) (specs : List NodeSpec) :
    ((pact t).amid srv).Ensures (fun _ => Ends t) (Tx.addNodes fuel scope defaults specs)
      db {} := by
  unfold Tx.addNodes
  split
  · intro db' hrely
    exact (early_stable false t srv db db' {} hrely (early_new db)).ends rfl
  apply (ensures_ensureScope defaults (early_new db)).bind
  intro _ db own h
  apply (ensures_lockScopeGraph h).bind
  intro _ db own h
  apply (ensures_loadScope ht h).bind
  rintro sc db own (hsealed | h)
  · dsimp only
    rw [if_pos hsealed]
    trivial
  dsimp only
  split
  · trivial
  · exact (ensures_admitted ht _ h).mono fun _ _ _ h => h.ends

/-! ## The statements of `Seal` -/

/-- Nothing is written, or the scope row, which is locked; and one that is sealed is left as
it is. -/
structure Idle (db : Db) (own : Own) : Prop where
  keeps : own.Keeps db
  same : own.writes = [] ∨ Lock.scopeRow ∈ own.locks ∧
    ∃ sc, own.writes = [.scopeRow sc] ∧ (db.isSealed = true → db.scopeRow = some sc)

theorem idle_stable (t : Task) (srv : Server) : ((pact t).amid srv).Stable Idle := by
  rintro db db' own ⟨hagree, -⟩ ⟨hkeeps, hnone | ⟨hlock, sc, hwrites, hsame⟩⟩
  · exact ⟨hkeeps.stable hagree, .inl hnone⟩
  · refine ⟨hkeeps.stable hagree, .inr ⟨hlock, sc, hwrites, ?_⟩⟩
    rw [Db.isSealed, hagree.scopeRow hlock]
    exact hsame

theorem Idle.ends (h : Idle db own) : Ends t db own := by
  refine ⟨h.keeps, fun _ hsealed => ?_⟩
  rcases h.same with hnone | ⟨-, sc, hwrites, hsame⟩
  · rw [Own.view, hnone]
    rfl
  · rw [Own.view, hwrites]
    change { db with scopeRow := some sc } = db
    rw [← hsame hsealed]

/-- One statement that leaves a sealed scope as it is. -/
theorem ensures_statement
    (hsees : ∀ snap db own, (s.sees snap db own).toDb = own.view db)
    (hperform : ∀ a e r ws l, s.perform srv a e = some (r, ws, l) →
      ws = [] ∨ Lock.scopeRow ∈ s.locks e r ∧
        ∃ sc, ws = [.scopeRow sc] ∧ (e.isSealed = true → e.scopeRow = some sc)) :
    ((pact t).amid srv).Ensures (fun _ => Ends t) (Tx.query s) db {} := by
  have hstart : ((pact t).amid srv).Stable fun db own => own.Keeps db ∧ own.writes = [] :=
    fun _ _ _ hrely h => ⟨h.1.stable hrely.1, h.2⟩
  have hidle : ((pact t).amid srv).Ensures (fun _ => Idle) (Tx.query s) db {} := by
    refine Pact.ensures_query hstart (fun _ => idle_stable t srv) ⟨Own.keeps_new db, rfl⟩ ?_
    intro a snap db r own' _ _ h hamid
    have hkeeps := h.1.amid hamid
    obtain ⟨ws, l, hexec, rfl⟩ := Stmt.amid_cases hamid
    refine ⟨hkeeps, ?_⟩
    rcases hperform a _ r ws l hexec with rfl | ⟨hlock, sc, rfl, hsame⟩
    · exact .inl rfl
    · refine .inr ⟨List.mem_append_right _ hlock, sc, rfl, ?_⟩
      rw [hsees] at hsame
      exact hsame
  exact hidle.mono fun _ _ _ h => h.ends

theorem ensures_createStatement :
    ((pact t).amid srv).Ensures (fun _ => Ends t) (Tx.query (.ensureScope defaults)) db {} := by
  apply ensures_statement (fun _ _ _ => rfl)
  intro a e r ws l h
  simp only [Stmt.perform] at h
  split at h
  · cases h
    exact .inl rfl
  next hnone =>
    cases h
    refine .inr ⟨?_, _, rfl, fun hsealed => ?_⟩
    · rw [Stmt.locks, hnone]
      exact List.mem_singleton_self _
    · rw [Db.isSealed, hnone] at hsealed
      cases hsealed

theorem ensures_sealStatement :
    ((pact t).amid srv).Ensures (fun _ => Ends t) (Tx.query .setSealed) db {} := by
  apply ensures_statement (fun _ _ _ => rfl)
  intro a e r ws l h
  cases h
  cases hsc : e.scopeRow with
  | none =>
    rw [Stmt.updateScope, hsc]
    exact .inl rfl
  | some sc =>
    rw [Stmt.updateScope, hsc]
    refine .inr ⟨?_, _, rfl, fun hsealed => ?_⟩
    · rw [Stmt.locks, Engine.scopeLock, hsc]
      exact List.mem_singleton_self _
    have hflag : sc.isSealed = true := by
      rw [Db.isSealed, hsc] at hsealed
      exact hsealed
    rw [← hflag]

theorem ensures_ends (t : Task) (srv : Server) (db : Db) (fuel : ℕ) (scope : String)
    (defaults : ScopeConfig) :
    ((pact t).amid srv).Ensures (fun _ => Ends t) (t.program fuel scope defaults) db {} := by
  by_cases ht : t.sealing = true
  · cases t with
    | operation op =>
      cases op with
      | addNodes specs =>
        exact Setting.Ensures.map (Q := fun _ => Ends (.operation (.addNodes specs)))
          (f := Reply.effects) (ensures_addNodes rfl fuel scope defaults specs)
      | _ => cases ht
    | statement s =>
      cases s with
      | ensureScope d =>
        exact Setting.Ensures.map (Q := fun _ => Ends (.statement (.ensureScope d)))
          (ensures_createStatement d)
      | setSealed =>
        exact Setting.Ensures.map (Q := fun _ => Ends (.statement .setSealed))
          ensures_sealStatement
      | _ => cases ht
  · refine (ensures_keeps t srv _ (Own.keeps_new db)).mono fun _ _ _ h => ?_
    exact ⟨h, fun hs => absurd hs ht⟩

end Sealing

/-! ## Runs -/

namespace World

/-- The scope is sealed only when no transaction that adds nodes has read its row. -/
def unread (w : World) : Action → Bool
  | .commit i =>
    (w.sessions[i]?).all fun s => w.db.isSealed || !(s.own.view w.db).isSealed ||
      (w.sessions.eraseIdx i).all fun t => !t.task.addsNodes || t.own.lastScope.isNone
  | _ => true

/-- Only `AddNodes` and `Seal` commit. -/
def sealing (w : World) : Action → Bool
  | .commit i => (w.sessions[i]?).all fun s => s.task.sealing
  | _ => true

variable {w w' : World}

theorem commit_unread {i : ℕ} {s : Session} (hs : w.sessions[i]? = some s)
    (hok : w.unread (.commit i) = true) (h : Sealing.Ends s.task w.db s.own) :
    ∀ t ∈ w.sessions.eraseIdx i, (Sealing.pact t.task).may t.own w.db (s.own.view w.db) := by
  intro t ht
  refine ⟨h.keeps.persists, fun hadds hread hsealed => ?_⟩
  simp only [unread, hs, Option.all_some, Bool.or_eq_true, Bool.not_eq_true', List.all_eq_true]
    at hok
  rcases hok with (hdb | hopen) | hnone
  · exact hdb
  · exact absurd (hopen.symm.trans hsealed) (by decide)
  rcases hnone t ht with hother | hunread
  · exact absurd (hother.symm.trans hadds) (by decide)
  · rw [Option.isNone_iff_eq_none.mp hunread] at hread
    cases hread

/-- No transaction gets further than it should, and the scope row stays. -/
def Sound (db : Db) (w : World) : Prop :=
  db.Persists w.db ∧ Inv Sealing.pact (fun t _ => Sealing.Ends t) w

theorem Sound.act (h : Sound db w) {a : Action} (hact : w.act a = some w')
    (hok : w.unread a = true) : Sound db w' := by
  refine Inv.act (I := db.Persists) ?_ ?_ h.1 h.2 hact hok
  · intro w t fuel scope defaults srv _ _
    exact Sealing.ensures_ends t srv w.db fuel scope defaults
  · intro w i s r hdb hs _ hok hends
    exact ⟨hdb.trans hends.keeps.persists, commit_unread hs hok hends⟩

theorem sound_new (db : Db) : Sound db { db := db } :=
  ⟨.refl db, List.Pairwise.nil, fun _ hs => absurd hs List.not_mem_nil,
    fun _ hs => absurd hs List.not_mem_nil⟩

theorem Sound.run (h : Sound db w)
    (hrun : ReflTransGen (Actions.Takes World.act unread) w w') : Sound db w' :=
  Actions.preserves (fun _ _ _ h hact hok => Sound.act h hact hok) h hrun

/-- A commit of `AddNodes` or `Seal` changes nothing in a sealed scope. -/
theorem Sound.commit (h : Sound db w) (hsealed : w.db.isSealed = true) {i : ℕ}
    {s : Session} (hs : w.sessions[i]? = some s) (ht : s.task.sealing = true)
    (hact : w.act (.commit i) = some w') : w'.db = w.db := by
  obtain ⟨s', r, hs', hprog, rfl⟩ := commit_cases hact
  obtain rfl : s = s' := Option.some.inj (hs.symm.trans hs')
  exact (h.2.ends hs hprog).unchanged ht hsealed

theorem act_db_of_sealing (h : Sound db w) (hsealed : w.db.isSealed = true) {a : Action}
    (hact : w.act a = some w') (hok : w.sealing a = true) : w'.db = w.db := by
  cases a with
  | begin t fuel scope defaults srv =>
    cases hact
    rfl
  | issue i =>
    obtain ⟨s, hs, hact⟩ := Option.bind_eq_some_iff.mp hact
    cases hact
    rfl
  | execute i a =>
    obtain ⟨s, hs, hact⟩ := Option.bind_eq_some_iff.mp hact
    obtain ⟨s', hs', hact⟩ := Option.bind_eq_some_iff.mp hact
    cases hact
    rfl
  | commit i =>
    obtain ⟨s, r, hs, -, -⟩ := commit_cases hact
    rw [sealing, hs] at hok
    exact h.commit hsealed hs hok hact
  | rollback i =>
    cases hact
    rfl

/-- In a sealed scope nothing changes while only `AddNodes` and `Seal` commit. -/
theorem Sound.run_sealing (h : Sound db w) (hsealed : w.db.isSealed = true)
    (hrun : ReflTransGen
      (Actions.Takes World.act fun w a => w.unread a && w.sealing a) w w') : w'.db = w.db := by
  have hboth : Sound db w' ∧ w'.db = w.db := by
    refine Actions.preserves (I := fun w' => Sound db w' ∧ w'.db = w.db) ?_ ⟨h, rfl⟩ hrun
    rintro w₁ w₂ a ⟨h₁, heq⟩ hact hok
    rw [Bool.and_eq_true] at hok
    have hsame := act_db_of_sealing h₁ (heq.symm ▸ hsealed) hact hok.2
    exact ⟨h₁.act hact hok.1, hsame.trans heq⟩
  exact hboth.2

end World

theorem Db.isSealed_of_complete (h : db.scopeStats.complete = true) :
    db.isSealed = true := by
  unfold Db.scopeStats at h
  split at h
  · cases h
  next sc hsc =>
    rw [Bool.and_eq_true] at h
    rw [Db.isSealed, hsc]
    exact h.1

/-- **Sealing is final** in every run in which the scope is not sealed while a transaction
that adds nodes has read its row: such a transaction changes nothing once the scope is
sealed, and a complete scope stays complete while `AddNodes` and `Seal` commit. -/
theorem sealed_is_final {db : Db} {w : World}
    (hrun : ReflTransGen (Actions.Takes World.act World.unread) { db := db } w) :
    (w.db.isSealed = true →
      ∀ w', ReflTransGen (Actions.Takes World.act World.unread) w w' →
        ∀ i s w'', w'.sessions[i]? = some s → s.task.addsNodes = true →
          w'.act (.commit i) = some w'' → w''.db = w'.db) ∧
      (w.db.scopeStats.complete = true →
        ∀ w', ReflTransGen
            (Actions.Takes World.act fun w a => w.unread a && w.sealing a) w w' →
          w'.db.scopeStats.complete = true) := by
  have hsound := (World.sound_new db).run hrun
  refine ⟨fun hsealed w' hafter i s w'' hs hadds hact => ?_, fun hcomplete w' hafter => ?_⟩
  · have hlater : World.Sound w.db w' := World.Sound.run ⟨.refl w.db, hsound.2⟩ hafter
    have htask : s.task.sealing = true := by
      unfold Task.addsNodes at hadds
      split at hadds
      · next specs heq => rw [heq]; rfl
      · cases hadds
    exact hlater.commit (hlater.1.isSealed hsealed) hs htask hact
  · rw [hsound.run_sealing (Db.isSealed_of_complete hcomplete) hafter]
    exact hcomplete

def sealNow (i : ℕ) : List Action :=
  [.begin (.statement (.ensureScope {})) 0 "s" {} countingServer] ++ statements i 1 [] ++
    [.commit i, .begin (.statement .setSealed) 0 "s" {} countingServer] ++ statements i 1 [] ++
    [.commit i]

def beginAddNodes : Action :=
  .begin (.operation (.addNodes [{ id := "a" }])) 10 "s" {} countingServer

/-- The scope is sealed before `AddNodes` reads the scope row. -/
def sealedBefore : List Action := [beginAddNodes] ++ statements 0 1 [] ++ sealNow 1

def refused : List Action := statements 0 2 [] ++ [.rollback 0]

theorem sealedBefore_is_final : ∃ steps db w w', Run steps db ∧
    ReflTransGen (Actions.Takes World.act World.unread) { db := db } w ∧
    w.db.scopeStats.complete = true ∧
    ReflTransGen (Actions.Takes World.act fun w a => w.unread a && w.sealing a) w w' ∧
    w'.sessions.length < w.sessions.length ∧ w'.db.scopeStats.complete = true := by
  obtain ⟨steps, db, hrun, hp⟩ := Trace.exists_run_of_execute exec (callsOf [.setScopeConfig {}]) {}
    (p := fun _ db => Actions.heeds World.act World.unread sealedBefore { db := db } &&
      (Actions.drive World.act sealedBefore { db := db }).any fun w : World =>
        w.db.scopeStats.complete &&
        Actions.heeds World.act (fun w a => w.unread a && w.sealing a) refused w &&
        (Actions.drive World.act refused w).any fun w' : World =>
          decide (w'.sessions.length < w.sessions.length)) (by decide +kernel)
  rw [Bool.and_eq_true] at hp
  obtain ⟨w, hw, hafter⟩ := (Option.any_eq_true _ _).mp hp.2
  simp only [Bool.and_eq_true] at hafter
  obtain ⟨⟨hcomplete, hheeds⟩, hdrive⟩ := hafter
  obtain ⟨w', hw', hless⟩ := (Option.any_eq_true _ _).mp hdrive
  have hbefore := Actions.steps_of_drive hp.1 hw
  have hrest := Actions.steps_of_drive hheeds hw'
  exact ⟨steps, db, w, w', hrun, hbefore, hcomplete, hrest, of_decide_eq_true hless,
    (sealed_is_final hbefore).2 hcomplete w' hrest⟩

/-- `AddNodes` has read the scope row when the scope is sealed. -/
def sealedMeanwhile : List Action := [beginAddNodes] ++ statements 0 3 [] ++ sealNow 1

def admitted : List Action := statements 0 14 [] ++ [.commit 0]

/-- A node is added to a complete scope. -/
theorem sealedMeanwhile_not_final : ∃ steps db w w', Run steps db ∧
    ReflTransGen (Actions.Takes World.act World.sealing) { db := db } w ∧
    w.db.scopeStats.complete = true ∧ w.db.rows.keys = [] ∧
    ReflTransGen (Actions.Takes World.act World.sealing) w w' ∧
    w'.db.scopeStats.complete = false ∧ w'.db.rows.keys = [1] := by
  obtain ⟨steps, db, hrun, hp⟩ := Trace.exists_run_of_execute exec (callsOf [.setScopeConfig {}]) {}
    (p := fun _ db => Actions.heeds World.act World.sealing sealedMeanwhile { db := db } &&
      (Actions.drive World.act sealedMeanwhile { db := db }).any fun w : World =>
        w.db.scopeStats.complete && decide (w.db.rows.keys = []) &&
        Actions.heeds World.act World.sealing admitted w &&
        (Actions.drive World.act admitted w).any fun w' : World =>
          !w'.db.scopeStats.complete && decide (w'.db.rows.keys = [1])) (by decide +kernel)
  rw [Bool.and_eq_true] at hp
  obtain ⟨w, hw, hafter⟩ := (Option.any_eq_true _ _).mp hp.2
  simp only [Bool.and_eq_true] at hafter
  obtain ⟨⟨⟨hcomplete, hempty⟩, hheeds⟩, hdrive⟩ := hafter
  obtain ⟨w', hw', hend⟩ := (Option.any_eq_true _ _).mp hdrive
  simp only [Bool.and_eq_true, Bool.not_eq_true'] at hend
  exact ⟨steps, db, w, w', hrun, Actions.steps_of_drive hp.1 hw, hcomplete,
    of_decide_eq_true hempty, Actions.steps_of_drive hheeds hw', hend.1, of_decide_eq_true hend.2⟩

end DagWorker.Postgres
