import DagWorker.Postgres.Changes
import DagWorker.Support.Actions
import DagWorker.Support.Interference

/-!
# Concurrent transactions

Transactions run statement by statement under READ COMMITTED.  A statement sees what is
committed and what its own transaction has written, and is carried out when the rows it
locks or writes are free.  Rows are read as they are then, but the edges that a join with
`FOR UPDATE` follows are those of the statement's snapshot.  A commit publishes all writes
at once and releases the locks; a transaction may be rolled back at any time.
-/

namespace DagWorker.Postgres

variable {srv : Server} {a : Answer} {s : Stmt} {r : s.Result} {db : Db} {own : Own}
variable {ws : List Write}

/-! ## Locks -/

inductive Lock
  | row (id : ℕ)
  | edge (k : ℕ × ℕ)
  | scopeRow
  /-- The advisory lock of `lockScopeGraph`. -/
  | graph
deriving DecidableEq

/-- A query with `SKIP LOCKED` passes over the row. -/
def Lock.skipped (a : Answer) : Lock → Bool
  | .row id => id ∈ a.busy
  | _ => true

/-- What has to be locked for a write.  Sequences are not. -/
def Write.lock : Write → Option Lock
  | .row id _ => some (.row id)
  | .dropRow id => some (.row id)
  | .edge k _ => some (.edge k)
  | .dropEdge k => some (.edge k)
  | .scopeRow _ => some .scopeRow
  | .identity _ _ => none

/-- The lock of the scope row, if there is one to be updated. -/
def Engine.scopeLock (e : Engine) : List Lock := if e.scopeRow.isSome then [.scopeRow] else []

/-- The locks that a statement takes, given its result. -/
def Stmt.locks (e : Engine) : (s : Stmt) → s.Result → List Lock
  -- an insert of the same key by another transaction is waited for
  | .ensureScope _, _ => if e.scopeRow.isNone then [.scopeRow] else []
  | .setScopeConfig _, _ => e.scopeLock
  | .setSealed, _ => e.scopeLock
  | .raiseEpochFloor _, _ => e.scopeLock
  | .addStats _, _ => e.scopeLock
  | .lockScopeGraph, _ => [.graph]
  | .loadForUpdate id, r => if r.isSome then [.row id] else []
  | .loadForUpdateByExternal _, r => r.toList.map fun x => .row x.1
  | .loadManyForUpdateByExternal _, rows => rows.map fun x => .row x.1
  | .successorsForUpdate _, rows => rows.map fun x => .row x.1
  | .updateNode id _, r => if r.isSome then [.row id] else []
  | .insertNode _, r => [.row r.1]
  | .deleteNode id, _ => .row id :: (e.toDb.incident id).map .edge
  | .insertEdge fromID toID _, _ => [.edge (fromID, toID)]
  | .markEdgeSatisfied fromID toID, _ =>
    if e.edges.lookup (fromID, toID) = some false then [.edge (fromID, toID)] else []
  | .deleteEdge fromID toID, r => if r.isSome then [.edge (fromID, toID)] else []
  | .deleteEdgesTo toID, _ => (e.toDb.edgesTo toID).map .edge
  | .reclaimCandidates _, ids => ids.map .row
  | .promoteCandidates, ids => ids.map .row
  | .findTerminalCandidates _ _, rows => rows.map fun x => .row x.1
  | .claim _ _ _, r => r.toList.map fun x => .row x.1
  | .extend nodeID _ _, r =>
    if r.isSome then (e.findExternal nodeID).toList.map fun x => .row x.1 else []
  | _, _ => []

/-! ## Statements amid others -/

/-- What a transaction has done so far, which others do not see. -/
structure Own extends Local where
  writes : List Write := []
  locks : List Lock := []
  /-- The scope row as the transaction last read it; the code does not look at it again. -/
  lastScope : Option ScopeRow := none

/-- The tables as a transaction sees them. -/
def Own.view (own : Own) (db : Db) : Db := db.applyAll own.writes

/-- The writes are covered by the locks. -/
def Own.Guarded (own : Own) : Prop := ∀ w ∈ own.writes, ∀ l, w.lock = some l → l ∈ own.locks

/-- The tables under a statement that was issued at `snap` and is carried out at `db`. -/
def Stmt.sees (snap db : Db) (own : Own) : Stmt → Engine
  | .successorsForUpdate _ =>
    { toDb := { own.view db with edges := (own.view snap).edges }, toLocal := own.toLocal }
  | _ => { toDb := own.view db, toLocal := own.toLocal }

/-- The scope row that a statement reads. -/
def Stmt.scopeRead (e : Engine) (last : Option ScopeRow) : Stmt → Option ScopeRow
  | .loadScope => e.scopeRow
  | .inProgress => e.scopeRow
  | _ => last

def Stmt.amid (srv : Server) (a : Answer) (s : Stmt) (snap db : Db) (own : Own) :
    Option (s.Result × Own) :=
  let e := s.sees snap db own
  (s.perform srv a e).map fun x =>
    (x.1,
      { toLocal := x.2.2
        writes := own.writes ++ x.2.1
        locks := own.locks ++ s.locks e x.1
        lastScope := s.scopeRead e own.lastScope })

/-! ## Sessions -/

/-- What is run in a transaction: an operation, or a statement outside of one, which is a
transaction by itself. -/
inductive Task
  | operation (op : Op)
  | statement (s : Stmt)

def Task.program (fuel : ℕ) (scope : String) (defaults : ScopeConfig) : Task → Tx Reply
  | .operation op => op.program fuel scope defaults
  | .statement s => (fun _ => Reply.done) <$> Tx.query s

structure Session where
  task : Task
  prog : Tx Reply
  server : Server
  own : Own := {}
  /-- What was committed when the statement under way was issued. -/
  snapshot : Option Db := none

structure World where
  /-- What is committed. -/
  db : Db
  sessions : List Session := []

inductive Action
  | begin (t : Task) (fuel : ℕ) (scope : String) (defaults : ScopeConfig) (srv : Server)
  /-- The next statement is issued. -/
  | issue (i : ℕ)
  /-- The statement is carried out. -/
  | execute (i : ℕ) (a : Answer)
  | commit (i : ℕ)
  | rollback (i : ℕ)

namespace World

def others (w : World) (i : ℕ) : List Lock :=
  (w.sessions.eraseIdx i).flatMap fun s => s.own.locks

/-- The statement of a session, when nothing it locks is locked by others.  A query with
`SKIP LOCKED` passes over what is locked, and perhaps over more. -/
def carryOut (others : List Lock) (a : Answer) (db : Db) (s : Session) : Option Session :=
  match s.prog, s.snapshot with
  | .stmt st k, some snap => do
    let (r, own) ← st.amid s.server a snap db s.own
    if ∀ l ∈ others, l ∉ own.locks ∧ l.skipped a = true then
      some { s with prog := k r, own := own, snapshot := none }
    else none
  | _, _ => none

def act (w : World) : Action → Option World
  | .begin t fuel scope defaults srv =>
    some { w with
      sessions := w.sessions ++
        [{ task := t, prog := t.program fuel scope defaults, server := srv }] }
  | .issue i => do
    let s ← w.sessions[i]?
    pure { w with sessions := w.sessions.set i { s with snapshot := some w.db } }
  | .execute i a => do
    let s ← w.sessions[i]?
    let s' ← carryOut (w.others i) a w.db s
    pure { w with sessions := w.sessions.set i s' }
  | .commit i => do
    let s ← w.sessions[i]?
    match s.prog with
    | .ret _ => pure { db := s.own.view w.db, sessions := w.sessions.eraseIdx i }
    | _ => none
  | .rollback i => some { w with sessions := w.sessions.eraseIdx i }

end World

/-- The next statements of a session, with some rows locked by others. -/
def statements (i n : ℕ) (busy : List ℕ) : List Action :=
  (List.replicate n [.issue i, .execute i { busy := busy }]).flatten

/-! ## What is locked does not change -/

/-- The locked rows are the same. -/
structure Db.Agree (locks : List Lock) (db db' : Db) : Prop where
  rows : ∀ id, Lock.row id ∈ locks → db'.rows.lookup id = db.rows.lookup id
  edges : ∀ k, Lock.edge k ∈ locks → db'.edges.lookup k = db.edges.lookup k
  scopeRow : Lock.scopeRow ∈ locks → db'.scopeRow = db.scopeRow

namespace Db.Agree

variable {locks : List Lock} {db db' : Db}

theorem refl (locks : List Lock) (db : Db) : Db.Agree locks db db :=
  ⟨fun _ _ => rfl, fun _ _ => rfl, fun _ => rfl⟩

theorem trans {db₁ db₂ db₃ : Db} (h : Db.Agree locks db₁ db₂) (h' : Db.Agree locks db₂ db₃) :
    Db.Agree locks db₁ db₃ :=
  ⟨fun id hid => (h'.rows id hid).trans (h.rows id hid),
    fun k hk => (h'.edges k hk).trans (h.edges k hk),
    fun hs => (h'.scopeRow hs).trans (h.scopeRow hs)⟩

theorem apply {w : Write} (h : ∀ l, w.lock = some l → l ∉ locks) (db : Db) :
    Db.Agree locks db (db.apply w) := by
  cases w with
  | row id r =>
    refine ⟨fun x hx => ?_, fun _ _ => rfl, fun _ => rfl⟩
    apply AList.lookup_insert_ne
    rintro rfl
    exact h _ rfl hx
  | dropRow id =>
    refine ⟨fun x hx => ?_, fun _ _ => rfl, fun _ => rfl⟩
    apply AList.lookup_erase_ne
    rintro rfl
    exact h _ rfl hx
  | edge k b =>
    refine ⟨fun _ _ => rfl, fun x hx => ?_, fun _ => rfl⟩
    apply AList.lookup_insert_ne
    rintro rfl
    exact h _ rfl hx
  | dropEdge k =>
    refine ⟨fun _ _ => rfl, fun x hx => ?_, fun _ => rfl⟩
    apply AList.lookup_erase_ne
    rintro rfl
    exact h _ rfl hx
  | scopeRow s => exact ⟨fun _ _ => rfl, fun _ _ => rfl, fun hs => absurd hs (h _ rfl)⟩
  | identity i r => exact ⟨fun _ _ => rfl, fun _ _ => rfl, fun _ => rfl⟩

theorem applyAll (h : ∀ w ∈ ws, ∀ l, w.lock = some l → l ∉ locks) (db : Db) :
    Db.Agree locks db (db.applyAll ws) := by
  induction ws generalizing db with
  | nil => exact refl locks db
  | cons w ws ih =>
    have hfirst := apply (h w (.head _)) db
    exact hfirst.trans (ih (fun v hv => h v (.tail _ hv)) (db.apply w))

end Db.Agree

/-- A statement locks what it writes. -/
theorem Stmt.lock_mem_of_perform {e : Engine} {l : Local} (h : s.perform srv a e = some (r, ws, l))
    {w : Write} (hw : w ∈ ws) {key : Lock} (hkey : w.lock = some key) : key ∈ s.locks e r := by
  have hone : ∀ {v : Write} {l : Lock}, w ∈ [v] → v.lock = some l → key ∈ [l] := by
    intro v l hmem hl
    rw [List.mem_singleton.mp hmem, hl] at hkey
    exact List.mem_singleton.mpr (Option.some.inj hkey).symm
  have hscope : ∀ {f : ScopeRow → ScopeRow}, w ∈ updateScope e f → key ∈ e.scopeLock := by
    intro f hmem
    rw [updateScope] at hmem
    split at hmem
    · cases hmem
    next sc hsc =>
      rw [Engine.scopeLock, hsc]
      exact hone hmem rfl
  cases s with
  | ensureScope defaults =>
    simp only [perform] at h
    split at h
    · cases h
      cases hw
    next hnone =>
      cases h
      rw [locks, hnone]
      exact hone hw rfl
  | setScopeConfig | setSealed | raiseEpochFloor | addStats =>
    cases h
    exact hscope hw
  | updateNode id f =>
    simp only [perform] at h
    split at h
    · cases h
      cases hw
    split at h
    · cases h
      exact hone hw rfl
    · cases h
  | insertNode spec =>
    simp only [perform] at h
    split at h
    · cases h
      rcases List.mem_cons.mp hw with rfl | hw
      · rw [← Option.some.inj hkey]
        exact List.mem_singleton_self _
      · rw [List.mem_singleton.mp hw] at hkey
        cases hkey
    · cases h
  | deleteNode id =>
    cases h
    rcases List.mem_append.mp hw with hw | hw
    · obtain ⟨k, hk, rfl⟩ := List.mem_map.mp hw
      rw [← Option.some.inj hkey]
      exact .tail _ (List.mem_map_of_mem hk)
    · rw [List.mem_singleton.mp hw] at hkey
      rw [← Option.some.inj hkey]
      exact .head _
  | insertEdge u v b =>
    simp only [perform] at h
    split at h
    · cases h
      exact hone hw rfl
    · cases h
  | markEdgeSatisfied u v =>
    simp only [perform] at h
    split at h
    · next hopen =>
        cases h
        rw [locks, if_pos hopen]
        exact hone hw rfl
    · cases h
      cases hw
  | deleteEdge u v =>
    simp only [perform] at h
    split at h
    · cases h
      cases hw
    cases h
    exact hone hw rfl
  | deleteEdgesTo v =>
    cases h
    obtain ⟨k, hk, rfl⟩ := List.mem_map.mp hw
    rw [← Option.some.inj hkey]
    exact List.mem_map_of_mem hk
  | claim kinds workerID leaseFor =>
    simp only [perform, Option.bind_eq_bind, Option.bind_eq_some_iff] at h
    obtain ⟨ids, -, h⟩ := h
    split at h
    · cases h
      cases hw
    split at h
    · cases h
      exact hone hw rfl
    · cases h
  | extend nodeID epoch leaseFor =>
    simp only [perform] at h
    split at h
    · cases h
      cases hw
    next id row hfind =>
      split at h
      · cases h
        rw [locks, hfind]
        exact hone hw rfl
      · cases h
        cases hw
  | liveNodes | successorRanks | predecessorRanks | reclaimCandidates | promoteCandidates
  | findTerminalCandidates =>
    obtain ⟨_, _, ⟨⟩⟩ := Option.bind_eq_some_iff.mp h
    cases hw
  | inProgress =>
    simp only [perform] at h
    split at h
    · cases h
    · cases h
      cases hw
  | _ =>
    cases h
    cases hw

/-- What a statement leaves behind. -/
theorem Stmt.amid_cases {snap : Db} {own' : Own}
    (h : s.amid srv a snap db own = some (r, own')) :
    ∃ ws l, s.perform srv a (s.sees snap db own) = some (r, ws, l) ∧
      own' = { toLocal := l, writes := own.writes ++ ws,
               locks := own.locks ++ s.locks (s.sees snap db own) r,
               lastScope := s.scopeRead (s.sees snap db own) own.lastScope } := by
  simp only [Stmt.amid, Option.map_eq_some_iff] at h
  obtain ⟨⟨r', ws, l⟩, hperform, heq⟩ := h
  obtain ⟨rfl, rfl⟩ := Prod.mk.inj heq
  exact ⟨ws, l, hperform, rfl⟩

theorem Stmt.amid_guarded {snap : Db} {own' : Own}
    (h : s.amid srv a snap db own = some (r, own')) (hown : own.Guarded) :
    own'.Guarded := by
  obtain ⟨ws, loc, hperform, rfl⟩ := Stmt.amid_cases h
  intro x hx l hl
  rcases List.mem_append.mp hx with hx | hx
  · exact List.mem_append_left _ (hown x hx l hl)
  · exact List.mem_append_right _ (Stmt.lock_mem_of_perform hperform hx hl)

/-! ## Runs -/

/-- What a transaction relies on: the effect that the commits of others may have on the
tables, given what it has done itself. -/
structure Pact where
  may : Own → Db → Db → Prop
  refl : ∀ own db, may own db db
  trans : ∀ {own db₁ db₂ db₃}, may own db₁ db₂ → may own db₂ db₃ → may own db₁ db₃

/-- Every commit keeps the assertion. -/
def Pact.keeping (I : Db → Prop) : Pact where
  may _ db db' := I db → I db'
  refl _ _ := id
  trans h h' := h' ∘ h

/-- A transaction amid others that keep the pact and do not touch what is locked. -/
def Pact.amid (P : Pact) (srv : Server) : Setting Stmt.Result Answer Db Own where
  exec := Stmt.amid srv
  rely own db db' := Db.Agree own.locks db db' ∧ P.may own db db'
  rely_refl own db := ⟨.refl own.locks db, P.refl own db⟩
  rely_trans h h' := ⟨h.1.trans h'.1, P.trans h.2 h'.2⟩

/-- One statement amid others, between two stable assertions. -/
theorem Pact.ensures_query {P : Pact} {A : Db → Own → Prop}
    {Q : s.Result → Db → Own → Prop} (hA : (P.amid srv).Stable A)
    (hQ : ∀ r, (P.amid srv).Stable (Q r)) (h : A db own)
    (hexec : ∀ a snap db' r own', Db.Agree own.locks snap db' → A snap own → A db' own →
      s.amid srv a snap db' own = some (r, own') → Q r db' own') :
    (P.amid srv).Ensures Q (Tx.query s) db own :=
  Setting.ensures_ask hA hQ h fun a snap db' r own' hrely hsnap hdb hamid =>
    hexec a snap db' r own' hrely.1 hsnap hdb hamid

namespace World

variable {P : Task → Pact} {Q : Task → Reply → Db → Own → Prop}

/-- However a session goes on, it ends with `Q`. -/
def Secure (P : Task → Pact) (Q : Task → Reply → Db → Own → Prop) (db : Db) (s : Session) :
    Prop :=
  ∃ snap, (∀ x, s.snapshot = some x → x = snap) ∧
    ((P s.task).amid s.server).Ensures (Q s.task) s.prog snap s.own ∧
    ((P s.task).amid s.server).rely s.own snap db

theorem Secure.ensures {s : Session} (h : Secure P Q db s) :
    ((P s.task).amid s.server).Ensures (Q s.task) s.prog db s.own := by
  obtain ⟨snap, -, hens, hrely⟩ := h
  exact hens.stable hrely

theorem Secure.stable {db' : Db} {s : Session} (h : Secure P Q db s)
    (hrely : ((P s.task).amid s.server).rely s.own db db') : Secure P Q db' s := by
  obtain ⟨snap, hsnap, hens, hrely₀⟩ := h
  exact ⟨snap, hsnap, hens, ((P s.task).amid s.server).rely_trans hrely₀ hrely⟩

/-- Others' locks and one's own are different, what is written is locked, and every session
is on its way to `Q`. -/
structure Inv (P : Task → Pact) (Q : Task → Reply → Db → Own → Prop) (w : World) : Prop where
  apart : w.sessions.Pairwise fun s s' => s.own.locks.Disjoint s'.own.locks
  guarded : ∀ s ∈ w.sessions, s.own.Guarded
  secure : ∀ s ∈ w.sessions, Secure P Q w.db s

variable {w w' : World} {i : ℕ} {s s' : Session}

theorem Inv.set (hinv : Inv P Q w) (hs : w.sessions[i]? = some s)
    (hlocks : ∀ l ∈ s'.own.locks, l ∈ s.own.locks ∨ l ∉ w.others i)
    (hguarded : s'.own.Guarded) (hsecure : Secure P Q w.db s') :
    Inv P Q { w with sessions := w.sessions.set i s' } := by
  obtain ⟨pre, post, heq, hset, herase⟩ := Actions.exists_of_getElem? hs
  have hother : ∀ t ∈ pre ++ post, s.own.locks.Disjoint t.own.locks →
      s'.own.locks.Disjoint t.own.locks := by
    intro t ht hdisj l hl hlt
    rcases hlocks l hl with hold | hnew
    · exact hdisj hold hlt
    · apply hnew
      rw [others, herase]
      exact List.mem_flatMap.mpr ⟨t, ht, hlt⟩
  refine ⟨?_, fun t ht => ?_, fun t ht => ?_⟩
  · have hapart := hinv.apart
    simp only [hset]
    rw [heq] at hapart
    rw [List.pairwise_append, List.pairwise_cons] at hapart ⊢
    obtain ⟨hpre, ⟨hhead, hpost⟩, hcross⟩ := hapart
    refine ⟨hpre, ⟨fun t ht => ?_, hpost⟩, fun t ht u hu => ?_⟩
    · exact hother t (List.mem_append_right _ ht) (hhead t ht)
    rcases List.mem_cons.mp hu with rfl | hu
    · have hdisj : s.own.locks.Disjoint t.own.locks :=
        fun l hl hlt => hcross t ht s (.head _) hlt hl
      exact fun l hlt hl => hother t (List.mem_append_left _ ht) hdisj hl hlt
    · exact hcross t ht u (.tail _ hu)
  · rcases List.mem_or_eq_of_mem_set ht with ht | rfl
    · exact hinv.guarded t ht
    · exact hguarded
  · rcases List.mem_or_eq_of_mem_set ht with ht | rfl
    · exact hinv.secure t ht
    · exact hsecure

theorem Inv.issue (hinv : Inv P Q w) (hs : w.sessions[i]? = some s) :
    Inv P Q { w with sessions := w.sessions.set i { s with snapshot := some w.db } } := by
  have hmem := List.mem_of_getElem? hs
  apply hinv.set hs
  · exact fun l hl => .inl hl
  · exact hinv.guarded s hmem
  · refine ⟨w.db, ?_, (hinv.secure s hmem).ensures, ((P s.task).amid s.server).rely_refl _ _⟩
    intro x hx
    exact (Option.some.inj hx).symm

theorem carryOut_cases {held : List Lock}
    (h : carryOut held a db s = some s') :
    ∃ st k snap r, s.prog = .stmt st k ∧ s.snapshot = some snap ∧
      st.amid s.server a snap db s.own = some (r, s'.own) ∧
      (∀ l ∈ held, l ∉ s'.own.locks) ∧
      s' = { s with prog := k r, own := s'.own, snapshot := none } := by
  unfold carryOut at h
  split at h
  · next st k snap hprog hsnap =>
      obtain ⟨⟨r, own⟩, hamid, h⟩ := Option.bind_eq_some_iff.mp h
      obtain ⟨hfree, ⟨⟩⟩ := Option.ite_none_right_eq_some.mp h
      exact ⟨st, k, snap, r, hprog, hsnap, hamid, fun l hl => (hfree l hl).1, rfl⟩
  · cases h

theorem Inv.execute (hinv : Inv P Q w) (hs : w.sessions[i]? = some s)
    (hout : carryOut (w.others i) a w.db s = some s') :
    Inv P Q { w with sessions := w.sessions.set i s' } := by
  have hmem := List.mem_of_getElem? hs
  obtain ⟨st, k, snap, r, hprog, hsnap, hamid, hfree, heq⟩ := carryOut_cases hout
  apply hinv.set hs
  · exact fun l hl => .inr fun hheld => hfree l hheld hl
  · exact Stmt.amid_guarded hamid (hinv.guarded s hmem)
  obtain ⟨snap', hsame, hens, hrely⟩ := hinv.secure s hmem
  obtain rfl := hsame snap hsnap
  rw [hprog] at hens
  have hnext := hens snap w.db (((P s.task).amid s.server).rely_refl _ _) hrely a r s'.own hamid
  rw [heq]
  exact ⟨w.db, by simp, hnext, ((P s.task).amid s.server).rely_refl _ _⟩

theorem Inv.eraseIdx (hinv : Inv P Q w) (i : ℕ) :
    Inv P Q { w with sessions := w.sessions.eraseIdx i } :=
  ⟨hinv.apart.sublist (List.eraseIdx_sublist _ _),
    fun s hs => hinv.guarded s (List.mem_of_mem_eraseIdx hs),
    fun s hs => hinv.secure s (List.mem_of_mem_eraseIdx hs)⟩

/-- The others see a commit as their pacts say. -/
theorem Inv.commit (hinv : Inv P Q w) (hs : w.sessions[i]? = some s)
    (hmay : ∀ t ∈ w.sessions.eraseIdx i, (P t.task).may t.own w.db (s.own.view w.db)) :
    Inv P Q { db := s.own.view w.db, sessions := w.sessions.eraseIdx i } := by
  have hrest := hinv.eraseIdx i
  refine ⟨hrest.apart, hrest.guarded, fun t ht => ?_⟩
  have hother := hmay t ht
  obtain ⟨pre, post, heq, -, herase⟩ := Actions.exists_of_getElem? hs
  have hdisj : s.own.locks.Disjoint t.own.locks := by
    have hapart := hinv.apart
    rw [heq, List.pairwise_append, List.pairwise_cons] at hapart
    rcases List.mem_append.mp (herase ▸ ht) with ht | ht
    · exact fun l hl hlt => hapart.2.2 t ht s List.mem_cons_self hlt hl
    · exact hapart.2.1.1 t ht
  have hagree : Db.Agree t.own.locks w.db (s.own.view w.db) := by
    apply Db.Agree.applyAll
    intro x hx l hl hlt
    exact hdisj (hinv.guarded s (List.mem_of_getElem? hs) x hx l hl) hlt
  exact (hrest.secure t ht).stable ⟨hagree, hother⟩

theorem Inv.begin (hinv : Inv P Q w) {t : Task} {prog : Tx Reply}
    (hens : ((P t).amid srv).Ensures (Q t) prog w.db {}) :
    Inv P Q { w with sessions := w.sessions ++ [{ task := t, prog := prog, server := srv }] } := by
  refine ⟨?_, fun s hs => ?_, fun s hs => ?_⟩
  · refine List.pairwise_append.mpr ⟨hinv.apart, List.pairwise_singleton _ _, fun s _ s' hs' => ?_⟩
    rw [List.mem_singleton.mp hs']
    exact List.disjoint_nil_right _
  · rcases List.mem_append.mp hs with hs | hs
    · exact hinv.guarded s hs
    · rw [List.mem_singleton.mp hs]
      exact fun x hx => absurd hx List.not_mem_nil
  · rcases List.mem_append.mp hs with hs | hs
    · exact hinv.secure s hs
    · rw [List.mem_singleton.mp hs]
      exact ⟨w.db, by simp, hens, ((P t).amid srv).rely_refl _ _⟩

theorem commit_cases (hact : w.act (.commit i) = some w') :
    ∃ s r, w.sessions[i]? = some s ∧ s.prog = .ret r ∧
      w' = { db := s.own.view w.db, sessions := w.sessions.eraseIdx i } := by
  obtain ⟨s, hs, hact⟩ := Option.bind_eq_some_iff.mp hact
  split at hact
  · next r hprog =>
      cases hact
      exact ⟨s, r, hs, hprog, rfl⟩
  · cases hact

/-- A session that may commit has reached `Q`. -/
theorem Inv.ends (hinv : Inv P Q w) (hs : w.sessions[i]? = some s) {r : Reply}
    (hprog : s.prog = .ret r) : Q s.task r w.db s.own := by
  have hens := (hinv.secure s (List.mem_of_getElem? hs)).ensures
  rw [hprog] at hens
  exact hens w.db (((P s.task).amid s.server).rely_refl _ _)

section Rules

/- Every transaction that begins ends with `Q` whatever the others do within its pact, and a
commit from `Q` keeps `I` and is within the pacts of the others. -/
variable {I : Db → Prop} {ok : World → Action → Bool}
  (hbegin : ∀ w t fuel scope defaults srv, I w.db →
    ok w (.begin t fuel scope defaults srv) = true →
    ((P t).amid srv).Ensures (Q t) (t.program fuel scope defaults) w.db {})
  (hcommit : ∀ w i s r, I w.db → w.sessions[i]? = some s → s.prog = .ret r →
    ok w (.commit i) = true → Q s.task r w.db s.own → I (s.own.view w.db) ∧
      ∀ t ∈ w.sessions.eraseIdx i, (P t.task).may t.own w.db (s.own.view w.db))
include hbegin hcommit

theorem Inv.act (hdb : I w.db) (hinv : Inv P Q w) {a : Action} (hact : w.act a = some w')
    (hok : ok w a = true) : I w'.db ∧ Inv P Q w' := by
  cases a with
  | begin t fuel scope defaults srv =>
    cases hact
    exact ⟨hdb, hinv.begin (hbegin w t fuel scope defaults srv hdb hok)⟩
  | issue i =>
    obtain ⟨s, hs, hact⟩ := Option.bind_eq_some_iff.mp hact
    cases hact
    exact ⟨hdb, hinv.issue hs⟩
  | execute i a =>
    obtain ⟨s, hs, hact⟩ := Option.bind_eq_some_iff.mp hact
    obtain ⟨s', hs', hact⟩ := Option.bind_eq_some_iff.mp hact
    cases hact
    exact ⟨hdb, hinv.execute hs hs'⟩
  | commit i =>
    obtain ⟨s, r, hs, hprog, rfl⟩ := commit_cases hact
    obtain ⟨hnext, hmay⟩ := hcommit w i s r hdb hs hprog hok (hinv.ends hs hprog)
    exact ⟨hnext, hinv.commit hs hmay⟩
  | rollback i =>
    cases hact
    exact ⟨hdb, hinv.eraseIdx i⟩

/-- **Transactions that keep their pacts.** -/
theorem run_within (hdb : I db)
    (hrun : Relation.ReflTransGen (Actions.Takes World.act ok) { db := db } w) :
    I w.db ∧ Inv P Q w := by
  have hnew : Inv P Q { db := db } :=
    ⟨List.Pairwise.nil, fun s hs => absurd hs List.not_mem_nil,
      fun s hs => absurd hs List.not_mem_nil⟩
  exact Actions.preserves (I := fun w => I w.db ∧ Inv P Q w)
    (fun _ _ _ h hact hok => Inv.act hbegin hcommit h.1 h.2 hact hok) ⟨hdb, hnew⟩ hrun

end Rules
end World
end DagWorker.Postgres
