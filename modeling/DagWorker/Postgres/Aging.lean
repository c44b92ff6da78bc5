import DagWorker.Postgres.Gentle
import Mathlib.Logic.Function.Basic

/-!
# Levels of identifiers

The level of an identifier is the epoch of its node, or the floor that a new node would
start from.  No statement lowers a level, except a deletion that leaves the floor below
the epoch of the deleted row.
-/

namespace DagWorker.Postgres

open Function
open Dialogue (Uses uses_ask uses_orAbort uses_ofExcept)

variable {db db' : Db} {x : ℕ} {r' : NodeRow}

/-! ## Levels -/

namespace Db

def epochOf (db : Db) (k : NodeID) : Option ℕ :=
  (db.rows.entries.find? fun x => x.2.nodeID = k).map fun x => x.2.epoch

/-- No later grant for the identifier is numbered at or below this. -/
def level (db : Db) (k : NodeID) : ℕ := (db.epochOf k).getD db.floor

/-- Identifiers are unique, and every epoch fits its column. -/
structure Fit (db : Db) : Prop where
  unique : ∀ x y r r', db.rows.lookup x = some r → db.rows.lookup y = some r' →
    r.nodeID = r'.nodeID → x = y
  epoch_lt : ∀ x r, db.rows.lookup x = some r → r.epoch < 2 ^ 63
  floor_lt : db.floor < 2 ^ 63

theorem fit_empty : ({} : Db).Fit :=
  ⟨fun _ _ _ _ h => (nomatch h), fun _ _ h => (nomatch h), by decide⟩

theorem Fit.level_eq (h : db.Fit) {r : NodeRow}
    (hr : db.rows.lookup x = some r) : db.level r.nodeID = r.epoch := by
  unfold level epochOf
  cases hfind : db.rows.entries.find? fun y => decide (y.2.nodeID = r.nodeID) with
  | none =>
    rw [List.find?_eq_none] at hfind
    exact absurd (decide_eq_true rfl) (hfind ⟨x, r⟩ (AList.mem_lookup_iff.mp hr))
  | some y =>
    have hy : db.rows.lookup y.1 = some y.2 :=
      AList.mem_lookup_iff.mpr (List.mem_of_find?_eq_some hfind)
    have hname : y.2.nodeID = r.nodeID := by simpa using List.find?_some hfind
    have hx := h.unique y.1 x y.2 r hy hr hname
    rw [hx, hr, Option.some.injEq] at hy
    simp [hy]

theorem level_of_absent {k : NodeID}
    (h : ∀ x r, db.rows.lookup x = some r → r.nodeID ≠ k) : db.level k = db.floor := by
  have hfind : (db.rows.entries.find? fun y => decide (y.2.nodeID = k)) = none := by
    rw [List.find?_eq_none]
    intro y hy
    simpa using h y.1 y.2 (AList.mem_lookup_iff.mpr hy)
  simp [level, epochOf, hfind]

/-- A later state: floor and levels have risen, and an epoch is lost only below the
floor. -/
structure Aged (db db' : Db) : Prop where
  floor : db.floor ≤ db'.floor
  level : ∀ k, db.level k ≤ db'.level k
  row : ∀ x r, db.rows.lookup x = some r →
    (∃ r', db'.rows.lookup x = some r' ∧ r'.nodeID = r.nodeID ∧ r.epoch ≤ r'.epoch) ∨
      r.epoch ≤ db'.floor

namespace Aged

theorem refl (db : Db) : Aged db db :=
  ⟨le_rfl, fun _ => le_rfl, fun _ r hr => .inl ⟨r, hr, rfl, le_rfl⟩⟩

theorem trans {db₁ db₂ db₃ : Db} (h : Aged db₁ db₂) (h' : Aged db₂ db₃) : Aged db₁ db₃ := by
  constructor
  · exact h.floor.trans h'.floor
  · exact fun k => (h.level k).trans (h'.level k)
  intro x r hr
  rcases h.row x r hr with ⟨r₂, hr₂, hid₂, hle₂⟩ | hle
  · rcases h'.row x r₂ hr₂ with ⟨r₃, hr₃, hid₃, hle₃⟩ | hle₃
    · exact .inl ⟨r₃, hr₃, hid₃.trans hid₂, hle₂.trans hle₃⟩
    · exact .inr (hle₂.trans hle₃)
  · exact .inr (hle.trans h'.floor)

end Aged

/-- Fit tables stay fit and age. -/
def Ages (db db' : Db) : Prop := db.Fit → db'.Fit ∧ Aged db db'

theorem Ages.trans {db₁ db₂ db₃ : Db} (h : Ages db₁ db₂) (h' : Ages db₂ db₃) : Ages db₁ db₃ := by
  intro hfit
  obtain ⟨hfit₂, haged⟩ := h hfit
  obtain ⟨hfit₃, haged'⟩ := h' hfit₂
  exact ⟨hfit₃, haged.trans haged'⟩

variable {db : Db}

theorem level_of_rows (hrows : db'.rows = db.rows) (hfloor : db.floor ≤ db'.floor)
    (k : NodeID) : db.level k ≤ db'.level k := by
  unfold level epochOf
  rw [hrows]
  cases db.rows.entries.find? fun x => decide (x.2.nodeID = k) with
  | none => exact hfloor
  | some x => exact le_rfl

theorem Ages.of_rows (hrows : db'.rows = db.rows) (hfloor : db.floor ≤ db'.floor)
    (hlt : db.floor < 2 ^ 63 → db'.floor < 2 ^ 63) : Ages db db' := by
  intro hfit
  constructor
  · constructor
    · rw [hrows]
      exact hfit.unique
    · rw [hrows]
      exact hfit.epoch_lt
    · exact hlt hfit.floor_lt
  · refine ⟨hfloor, level_of_rows hrows hfloor, fun x r hr => .inl ⟨r, ?_, rfl, le_rfl⟩⟩
    rw [hrows]
    exact hr

/-- The row of `x` becomes `r'`. -/
def withRow (db : Db) (x : ℕ) (r' : NodeRow) : Db := { db with rows := db.rows.insert x r' }

@[simp] theorem withRow_floor (x : ℕ) (r' : NodeRow) : (db.withRow x r').floor = db.floor := rfl

theorem withRow_lookup (x : ℕ) (r' : NodeRow) (y : ℕ) :
    (db.withRow x r').rows.lookup y = if y = x then some r' else db.rows.lookup y := by
  split
  · next h =>
      subst h
      exact AList.lookup_insert _
  · next h => exact AList.lookup_insert_ne h

theorem Fit.withRow (hfit : db.Fit)
    (hname : ∀ y r, db.rows.lookup y = some r → r.nodeID = r'.nodeID → y = x)
    (hlt : r'.epoch < 2 ^ 63) : (db.withRow x r').Fit := by
  constructor
  · intro y z r s hy hz hid
    rw [withRow_lookup] at hy hz
    split at hy <;> split at hz
    · next h h' => rw [h, h']
    · next h h' =>
        cases hy
        rw [h, hname z s hz hid.symm]
    · next h h' =>
        cases hz
        rw [h', hname y r hy hid]
    · exact hfit.unique y z r s hy hz hid
  · intro y r hy
    rw [withRow_lookup] at hy
    split at hy
    · cases hy
      exact hlt
    · exact hfit.epoch_lt y r hy
  · exact hfit.floor_lt

/-- The level of an identifier after its row, old or new, was written. -/
theorem Fit.level_withRow (hfit : db.Fit) (hfit' : (db.withRow x r').Fit)
    (hsame : ∀ r, db.rows.lookup x = some r → r.nodeID = r'.nodeID) (k : NodeID) :
    (db.withRow x r').level k = update db.level r'.nodeID r'.epoch k := by
  have hx : (db.withRow x r').rows.lookup x = some r' := by simp [withRow_lookup]
  by_cases hk : k = r'.nodeID
  · subst hk
    rw [update_self, hfit'.level_eq hx]
  rw [update_of_ne hk]
  by_cases hrow : ∃ y r, db.rows.lookup y = some r ∧ r.nodeID = k
  · obtain ⟨y, r, hr, rfl⟩ := hrow
    have hy : y ≠ x := by
      rintro rfl
      exact hk (hsame r hr)
    have hr' : (db.withRow x r').rows.lookup y = some r := by
      rw [withRow_lookup, if_neg hy]
      exact hr
    rw [hfit.level_eq hr, hfit'.level_eq hr']
  · have habsent : ∀ y r, db.rows.lookup y = some r → r.nodeID ≠ k :=
      fun y r hr hid => hrow ⟨y, r, hr, hid⟩
    rw [level_of_absent habsent, level_of_absent, withRow_floor]
    intro y r hr
    rw [withRow_lookup] at hr
    split at hr
    · cases hr
      exact Ne.symm hk
    · exact habsent y r hr

/-- A row keeps its identifier, and its epoch does not fall. -/
theorem Ages.of_update {r : NodeRow} (hr : db.rows.lookup x = some r)
    (hid : r'.nodeID = r.nodeID) (hle : r.epoch ≤ r'.epoch)
    (hlt : r.epoch < 2 ^ 63 → r'.epoch < 2 ^ 63) : Ages db (db.withRow x r') := by
  intro hfit
  have hfit' : (db.withRow x r').Fit :=
    hfit.withRow (fun y s hs hname => hfit.unique y x s r hs hr (hname.trans hid))
      (hlt (hfit.epoch_lt x r hr))
  refine ⟨hfit', le_rfl, fun k => ?_, fun y s hs => .inl ?_⟩
  · rw [hfit.level_withRow hfit']
    · by_cases hk : k = r'.nodeID
      · rw [hk, update_self, hid, hfit.level_eq hr]
        exact hle
      · rw [update_of_ne hk]
    · intro s hs
      obtain rfl := Option.mem_unique hr hs
      exact hid.symm
  · rw [withRow_lookup]
    split
    · next h =>
        subst h
        obtain rfl := Option.mem_unique hr hs
        exact ⟨r', rfl, hid, hle⟩
    · exact ⟨s, hs, rfl, le_rfl⟩

/-- A new node starts at the floor. -/
theorem Ages.of_create (hr : db.rows.lookup x = none)
    (hnew : ∀ y r, db.rows.lookup y = some r → r.nodeID ≠ r'.nodeID)
    (hepoch : r'.epoch = db.floor) : Ages db (db.withRow x r') := by
  intro hfit
  have hfit' : (db.withRow x r').Fit :=
    hfit.withRow (fun y s hs hname => absurd hname (hnew y s hs)) (by
      rw [hepoch]
      exact hfit.floor_lt)
  refine ⟨hfit', le_rfl, fun k => ?_, fun y s hs => .inl ⟨s, ?_, rfl, le_rfl⟩⟩
  · rw [hfit.level_withRow hfit' fun s hs => by rw [hr] at hs; cases hs]
    by_cases hk : k = r'.nodeID
    · rw [hk, update_self, hepoch, level_of_absent hnew]
    · rw [update_of_ne hk]
  · rw [withRow_lookup, if_neg]
    · exact hs
    · rintro rfl
      rw [hr] at hs
      cases hs

theorem Still.back (h : db.Still db')
    (hr' : db'.rows.lookup x = some r') : ∃ r, db.rows.lookup x = some r ∧ r.Inherits r' := by
  cases hr : db.rows.lookup x with
  | none =>
    rw [h.none x hr] at hr'
    cases hr'
  | some r =>
    obtain ⟨s, hs, hi⟩ := h.row x r hr
    obtain rfl := Option.mem_unique hs hr'
    exact ⟨r, rfl, hi⟩

theorem Still.ages (h : db.Still db') : Ages db db' := by
  intro hfit
  have hfit' : db'.Fit := by
    constructor
    · intro x y r s hr hs hid
      obtain ⟨r₀, hr₀, hi⟩ := h.back hr
      obtain ⟨s₀, hs₀, hi'⟩ := h.back hs
      exact hfit.unique x y r₀ s₀ hr₀ hs₀ (hi.nodeID.symm.trans (hid.trans hi'.nodeID))
    · intro x r hr
      obtain ⟨r₀, hr₀, hi⟩ := h.back hr
      rw [hi.epoch]
      exact hfit.epoch_lt x r₀ hr₀
    · rw [h.floor]
      exact hfit.floor_lt
  refine ⟨hfit', h.floor.ge, fun k => ?_, fun x r hr => .inl ?_⟩
  · by_cases hrow : ∃ x r, db.rows.lookup x = some r ∧ r.nodeID = k
    · obtain ⟨x, r, hr, rfl⟩ := hrow
      obtain ⟨r', hr', hi⟩ := h.row x r hr
      rw [hfit.level_eq hr, ← hi.nodeID, hfit'.level_eq hr', hi.epoch]
    rw [level_of_absent fun x r hr hid => hrow ⟨x, r, hr, hid⟩, level_of_absent, h.floor]
    intro x r hr hid
    obtain ⟨r₀, hr₀, hi⟩ := h.back hr
    exact hrow ⟨x, r₀, hr₀, hi.nodeID.symm.trans hid⟩
  · obtain ⟨r', hr', hi⟩ := h.row x r hr
    exact ⟨r', hr', hi.nodeID, hi.epoch.ge⟩

/-- A deleted row leaves its epoch at or below the floor. -/
theorem Ages.of_delete (hrows : db'.rows = db.rows.erase x)
    (hfloor : db'.floor = db.floor)
    (hretired : ∀ r, db.rows.lookup x = some r → r.epoch ≤ db.floor) : Ages db db' := by
  intro hfit
  have hback : ∀ y r, db'.rows.lookup y = some r → y ≠ x ∧ db.rows.lookup y = some r := by
    intro y r hr
    rw [hrows] at hr
    by_cases hy : y = x
    · subst hy
      rw [AList.lookup_erase] at hr
      cases hr
    · exact ⟨hy, by rwa [AList.lookup_erase_ne hy] at hr⟩
  have hfit' : db'.Fit := by
    constructor
    · intro y z r s hy hz hid
      exact hfit.unique y z r s (hback y r hy).2 (hback z s hz).2 hid
    · exact fun y r hy => hfit.epoch_lt y r (hback y r hy).2
    · rw [hfloor]
      exact hfit.floor_lt
  have hkept : ∀ y r, db.rows.lookup y = some r → y ≠ x → db'.rows.lookup y = some r := by
    intro y r hr hy
    rw [hrows, AList.lookup_erase_ne hy]
    exact hr
  refine ⟨hfit', hfloor.ge, fun k => ?_, fun y r hr => ?_⟩
  · by_cases hrow : ∃ y r, db.rows.lookup y = some r ∧ r.nodeID = k
    · obtain ⟨y, r, hr, rfl⟩ := hrow
      rw [hfit.level_eq hr]
      by_cases hy : y = x
      · subst hy
        rw [level_of_absent, hfloor]
        · exact hretired r hr
        · intro z s hs hid
          obtain ⟨hz, hs⟩ := hback z s hs
          exact hz (hfit.unique z y s r hs hr hid)
      · rw [hfit'.level_eq (hkept y r hr hy)]
    · rw [level_of_absent fun y r hr hid => hrow ⟨y, r, hr, hid⟩, level_of_absent, hfloor]
      exact fun y r hr hid => hrow ⟨y, r, (hback y r hr).2, hid⟩
  · by_cases hy : y = x
    · subst hy
      rw [hfloor]
      exact .inr (hretired r hr)
    · exact .inl ⟨r, hkept y r hr hy, rfl, le_rfl⟩

end Db

/-! ## Statements and programs -/

/-- No node is deleted, and the floor stays within its column. -/
def Stmt.Lasting : Stmt → Prop
  | .updateNode _ f => ∀ r : NodeRow, r.Inherits (f r)
  | .deleteNode _ => False
  | .raiseEpochFloor epoch => epoch < 2 ^ 63
  | _ => True

theorem Stmt.Gentle.lasting {s : Stmt} (h : s.Gentle) : s.Lasting := by
  cases s <;> first | exact h | exact h.elim

theorem Changes.raise_floor {sc : ScopeRow} (hsc : db.scopeRow = some sc) (epoch : ℕ) :
    ({ db with scopeRow := some { sc with epochFloor := max sc.epochFloor epoch } } : Db).floor =
      max db.floor epoch := by
  simp [Db.floor, hsc]

theorem Changes.ages {s : Stmt} (h : Changes db s db') (hs : s.Lasting) :
    db.Ages db' := by
  by_cases hgentle : s.Gentle
  · exact (h.still hgentle).ages
  cases h with
  | raise epoch sc hsc =>
    refine .of_rows rfl ?_ fun hlt => ?_
    · rw [raise_floor hsc]
      exact le_max_left _ _
    · rw [raise_floor hsc]
      exact max_lt hlt hs
  | insert spec id rank created updated hid hrank hnone hnew =>
    have hcreate : db.Ages (db.withRow id (createdRow spec rank db.floor created updated)) :=
      .of_create hnone hnew rfl
    exact hcreate.trans (.of_rows rfl le_rfl fun h => h)
  | grant kinds workerID leaseFor deadline id r hr hphase hlt =>
    exact .of_update hr rfl (Nat.le_succ _) fun _ => hlt
  | nothing => exact fun hfit => ⟨hfit, .refl db⟩
  | delete => exact hs.elim
  | update => exact absurd hs hgentle
  | _ => exact absurd trivial hgentle

namespace Tx

/-- A program of lasting statements. -/
abbrev Lasting {α : Type} (p : Tx α) : Prop := Uses Stmt.Lasting p

theorem Gentle.lasting {α : Type} {p : Tx α} (h : p.Gentle) : p.Lasting :=
  h.mono fun _ hs => hs.lasting

theorem Lasting.ages {α : Type} {p : Tx α} (h : p.Lasting) (srv : Server) (e : Engine) :
    p.Wp srv (fun _ e' => e.toDb.Ages e'.toDb) e := by
  apply Uses.wp (R := fun e e' : Engine => e.toDb.Ages e'.toDb) h
  · exact fun e hfit => ⟨hfit, .refl e.toDb⟩
  · exact fun _ _ _ h₁ h₂ => h₁.trans h₂
  · intro s hs a e r e' hexec
    exact (Stmt.exec_changes hexec).ages hs

theorem materialiseAddNodesBatch_lasting (specs : List NodeSpec) :
    (materialiseAddNodesBatch specs).Lasting :=
  materialiseAddNodesBatch_uses (fun _ hs => hs.gentle.lasting) (fun _ => trivial) specs

theorem addNodes_lasting (fuel : ℕ) (scope : String) (defaults : ScopeConfig)
    (specs : List NodeSpec) : (addNodes fuel scope defaults specs).Lasting := by
  unfold addNodes
  split
  · trivial
  apply Uses.bind (uses_ask trivial)
  intro _
  apply Uses.bind (uses_ask trivial)
  intro _
  apply Uses.bind (uses_ask trivial)
  intro sc
  simp only
  split
  · trivial
  apply Uses.bind (uses_ofExcept _)
  intro _
  apply Uses.bind (materialiseAddNodesBatch_lasting specs)
  intro nodes
  apply Uses.bind linkAddNodesBatch_linking.gentle.lasting
  intro touched
  apply Uses.bind announceFresh_neutral.plain.gentle.lasting
  intro effects
  apply Uses.bind settleTouched_plain.gentle.lasting
  intro more
  exact finalize_plain.gentle.lasting.bind fun _ => trivial

end Tx

end DagWorker.Postgres
