import DagWorker.Postgres.Sessions
import DagWorker.Support.Table

/-!
# What a transaction sees

A transaction sees what is committed with its own writes on top.  Where it holds the lock,
what it sees does not change when others commit; and its own contribution to a count of
rows does not change at all.
-/

namespace DagWorker.Postgres

variable {id : ℕ} (p : NodeRow → Bool)

namespace Db

variable {db db' : Db}

theorem apply_rows_congr (h : db'.rows.lookup id = db.rows.lookup id) (w : Write) :
    (db'.apply w).rows.lookup id = (db.apply w).rows.lookup id := by
  cases w with
  | row x r =>
    by_cases hx : id = x
    · subst hx
      simp [apply]
    · simp only [apply, AList.lookup_insert_ne hx, h]
  | dropRow x =>
    by_cases hx : id = x
    · subst hx
      simp [apply]
    · simp only [apply, AList.lookup_erase_ne hx, h]
  | _ => exact h

theorem applyAll_rows_congr (h : db'.rows.lookup id = db.rows.lookup id) (ws : List Write) :
    (db'.applyAll ws).rows.lookup id = (db.applyAll ws).rows.lookup id := by
  induction ws generalizing db db' with
  | nil => exact h
  | cons w ws ih => exact ih (apply_rows_congr h w)

theorem apply_scopeRow_congr (h : db'.scopeRow = db.scopeRow) (w : Write) :
    (db'.apply w).scopeRow = (db.apply w).scopeRow := by
  cases w with
  | scopeRow sc => rfl
  | _ => exact h

theorem applyAll_scopeRow_congr (h : db'.scopeRow = db.scopeRow) (ws : List Write) :
    (db'.applyAll ws).scopeRow = (db.applyAll ws).scopeRow := by
  induction ws generalizing db db' with
  | nil => exact h
  | cons w ws ih => exact ih (apply_scopeRow_congr h w)

theorem applyAll_scopeRow {ws : List Write} (h : ∀ w ∈ ws, ∀ sc, w ≠ .scopeRow sc) (db : Db) :
    (db.applyAll ws).scopeRow = db.scopeRow := by
  induction ws generalizing db with
  | nil => rfl
  | cons w ws ih =>
    have hfirst : (db.apply w).scopeRow = db.scopeRow := by
      cases w with
      | scopeRow sc => exact absurd rfl (h _ (.head _) sc)
      | _ => rfl
    exact (ih (fun v hv => h v (.tail _ hv)) (db.apply w)).trans hfirst

/-- What one write adds to a count of rows depends on the row it writes. -/
theorem apply_count_congr {w : Write}
    (h : ∀ id, w.lock = some (.row id) → db'.rows.lookup id = db.rows.lookup id) :
    (Table.count (db'.apply w).rows p : Int) - Table.count db'.rows p =
      Table.count (db.apply w).rows p - Table.count db.rows p := by
  cases w with
  | row id r =>
    have hnew := Table.count_insert db.rows p id r
    have hnew' := Table.count_insert db'.rows p id r
    rw [h id rfl] at hnew'
    simp only [apply]
    omega
  | dropRow id =>
    have hless := Table.count_erase_add db.rows p id
    have hless' := Table.count_erase_add db'.rows p id
    rw [h id rfl] at hless'
    simp only [apply]
    omega
  | _ => simp [apply]

theorem applyAll_count_congr {ws : List Write}
    (h : ∀ w ∈ ws, ∀ id, w.lock = some (.row id) → db'.rows.lookup id = db.rows.lookup id) :
    (Table.count (db'.applyAll ws).rows p : Int) - Table.count db'.rows p =
      Table.count (db.applyAll ws).rows p - Table.count db.rows p := by
  induction ws generalizing db db' with
  | nil => simp [applyAll]
  | cons w ws ih =>
    have hfirst := apply_count_congr p (h w (.head _))
    have hrest : (Table.count ((db'.apply w).applyAll ws).rows p : Int) -
        Table.count (db'.apply w).rows p =
          Table.count ((db.apply w).applyAll ws).rows p - Table.count (db.apply w).rows p :=
      ih fun v hv id hid => apply_rows_congr (h v (.tail _ hv) id hid) w
    change (Table.count ((db'.apply w).applyAll ws).rows p : Int) - _ =
      Table.count ((db.apply w).applyAll ws).rows p - _
    omega

end Db

namespace Own

variable {own : Own} {db db' : Db}

/-- The scope row is locked, or the transaction sees what is committed. -/
theorem Guarded.scope_view (h : own.Guarded) :
    Lock.scopeRow ∈ own.locks ∨ ∀ db, (own.view db).scopeRow = db.scopeRow := by
  by_cases hlock : Lock.scopeRow ∈ own.locks
  · exact .inl hlock
  · refine .inr fun db => Db.applyAll_scopeRow (fun w hw sc heq => ?_) db
    subst heq
    exact hlock (h _ hw _ rfl)

/-- The transaction has the row locked, and sees it as `r`. -/
def Holds (own : Own) (db : Db) (id : ℕ) (r : NodeRow) : Prop :=
  Lock.row id ∈ own.locks ∧ (own.view db).rows.lookup id = some r

theorem Holds.stable {r : NodeRow} (h : own.Holds db id r) (hagree : Db.Agree own.locks db db') :
    own.Holds db' id r := by
  refine ⟨h.1, ?_⟩
  rw [view, Db.applyAll_rows_congr (hagree.rows id h.1)]
  exact h.2

/-- How many more rows with a property there are in the transaction's view than committed. -/
theorem Guarded.count_view (h : own.Guarded) (hagree : Db.Agree own.locks db db')
    (p : NodeRow → Bool) :
    (Table.count (own.view db').rows p : Int) - Table.count db'.rows p =
      Table.count (own.view db).rows p - Table.count db.rows p :=
  Db.applyAll_count_congr p fun w hw id hid => hagree.rows id (h w hw _ hid)

end Own
end DagWorker.Postgres
