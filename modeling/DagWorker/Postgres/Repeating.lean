import DagWorker.Postgres.Aging
import DagWorker.Postgres.Linking

/-!
# Repeating a batch

A batch that has been committed finds its own rows when it is sent again.  Every column that
`specMatches` compares is stored as it was given, except for the number of attempts, which
is cut down to its column and then compared with the number in the spec.
-/

namespace DagWorker.Postgres

open Dialogue (wp_bind wp_ofExcept)

variable {db db' : Db} {specs : List NodeSpec} {spec : NodeSpec}
variable {r : NodeRow} {scope : String} {defaults : ScopeConfig}

def Db.Named (db : Db) (id : NodeID) : Prop :=
  ∃ x r, db.rows.lookup x = some r ∧ r.nodeID = id

def FitsAttempts (spec : NodeSpec) : Prop := spec.retry.maxAttempts ≤ 2 ^ 31 - 1

instance : Decidable (FitsAttempts spec) := inferInstanceAs (Decidable (_ ≤ _))

theorem Db.Still.named (h : db.Still db') (id : NodeID) : db'.Named id ↔ db.Named id := by
  constructor
  · rintro ⟨x, r', hr', rfl⟩
    cases hr : db.rows.lookup x with
    | none =>
      rw [h.none x hr] at hr'
      cases hr'
    | some r =>
      obtain ⟨r₂, hr₂, hin⟩ := h.row x r hr
      obtain rfl := Option.mem_unique hr' hr₂
      exact ⟨x, r, hr, hin.nodeID.symm⟩
  · rintro ⟨x, r, hr, rfl⟩
    obtain ⟨r', hr', hin⟩ := h.row x r hr
    exact ⟨x, r', hr', hin.nodeID⟩

namespace Tx

/-- The columns that are compared are those that a node keeps. -/
theorem specMatches_of_inherits {r' : NodeRow} (h : r.Inherits r') :
    specMatches r' spec = specMatches r spec := by
  simp only [specMatches, h.kind, h.priority, h.trigger, h.retry, h.payload, h.labels]

theorem Written.nodeID (h : Written spec r) : r.nodeID = spec.id := by
  obtain ⟨rank, epoch, created, updated, rfl⟩ := h
  rfl

/-- A row that was inserted for a spec matches it unless the number of attempts was cut. -/
theorem Written.specMatches_iff (h : Written spec r) :
    specMatches r spec = true ↔ FitsAttempts spec := by
  obtain ⟨rank, epoch, created, updated, rfl⟩ := h
  simp only [specMatches, createdRow, narrowI32, decide_true, Bool.true_and, Bool.and_true,
    Labels.equal_self, decide_eq_true_eq, min_eq_left_iff, FitsAttempts]

/-- The rows that `materialiseAddNodesBatch` reads. -/
def readBack (db : Db) (specs : List NodeSpec) : List (ℕ × NodeRow) :=
  ({ toDb := db } : Engine).rowsOf
    (({ toDb := db } : Engine).idsWhere fun r => r.nodeID ∈ specs.map fun spec => spec.id)

theorem rowFor_readBack (db : Db) (hspec : spec ∈ specs) :
    rowFor (readBack db specs) spec = none ∧ ¬ db.Named spec.id ∨
      ∃ n, rowFor (readBack db specs) spec = some n ∧ db.rows.lookup n.1 = some n.2 ∧
        n.2.nodeID = spec.id := by
  cases hrow : rowFor (readBack db specs) spec with
  | none =>
    refine .inl ⟨rfl, ?_⟩
    rintro ⟨x, r, hr, hid⟩
    rw [rowFor, List.find?_eq_none] at hrow
    have hmem : (x, r) ∈ readBack db specs := by
      rw [readBack, Engine.mem_rowsOf, Engine.mem_idsWhere]
      refine ⟨⟨r, hr, ?_⟩, hr⟩
      rw [decide_eq_true_eq, hid]
      exact List.mem_map_of_mem hspec
    exact hrow (x, r) hmem (decide_eq_true hid)
  | some n =>
    obtain ⟨hmem, hid⟩ := rowFor_some hrow
    exact .inr ⟨n, rfl, (Engine.mem_rowsOf.mp hmem).2, hid⟩

/-! ## The first call -/

/-- Every spec has its row, which matches if it was there before or if nothing was cut. -/
def Recorded (db : Db) (specs : List NodeSpec) (db' : Db) : Prop :=
  ∀ spec ∈ specs, ∃ x r, db'.rows.lookup x = some r ∧ r.nodeID = spec.id ∧
    (specMatches r spec = true ↔ db.Named spec.id ∨ FitsAttempts spec)

theorem Recorded.still {db₂ : Db} (h : Recorded db specs db') (hs : db'.Still db₂) :
    Recorded db specs db₂ := by
  intro spec hspec
  obtain ⟨x, r, hr, hid, hiff⟩ := h spec hspec
  obtain ⟨r₂, hr₂, hin⟩ := hs.row x r hr
  refine ⟨x, r₂, hr₂, hin.nodeID.trans hid, ?_⟩
  rw [specMatches_of_inherits hin]
  exact hiff

section

variable {srv : Server} {e : Engine}

theorem materialiseAddNodesBatch_recorded :
    (materialiseAddNodesBatch specs).Wp srv (fun _ e' => Recorded e.toDb specs e'.toDb) e := by
  apply wp_bind.mpr
  apply wp_read (s := .loadManyForUpdateByExternal (specs.map fun spec => spec.id)) fun _ => rfl
  apply wp_bind.mpr
  apply wp_ofExcept
  rintro ⟨nodes, toCreate⟩ hsplit
  obtain ⟨hmatch, ⟨⟩⟩ := splitSpecs_ok_iff.mp hsplit
  apply wp_bind.mpr
  apply insertNodes_wp.bind
  rintro created e₁ ⟨hin, hwritten⟩
  apply (countCreated_plain.gentle.still srv e₁).bind
  intro _ e₂ hstill
  refine Recorded.still (fun spec hspec => ?_) hstill
  rcases rowFor_readBack e.toDb hspec with ⟨hnone, hnew⟩ | ⟨n, hn, hrow, hid⟩
  · obtain ⟨x, hx, hw⟩ := hwritten spec
      (List.mem_filter.mpr ⟨hspec, Option.isNone_iff_eq_none.mpr hnone⟩)
    refine ⟨x.1, x.2, hin.rows x hx, hw.nodeID, hw.specMatches_iff.trans ?_⟩
    simp [hnew]
  · have hm : (rowFor (readBack e.toDb specs) spec).all (fun x => specMatches x.2 spec) :=
      hmatch spec hspec
    rw [hn] at hm
    exact ⟨n.1, n.2, hin.kept n.1 n.2 hrow, hid, iff_of_true hm (.inl ⟨n.1, n.2, hrow, hid⟩)⟩

theorem addNodes_recorded {fuel : ℕ} :
    (addNodes fuel scope defaults specs).Wp srv (fun _ e' => Recorded e.toDb specs e'.toDb) e := by
  apply addNodes_wp
  · intro hnil spec hspec
    rw [hnil] at hspec
    cases hspec
  intro e₁ hopened
  apply materialiseAddNodesBatch_recorded.bind
  intro x e₂ hrec
  have hrest : Gentle (do
      let touched ← linkAddNodesBatch fuel scope specs x.1 []
      let effects ← announceFresh x.2
      let more ← settleTouched fuel touched
      finalize
      pure (effects ++ more)) :=
    linkAddNodesBatch_linking.gentle.bind fun _ =>
      announceFresh_neutral.plain.gentle.bind fun _ =>
        settleTouched_plain.gentle.bind fun _ =>
          finalize_plain.gentle.bind fun _ => trivial
  refine (hrest.still srv e₂).mono fun _ e' hstill => ?_
  intro spec hspec
  have hnamed := (hopened.changes.still trivial).named spec.id
  simpa only [hnamed] using hrec.still hstill spec hspec

/-! ## The second call -/

/-- The batch passes the comparison with the rows it finds. -/
def Accepts (db : Db) (specs : List NodeSpec) : Prop :=
  ∃ out, splitSpecs (readBack db specs) specs ∅ [] = .ok out

theorem Recorded.accepts_iff (h : Recorded db specs db') (hfit : db'.Fit) :
    Accepts db' specs ↔ ∀ spec ∈ specs, db.Named spec.id ∨ FitsAttempts spec := by
  simp only [Accepts, splitSpecs_ok_iff, exists_and_left, exists_eq, and_true]
  refine forall₂_congr fun spec hspec => ?_
  -- the row that is found is the one that was recorded
  obtain ⟨x, r, hr, hid, hiff⟩ := h spec hspec
  rcases rowFor_readBack db' hspec with ⟨-, hnew⟩ | ⟨n, hn, hrow, hname⟩
  · exact absurd ⟨x, r, hr, hid⟩ hnew
  · obtain rfl := hfit.unique n.1 x n.2 r hrow hr (hname.trans hid.symm)
    obtain rfl := Option.mem_unique hrow hr
    rw [hn]
    exact hiff

/-- A batch with a cut row is refused. -/
theorem addNodes_refused {fuel : ℕ} (h : Recorded db specs e.toDb) (hfit : e.toDb.Fit)
    (hcut : ¬ ∀ spec ∈ specs, db.Named spec.id ∨ FitsAttempts spec) :
    (addNodes fuel scope defaults specs).Wp srv (fun _ _ => False) e := by
  apply addNodes_wp
  · rintro rfl
    exact hcut (by simp)
  intro e₁ hopened
  have hrec := h.still (hopened.changes.still trivial)
  have hfit₁ := (hopened.changes.ages trivial hfit).1
  apply wp_bind.mpr
  apply wp_bind.mpr
  apply wp_read (s := .loadManyForUpdateByExternal (specs.map fun spec => spec.id)) fun _ => rfl
  apply wp_bind.mpr
  apply wp_ofExcept
  intro out hout
  exact absurd ((hrec.accepts_iff hfit₁).mp ⟨out, hout⟩) hcut

end

end Tx

open Tx

/-- After a batch has been committed, every spec has a row, and the row matches the spec
exactly if it was there before or its number of attempts fits the column.  So the same
batch passes the comparison again exactly if the number of attempts of each node it created
fits, and otherwise no later call with it succeeds. -/
theorem addNodes_repeats_iff {c : Call} {db db' : Db} {specs : List NodeSpec}
    {effects : List Effect} (hfit : db.Fit) (hop : c.op = .addNodes specs)
    (hrun : c.run db = (.effects effects, db')) :
    (∀ spec ∈ specs, ∃ x r, db'.rows.lookup x = some r ∧ r.nodeID = spec.id ∧
      (specMatches r spec = true ↔ db.Named spec.id ∨ FitsAttempts spec)) ∧
    (Accepts db' specs ↔ ∀ spec ∈ specs, ¬ db.Named spec.id → FitsAttempts spec) ∧
    ((∃ spec ∈ specs, ¬ db.Named spec.id ∧ ¬ FitsAttempts spec) →
      ∀ again : Call, again.op = .addNodes specs → ∀ effects' db'',
        again.run db' ≠ (.effects effects', db'')) := by
  have hfirst : ∀ effects', (c.run db).1 = .effects effects' →
      (c.run db).2.Fit ∧ Recorded db specs (c.run db).2 := by
    apply Call.run_of_wp (Q := fun reply db' => ∀ effects', reply = .effects effects' →
      db'.Fit ∧ Recorded db specs db')
    · rw [hop]
      apply Dialogue.wp_map.mpr
      refine (addNodes_recorded.and
        ((addNodes_lasting c.fuel c.scope c.defaults specs).ages c.server _)).mono ?_
      exact fun _ e' ⟨hrec, hages⟩ _ _ => ⟨(hages hfit).1, hrec⟩
    · exact fun err _ heq => by cases heq
    · exact fun _ heq => by cases heq
  rw [hrun] at hfirst
  obtain ⟨hfit', hrec⟩ := hfirst effects rfl
  refine ⟨hrec, (hrec.accepts_iff hfit').trans ?_, ?_⟩
  · exact forall₂_congr fun spec _ => or_iff_not_imp_left
  rintro ⟨spec, hspec, hnew, hcut⟩ again hagain effects' db'' hsecond
  have hrefused : ∀ effects', (again.run db').1 ≠ .effects effects' := by
    apply Call.run_of_wp (Q := fun reply _ => ∀ effects', reply ≠ .effects effects')
    · rw [hagain]
      apply Dialogue.wp_map.mpr
      refine (addNodes_refused hrec hfit' fun hall => ?_).mono fun _ _ => False.elim
      exact (hall spec hspec).elim hnew hcut
    · exact fun err _ heq => by cases heq
    · exact fun _ heq => by cases heq
  exact hrefused effects' (congrArg Prod.fst hsecond)

/-- A batch of one node with the given number of attempts. -/
def oneNode (attempts : ℕ) : List NodeSpec := [{ id := "a", retry := { maxAttempts := attempts } }]

def addOneNode (attempts : ℕ) : Call :=
  { op := .addNodes (oneNode attempts), scope := "s", fuel := 10, server := countingServer }

def Reply.committed : Reply → Bool
  | .effects _ => true
  | _ => false

/-- The call was refused because another node has the identifier. -/
def Reply.conflicts : Reply → Bool
  | .failed err => err.sentinel = .idConflict
  | _ => false

theorem Reply.eq_effects {reply : Reply} (h : reply.committed = true) :
    ∃ effects, reply = .effects effects := by
  cases reply with
  | effects effects => exact ⟨effects, rfl⟩
  | _ => cases h

/-- Five attempts fit, and the batch passes again. -/
theorem fiveAttempts_accepted : ∃ effects db', (addOneNode 5).run {} = (.effects effects, db') ∧
    Accepts db' (oneNode 5) := by
  have hcommitted : ((addOneNode 5).run {}).1.committed = true := by decide +kernel
  obtain ⟨effects, heq⟩ := Reply.eq_effects hcommitted
  have hrun : (addOneNode 5).run {} = (.effects effects, ((addOneNode 5).run {}).2) :=
    Prod.ext heq rfl
  refine ⟨effects, _, hrun, (addNodes_repeats_iff Db.fit_empty rfl hrun).2.1.mpr ?_⟩
  intro spec hspec _
  obtain rfl := List.mem_singleton.mp hspec
  decide

/-- One attempt more than fits the column: the batch is committed once and refused the
second time. -/
theorem cutAttempts_conflict : ((addOneNode (2 ^ 31)).run {}).1.committed = true ∧
    ((addOneNode (2 ^ 31)).run ((addOneNode (2 ^ 31)).run {}).2).1.conflicts = true := by
  decide +kernel

end DagWorker.Postgres
