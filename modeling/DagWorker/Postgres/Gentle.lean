import DagWorker.Postgres.Changes

/-!
# Statements that keep every node

Nearly all statements neither create nor delete a node, and the columns a node is created
with stay as they are.  The cascade, settling, linking, unlinking and retries are made of
such statements.
-/

namespace DagWorker.Postgres

open Dialogue (Uses uses_ask uses_orAbort uses_ofExcept)

variable {r r' : NodeRow} {s : Stmt} {db : Db} {id : ℕ} {α : Type} {f : NodeRow → NodeRow}
variable {p : Tx α} {Q : s.Result → Engine → Prop} {k : Option NodeRow → Tx α}

/-- The columns that a node keeps from its creation, and its epoch. -/
structure NodeRow.Inherits (r r' : NodeRow) : Prop where
  nodeID : r'.nodeID = r.nodeID
  kind : r'.kind = r.kind
  priority : r'.priority = r.priority
  trigger : r'.trigger = r.trigger
  retry : r'.retry = r.retry
  payload : r'.payload = r.payload
  labels : r'.labels = r.labels
  epoch : r'.epoch = r.epoch
  createdAt : r'.createdAt = r.createdAt
  updatedAt : r'.updatedAt = r.updatedAt

/-- A row inherits what a write over it does not name. -/
theorem NodeRow.Inherits.of_write
    (h : r' = { r with
      rank := r'.rank, status := r'.status, reason := r'.reason, message := r'.message,
      phase := r'.phase, attempt := r'.attempt, result := r'.result, worker := r'.worker,
      seq := r'.seq, fifo := r'.fifo, deps := r'.deps, deadline := r'.deadline,
      readyAt := r'.readyAt }) : r.Inherits r' := by
  constructor <;> rw [h]

theorem NodeRow.Inherits.refl (r : NodeRow) : r.Inherits r := .of_write rfl

theorem NodeRow.Inherits.trans {r'' : NodeRow} (h : r.Inherits r') (h' : r'.Inherits r'') :
    r.Inherits r'' :=
  ⟨h'.nodeID.trans h.nodeID, h'.kind.trans h.kind, h'.priority.trans h.priority,
    h'.trigger.trans h.trigger, h'.retry.trans h.retry, h'.payload.trans h.payload,
    h'.labels.trans h.labels, h'.epoch.trans h.epoch, h'.createdAt.trans h.createdAt,
    h'.updatedAt.trans h.updatedAt⟩

/-- No node comes, goes or is claimed, and the floor stays. -/
def Stmt.Gentle : Stmt → Prop
  | .updateNode _ f => ∀ r : NodeRow, r.Inherits (f r)
  | .insertNode _ => False
  | .deleteNode _ => False
  | .claim _ _ _ => False
  | .raiseEpochFloor _ => False
  | _ => True

/-- Phase, status and reason stay. -/
structure NodeRow.Rests (r r' : NodeRow) : Prop where
  phase : r'.phase = r.phase
  status : r'.status = r.status
  reason : r'.reason = r.reason

/-- Nor is a node moved or a counter booked. -/
def Stmt.Linking : Stmt → Prop
  | .updateNode _ f => ∀ r : NodeRow, r.Inherits (f r) ∧ r.Rests (f r)
  | .insertNode _ => False
  | .deleteNode _ => False
  | .claim _ _ _ => False
  | .raiseEpochFloor _ => False
  | .ensureScope _ => False
  | .bump _ _ => False
  | .takeStats => False
  | .addStats _ => False
  | _ => True

/-- No node comes, goes or is claimed, no edge is added and no rank changed. -/
def Stmt.Plain : Stmt → Prop
  | .updateNode _ f => ∀ r : NodeRow, r.Inherits (f r) ∧ (f r).rank = r.rank
  | .insertNode _ => False
  | .deleteNode _ => False
  | .claim _ _ _ => False
  | .raiseEpochFloor _ => False
  | .insertEdge _ _ _ => False
  | _ => True

/-- Both. -/
def Stmt.Neutral : Stmt → Prop
  | .updateNode _ f => ∀ r : NodeRow, r.Inherits (f r) ∧ (f r).rank = r.rank ∧ r.Rests (f r)
  | .insertEdge _ _ _ => False
  | s => s.Linking

theorem Stmt.Neutral.linking (h : s.Neutral) : s.Linking := by
  cases s <;> first | exact h | exact h.elim | exact fun r => ⟨(h r).1, (h r).2.2⟩

theorem Stmt.Neutral.plain (h : s.Neutral) : s.Plain := by
  cases s <;> first | exact h | exact h.elim | trivial | exact fun r => ⟨(h r).1, (h r).2.1⟩

theorem Stmt.Linking.gentle (h : s.Linking) : s.Gentle := by
  cases s <;> first | exact h | exact h.elim | trivial | exact fun r => (h r).1

theorem Stmt.Plain.gentle (h : s.Plain) : s.Gentle := by
  cases s <;> first | exact h | exact h.elim | trivial | exact fun r => (h r).1

/-- The same nodes, and the same floor. -/
structure Db.Still (db db' : Db) : Prop where
  floor : db'.floor = db.floor
  scope : db.scopeRow.isSome → db'.scopeRow.isSome
  row : ∀ id r, db.rows.lookup id = some r → ∃ r', db'.rows.lookup id = some r' ∧ r.Inherits r'
  none : ∀ id, db.rows.lookup id = none → db'.rows.lookup id = none

namespace Db.Still

theorem refl (db : Db) : Still db db :=
  ⟨rfl, id, fun _ r hr => ⟨r, hr, .refl r⟩, fun _ h => h⟩

theorem trans {db₁ db₂ db₃ : Db} (h : Still db₁ db₂) (h' : Still db₂ db₃) : Still db₁ db₃ := by
  constructor
  · exact h'.floor.trans h.floor
  · exact fun hsome => h'.scope (h.scope hsome)
  · intro id r hr
    obtain ⟨r₂, hr₂, hi⟩ := h.row id r hr
    obtain ⟨r₃, hr₃, hi'⟩ := h'.row id r₂ hr₂
    exact ⟨r₃, hr₃, hi.trans hi'⟩
  · exact fun id hnone => h'.none id (h.none id hnone)

/-- A change that leaves the nodes alone. -/
theorem of_rows {db' : Db} (hrows : db'.rows = db.rows) (hfloor : db'.floor = db.floor)
    (hscope : db.scopeRow.isSome → db'.scopeRow.isSome) : Still db db' := by
  constructor
  · exact hfloor
  · exact hscope
  · intro id r hr
    exact ⟨r, by rw [hrows]; exact hr, .refl r⟩
  · intro id hnone
    rw [hrows]
    exact hnone

theorem of_insert (hr : db.rows.lookup id = some r)
    (hi : r.Inherits r') : Still db { db with rows := db.rows.insert id r' } := by
  constructor
  · rfl
  · exact fun h => h
  · intro x s hs
    by_cases hx : x = id
    · subst hx
      obtain rfl := Option.mem_unique hr hs
      exact ⟨r', AList.lookup_insert _, hi⟩
    · exact ⟨s, (AList.lookup_insert_ne hx).trans hs, .refl s⟩
  · intro x hnone
    have hx : x ≠ id := by
      rintro rfl
      rw [hr] at hnone
      cases hnone
    exact (AList.lookup_insert_ne hx).trans hnone

end Db.Still

theorem Changes.still {db' : Db} (h : Changes db s db') (hs : s.Gentle) :
    db.Still db' := by
  cases h with
  | nothing => exact .refl db
  | createScope defaults hnone =>
    exact .of_rows rfl (by simp [Db.floor, hnone]) fun _ => rfl
  | configure _ _ hsc | close _ hsc | count _ _ hsc =>
    exact .of_rows rfl (by simp [Db.floor, hsc]) fun _ => rfl
  | update id f r hr hadm => exact .of_insert hr (hs r)
  | link | mark | unlink | detach => exact .of_rows rfl rfl fun h => h
  | raise | insert | delete | grant => exact hs.elim
  | prolong nodeID epoch leaseFor deadline id r hr hphase =>
    exact .of_insert hr (.of_write rfl)

abbrev Tx.Wp {α : Type} (srv : Server) (Q : α → Engine → Prop) (p : Tx α) (e : Engine) : Prop :=
  Dialogue.Wp (Stmt.exec srv) Q p e

abbrev Tx.Gentle {α : Type} (p : Tx α) : Prop := Uses Stmt.Gentle p

abbrev Tx.Plain {α : Type} (p : Tx α) : Prop := Uses Stmt.Plain p

theorem Tx.Plain.gentle (h : p.Plain) : p.Gentle :=
  h.mono fun _ hs => hs.gentle

abbrev Tx.Linking {α : Type} (p : Tx α) : Prop := Uses Stmt.Linking p

theorem Tx.Linking.gentle (h : p.Linking) : p.Gentle :=
  h.mono fun _ hs => hs.gentle

abbrev Tx.Neutral {α : Type} (p : Tx α) : Prop := Uses Stmt.Neutral p

theorem Tx.Neutral.linking (h : p.Neutral) : p.Linking :=
  h.mono fun _ hs => hs.linking

theorem Tx.Neutral.plain (h : p.Neutral) : p.Plain :=
  h.mono fun _ hs => hs.plain

theorem Tx.Gentle.still (h : p.Gentle) (srv : Server) (e : Engine) :
    p.Wp srv (fun _ e' => e.toDb.Still e'.toDb) e := by
  apply Uses.wp (R := fun e e' : Engine => e.toDb.Still e'.toDb) h
  · exact fun e => .refl e.toDb
  · exact fun _ _ _ h₁ h₂ => h₁.trans h₂
  · intro s hs a e r e' hexec
    exact (Stmt.exec_changes hexec).still hs

namespace Tx

theorem wp_read {srv : Server} {x : s.Result} {e : Engine}
    (hperform : ∀ a, s.perform srv a e = some (x, [], e.toLocal)) (h : Q x e) :
    (query s).Wp srv Q e := by
  intro a r e' hexec
  rw [Stmt.exec, hperform, Option.map_some, Option.some.injEq, Prod.mk.injEq] at hexec
  obtain ⟨rfl, rfl⟩ := hexec
  exact h

/-- A statement, from what it does to the tables. -/
theorem wp_changes {srv : Server} {e : Engine} (h : ∀ r e', Changes e.toDb s e'.toDb → Q r e') :
    (query s).Wp srv Q e := by
  intro a r e' hexec
  exact h r e' (Stmt.exec_changes hexec)

/-! ## The engine -/

variable {w u fuel x y : ℕ} {status : Status} {reason : Reason} {n : NodeRow}
  {queue : List Engine.TerminateItem} {effects : List Effect} {succs : List (ℕ × NodeRow)}
  {message scope : String} {ids touched : List ℕ} {st : Search} {target : ℕ × NodeRow}
  {nodes : Nodes} {edges : List Edge} {cfg : ScopeConfig} {limit : Int} {req : CompleteRequest}

theorem linking_update (hk : ∀ r, (k r).Linking)
    (hf : ∀ r : NodeRow, r.Inherits (f r) ∧ r.Rests (f r)) : (updateNode id f >>= k).Linking := by
  apply Uses.bind
  · exact uses_ask hf
  · exact hk

theorem plain_update (hk : ∀ r, (k r).Plain)
    (hf : ∀ r : NodeRow, r.Inherits (f r) ∧ (f r).rank = r.rank) :
    (updateNode id f >>= k).Plain := by
  apply Uses.bind
  · exact uses_ask hf
  · exact hk

theorem neutral_update (hk : ∀ r, (k r).Neutral)
    (hf : ∀ r : NodeRow, r.Inherits (f r) ∧ (f r).rank = r.rank ∧ r.Rests (f r)) :
    (updateNode id f >>= k).Neutral := by
  apply Uses.bind
  · exact uses_ask hf
  · exact hk

theorem ofProg_neutral {p : Prog α} : (ofProg p).Neutral := by
  induction p with
  | ret a => trivial
  | now k ih => exact (uses_ask trivial).bind ih
  | jitter b k ih => exact (uses_ask trivial).bind ih
  | range keys k ih => exact ih keys

theorem moveBucket_plain {p : Phase} {s : Status} {p' : Phase} {s' : Status} :
    (moveBucket p s p' s').Plain := by
  simp only [moveBucket]
  split
  · trivial
  · exact (uses_ask trivial).bind fun _ => uses_ask trivial

theorem flushCounters_plain : flushCounters.Plain := by
  apply Uses.bind (uses_ask trivial)
  intro deltas
  simp only
  split
  · trivial
  · exact uses_ask trivial

theorem applyDepDelta_neutral : (applyDepDelta w status reason).Neutral := by
  refine neutral_update ?_ fun r => ⟨.of_write rfl, rfl, ⟨rfl, rfl, rfl⟩⟩
  intro r
  exact (uses_orAbort r).bind fun _ => trivial

theorem makeReady_plain : (makeReady id n).Plain := by
  apply Uses.bind (uses_ask trivial)
  intro fifo
  refine plain_update ?_ fun r => ⟨.of_write rfl, rfl⟩
  intro r
  apply Uses.bind (uses_orAbort r)
  intro r
  exact moveBucket_plain.bind fun _ => uses_ask trivial

theorem makeBlocked_plain : (makeBlocked id n).Plain := by
  refine plain_update ?_ fun r => ⟨.of_write rfl, rfl⟩
  intro _
  exact moveBucket_plain

theorem schedule_plain {delay : Int} : (schedule id n delay).Plain := by
  apply Uses.bind (uses_ask trivial)
  intro now
  refine plain_update ?_ fun r => ⟨.of_write rfl, rfl⟩
  intro r
  apply Uses.bind (uses_orAbort r)
  intro _
  exact moveBucket_plain.bind fun _ => trivial

theorem bumpSeq_neutral : (bumpSeq id).Neutral := by
  refine neutral_update ?_ fun r => ⟨.of_write rfl, rfl, ⟨rfl, rfl, rfl⟩⟩
  intro r
  exact (uses_orAbort r).bind fun _ => trivial

theorem cascadeOne_plain {succ : NodeRow} :
    (cascadeOne u status reason w succ queue effects).Plain := by
  apply Uses.bind (uses_ask trivial)
  intro flipped
  split
  · apply Uses.bind applyDepDelta_neutral.plain
    intro deps
    split
    · trivial
    split
    · trivial
    split
    · split
      · exact makeReady_plain.bind fun _ => trivial
      · trivial
    · trivial
  · trivial

theorem cascadeLoop_plain : (cascadeLoop u status reason succs queue effects).Plain := by
  induction succs generalizing queue effects with
  | nil => trivial
  | cons x succs ih =>
    apply Uses.bind cascadeOne_plain
    intro st
    exact ih

theorem finish_plain {it : Engine.TerminateItem} : (finish it n).Plain := by
  refine plain_update ?_ fun r => ⟨.of_write rfl, rfl⟩
  intro r
  apply Uses.bind (uses_orAbort r)
  intro r
  exact moveBucket_plain.bind fun _ => uses_ask trivial

theorem terminateLoop_plain : (terminateLoop fuel queue effects).Plain := by
  induction fuel generalizing queue effects with
  | zero => trivial
  | succ fuel ih =>
    cases queue with
    | nil => trivial
    | cons it queue =>
      refine Uses.find (uses_ask trivial) ih fun n => ?_
      simp only
      split
      · exact ih
      apply Uses.bind finish_plain
      intro ef
      apply Uses.bind
      · apply Uses.bind (uses_ask trivial)
        intro succs
        exact cascadeLoop_plain
      · intro st
        exact ih

theorem terminate_plain {root : ℕ} : (terminate fuel root status reason message).Plain :=
  terminateLoop_plain

theorem terminateAll_plain : (terminateAll fuel status reason message ids).Plain := by
  induction ids with
  | nil => trivial
  | cons id ids ih =>
    apply Uses.bind terminate_plain
    intro more
    exact ih.bind fun _ => trivial

theorem settle_plain : (settle fuel id n).Plain := by
  unfold settle
  split
  · trivial
  split
  · exact terminate_plain
  split
  · split
    · exact makeReady_plain.bind fun _ => trivial
    · trivial
  · split
    · exact makeBlocked_plain.bind fun _ => trivial
    · trivial

theorem loadManyForUpdate_neutral : (loadManyForUpdate ids).Neutral := by
  induction ids with
  | nil => trivial
  | cons id ids ih =>
    apply Uses.bind (uses_ask trivial)
    intro r
    apply ih.bind
    intro rows
    cases r with
    | none => trivial
    | some r => trivial

theorem settleOne_plain {snapshot : NodeRow} {reload : Bool} :
    (settleOne fuel id snapshot reload).Plain := by
  apply Uses.bind
  · split
    · exact uses_ask trivial
    · trivial
  intro n
  cases n with
  | none => trivial
  | some n => exact settle_plain.bind fun _ => trivial

theorem settleLoop_plain {snapshots : GoMap ℕ NodeRow}
    {stale : Bool} : (settleLoop fuel snapshots ids stale).Plain := by
  induction ids generalizing stale with
  | nil => trivial
  | cons id ids ih =>
    rw [settleLoop]
    split
    · exact ih
    rename_i n hn
    apply Uses.bind settleOne_plain
    intro x
    exact ih.bind fun _ => trivial

theorem settleTouched_plain : (settleTouched fuel ids).Plain := by
  unfold settleTouched
  split
  · trivial
  · exact loadManyForUpdate_neutral.plain.bind fun rows => settleLoop_plain

/-! ## Edges -/

theorem forwardLoop_neutral {ub : ℕ} : (forwardLoop x y ub fuel st).Neutral := by
  induction fuel generalizing st with
  | zero => trivial
  | succ fuel ih =>
    rw [forwardLoop]
    split
    · trivial
    apply Uses.bind (uses_ask trivial)
    intro succs
    split
    · trivial
    · exact ih

theorem backwardLoop_neutral {lb : ℕ} : (backwardLoop lb fuel st).Neutral := by
  induction fuel generalizing st with
  | zero => trivial
  | succ fuel ih =>
    rw [backwardLoop]
    split
    · trivial
    · exact (uses_ask trivial).bind fun preds => ih

theorem assignRanks_linking {pool : List ℕ} : (assignRanks ids pool).Linking := by
  induction ids generalizing pool with
  | nil => trivial
  | cons id ids ih =>
    cases pool with
    | nil => trivial
    | cons rank pool =>
      refine linking_update ?_ fun r => ⟨.of_write rfl, ⟨rfl, rfl, rfl⟩⟩
      intro _
      exact ih

theorem addEdgeOrder_linking : (addEdgeOrder fuel x y).Linking := by
  apply Uses.bind (uses_ask trivial)
  intro ranks
  simp only
  split
  · trivial
  apply Uses.bind forwardLoop_neutral.linking
  intro forward
  cases forward with
  | error path => trivial
  | ok deltaF =>
    apply Uses.bind backwardLoop_neutral.linking
    intro deltaB
    apply Uses.bind
    · exact (uses_ask trivial).bind fun ranks => assignRanks_linking
    · exact fun _ => trivial

theorem linkDependency_linking {source : ℕ × NodeRow} :
    (linkDependency fuel scope source target).Linking := by
  apply Uses.bind (uses_ask trivial)
  intro found
  split
  · trivial
  split
  · trivial
  apply Uses.bind addEdgeOrder_linking
  intro cyclePath
  cases cyclePath with
  | some path => exact (uses_ask trivial).bind fun _ => trivial
  | none =>
    apply Uses.bind (uses_ask trivial)
    intro _
    refine linking_update ?_ fun r => ⟨.of_write rfl, ⟨rfl, rfl, rfl⟩⟩
    exact fun _ => trivial

theorem unlinkDependency_neutral : (unlinkDependency u w).Neutral := by
  refine Uses.find (uses_ask trivial) trivial fun satisfied => ?_
  apply Uses.bind (uses_ask trivial)
  intro source
  apply Uses.bind (uses_orAbort source)
  intro source
  refine neutral_update ?_ fun r => ⟨.of_write rfl, rfl, ⟨rfl, rfl, rfl⟩⟩
  exact fun _ => trivial

/-! ## Parts of the operations -/

theorem countCreated_plain {rows : List (ℕ × NodeRow)} : (countCreated rows).Plain := by
  induction rows with
  | nil => trivial
  | cons n rows ih =>
    apply Uses.bind (uses_ask trivial)
    intro _
    exact (uses_ask trivial).bind fun _ => ih

theorem linkDeps_linking {spec : NodeSpec} {deps : List NodeID} :
    (linkDeps fuel scope spec deps target nodes).Linking := by
  induction deps generalizing target nodes with
  | nil => trivial
  | cons dep deps ih =>
    apply Uses.bind
    · split
      · trivial
      refine Uses.find (uses_ask trivial) trivial fun n => ?_
      trivial
    · intro source
      exact linkDependency_linking.bind fun row => ih

theorem linkAddNodesBatch_linking {specs : List NodeSpec} :
    (linkAddNodesBatch fuel scope specs nodes touched).Linking := by
  induction specs generalizing nodes touched with
  | nil => trivial
  | cons spec specs ih =>
    exact linkDeps_linking.bind fun nodes => ih

theorem announceFresh_neutral {fresh : List (ℕ × NodeRow)} : (announceFresh fresh).Neutral := by
  have hseqs : ∀ ids : List ℕ, (bumpSeqMany ids).Neutral := by
    intro ids
    induction ids with
    | nil => trivial
    | cons id ids ih =>
      apply Uses.bind bumpSeq_neutral
      intro seq
      exact ih.bind fun _ => trivial
  have hevents : ∀ evs : List PendingEvent, (insertEvents evs).Neutral := by
    intro evs
    induction evs with
    | nil => trivial
    | cons ev evs ih =>
      apply Uses.bind (uses_ask trivial)
      intro ef
      exact ih.bind fun _ => trivial
  exact (hseqs _).bind fun seqs => hevents _

theorem beginGraphTx_neutral : beginGraphTx.Neutral := by
  refine Uses.find (uses_ask trivial) trivial fun sc => ?_
  exact uses_ask trivial

theorem endpoint_neutral {id : NodeID} {which : String} : (endpoint nodes id which).Neutral := by
  unfold endpoint
  split
  · trivial
  refine Uses.find (uses_ask trivial) trivial fun n => ?_
  trivial

theorem linkEdges_linking : (linkEdges fuel scope edges nodes touched).Linking := by
  induction edges generalizing nodes touched with
  | nil => trivial
  | cons edge edges ih =>
    rw [linkEdges]
    split
    · trivial
    apply Uses.bind endpoint_neutral.linking
    intro source
    apply Uses.bind endpoint_neutral.linking
    intro target
    exact linkDependency_linking.bind fun row => ih

theorem unlinkEdges_neutral : (unlinkEdges edges nodes touched).Neutral := by
  induction edges generalizing nodes touched with
  | nil => trivial
  | cons edge edges ih =>
    apply Uses.bind endpoint_neutral
    intro source
    apply Uses.bind endpoint_neutral
    intro target
    exact unlinkDependency_neutral.bind fun changed => ih

theorem applyCascade_plain {id : NodeID} {policy : CascadePolicy} :
    (applyCascade fuel id policy succs).Plain := by
  unfold applyCascade
  split
  · trivial
  · cases policy with
    | fail => exact terminateAll_plain
    | _ => trivial

theorem detachSuccessors_neutral {ws : List ℕ} : (detachSuccessors u ws).Neutral := by
  induction ws with
  | nil => trivial
  | cons w ws ih => exact unlinkDependency_neutral.bind fun _ => ih

theorem failAttempt_plain : (failAttempt fuel cfg id n reason message).Plain := by
  unfold failAttempt
  simp only
  split
  · exact terminate_plain.bind fun _ => trivial
  apply Uses.bind ofProg_neutral.plain
  intro delay
  apply Uses.bind
  · refine plain_update ?_ fun r => ⟨.of_write rfl, rfl⟩
    exact fun _ => trivial
  intro _
  apply Uses.bind schedule_plain
  intro readyAt
  apply Uses.bind bumpSeq_neutral.plain
  intro seq
  exact (uses_ask trivial).bind fun _ => trivial

theorem reclaimExpired_plain : (reclaimExpired fuel cfg limit).Plain := by
  have hloop : ∀ ids : List ℕ, (reclaimLoop fuel cfg ids).Plain := by
    intro ids
    induction ids with
    | nil => trivial
    | cons id ids ih =>
      refine Uses.find (uses_ask trivial) ih fun n => ?_
      simp only
      split
      · exact ih
      · apply Uses.bind failAttempt_plain
        intro x
        exact ih.bind fun _ => trivial
  apply Uses.bind (uses_ask trivial)
  intro ids
  apply Uses.bind (hloop ids)
  intro x
  exact (uses_ask trivial).bind fun _ => trivial

theorem promoteScheduled_plain : promoteScheduled.Plain := by
  apply Uses.bind (uses_ask trivial)
  intro ids
  induction (ids : List ℕ) with
  | nil => trivial
  | cons id ids ih =>
    refine Uses.find (uses_ask trivial) ih fun n => ?_
    simp only
    split
    · exact ih
    · exact makeReady_plain.bind fun _ => ih.bind fun _ => trivial

/-! ## Operations -/

theorem finalize_plain : finalize.Plain := flushCounters_plain

theorem addEdges_gentle : (addEdges fuel scope edges).Gentle := by
  unfold addEdges
  split
  · trivial
  apply Uses.bind beginGraphTx_neutral.linking.gentle
  intro _
  apply Uses.bind linkEdges_linking.gentle
  intro touched
  apply Uses.bind settleTouched_plain.gentle
  intro effects
  exact finalize_plain.gentle.bind fun _ => trivial

theorem removeEdges_plain : (removeEdges fuel edges).Plain := by
  unfold removeEdges
  split
  · trivial
  apply Uses.bind beginGraphTx_neutral.plain
  intro _
  apply Uses.bind unlinkEdges_neutral.plain
  intro touched
  apply Uses.bind settleTouched_plain
  intro effects
  exact finalize_plain.bind fun _ => trivial

theorem cancelLoop_plain {ids : List NodeID} : (cancelLoop fuel ids).Plain := by
  induction ids with
  | nil => trivial
  | cons id ids ih =>
    refine Uses.find (uses_ask trivial) trivial fun n => ?_
    simp only
    split
    · exact ih
    · apply Uses.bind terminate_plain
      intro more
      exact ih.bind fun _ => trivial

theorem cancel_plain {ids : List NodeID} : (cancel fuel ids).Plain := by
  unfold cancel
  split
  · trivial
  apply Uses.bind beginGraphTx_neutral.plain
  intro _
  apply Uses.bind cancelLoop_plain
  intro effects
  exact finalize_plain.bind fun _ => trivial

theorem cancelScope_plain : (cancelScope fuel).Plain := by
  refine Uses.find (uses_ask trivial) trivial fun sc => ?_
  apply Uses.bind (uses_ask trivial)
  intro _
  apply Uses.bind (uses_ask trivial)
  intro ids
  apply Uses.bind terminateAll_plain
  intro effects
  exact finalize_plain.bind fun _ => trivial

theorem applyOutcome_plain : (applyOutcome fuel cfg id n req).Plain := by
  unfold applyOutcome
  split
  · split
    · trivial
    apply Uses.bind
    · refine plain_update ?_ fun r => ⟨.of_write rfl, rfl⟩
      exact fun _ => terminate_plain
    · exact fun _ => trivial
  · split
    · apply Uses.bind
      · refine plain_update ?_ fun r => ⟨.of_write rfl, rfl⟩
        exact fun _ => terminate_plain
      · exact fun _ => trivial
    · exact failAttempt_plain.bind fun _ => trivial

theorem complete_plain : (complete fuel req).Plain := by
  unfold complete
  split
  · trivial
  refine Uses.find (uses_ask trivial) trivial fun sc => ?_
  apply Uses.bind
  · refine Uses.find (uses_ask trivial) trivial fun n => ?_
    simp only
    split <;> trivial
  · intro x
    apply Uses.bind applyOutcome_plain
    intro out
    exact finalize_plain.bind fun _ => trivial

theorem extend_neutral {req : ExtendRequest} : (extend req).Neutral := by
  unfold extend
  split
  · trivial
  refine Uses.find (uses_ask trivial) trivial fun sc => ?_
  apply Uses.bind (uses_ask trivial)
  intro deadline
  cases deadline with
  | some deadline => trivial
  | none =>
    apply Uses.bind (uses_ask trivial)
    intro n
    cases n <;> trivial

theorem sweep_plain : (sweep fuel limit).Plain := by
  refine Uses.find (uses_ask trivial) trivial fun sc => ?_
  apply Uses.bind reclaimExpired_plain
  intro x
  apply Uses.bind promoteScheduled_plain
  intro promoted
  exact finalize_plain.bind fun _ => trivial

theorem moreTerminal_neutral {full : Prop} [Decidable full] {cutoff : Int} :
    (if full then query (.moreTerminal cutoff) else pure false : Tx Bool).Neutral := by
  by_cases h : full
  · rw [if_pos h]
    exact uses_ask trivial
  · rw [if_neg h]
    trivial

theorem inFlight_neutral : (inFlight cfg).Neutral := by
  unfold inFlight
  split
  · apply Uses.bind (uses_ask trivial)
    intro stored
    exact (uses_ask trivial).bind fun _ => trivial
  · trivial

/-- A batch is made of plain statements and those that insert a row. -/
theorem materialiseAddNodesBatch_uses {P : Stmt → Prop} (hplain : ∀ s : Stmt, s.Plain → P s)
    (hinsert : ∀ spec, P (.insertNode spec)) (specs : List NodeSpec) :
    Uses P (materialiseAddNodesBatch specs) := by
  have hrows : ∀ specs : List NodeSpec, Uses P (insertNodes specs) := by
    intro specs
    induction specs with
    | nil => trivial
    | cons spec specs ih =>
      apply Uses.bind (uses_ask (hinsert spec))
      intro n
      exact ih.bind fun _ => trivial
  apply Uses.bind (uses_ask (hplain (.loadManyForUpdateByExternal _) trivial))
  intro existing
  apply Uses.bind (uses_ofExcept _)
  intro split
  apply Uses.bind
  · apply Uses.bind (hrows split.2)
    intro out
    exact (countCreated_plain.mono hplain).bind fun _ => trivial
  · exact fun _ => trivial

/-- A claim consists of plain statements and those that grant a lease. -/
theorem claim_uses {P : Stmt → Prop} (hplain : ∀ s : Stmt, s.Plain → P s)
    (hclaim : ∀ kinds workerID leaseFor, P (.claim kinds workerID leaseFor)) (fuel : ℕ)
    (req : ClaimRequest) : Uses P (claim fuel req) := by
  have hloop : ∀ (cfg : ScopeConfig) (left : ℕ) (inProgress : Int) (res : ClaimResult),
      Uses P (grantLoop cfg req left inProgress res) := by
    intro cfg left
    induction left with
    | zero => exact fun _ _ => trivial
    | succ left ih =>
      intro inProgress res
      rw [grantLoop]
      split
      · trivial
      apply Uses.bind
      · refine Uses.find (uses_ask (hclaim _ _ _)) trivial fun n => ?_
        apply Uses.bind (moveBucket_plain.mono hplain)
        intro _
        exact (uses_ask (hplain (.insertEvent _) trivial)).bind fun _ => trivial
      · intro n
        cases n with
        | none => trivial
        | some n => exact ih _ _
  refine Uses.find (uses_ask (hplain .loadScope trivial)) trivial fun sc => ?_
  apply Uses.bind (reclaimExpired_plain.mono hplain)
  intro reclaimed
  apply Uses.bind (promoteScheduled_plain.mono hplain)
  intro promoted
  apply Uses.bind
  · exact (inFlight_neutral.plain.mono hplain).bind fun _ => hloop _ _ _ _
  · intro res
    exact (finalize_plain.mono hplain).bind fun _ => trivial

theorem beginGraphTx_wp (srv : Server) (e : Engine) :
    beginGraphTx.Wp srv (fun _ e' => e' = e ∧ e.scopeRow.isSome) e := by
  apply Dialogue.wp_bind.mpr
  apply wp_read (s := .loadScope) (x := e.scopeRow) fun _ => rfl
  cases hsc : e.scopeRow with
  | none => trivial
  | some sc => exact wp_read (s := .lockScopeGraph) (fun _ => rfl) ⟨rfl, rfl⟩

end Tx

/-- What holds at every successful end of a program that runs among others holds when it
runs alone. -/
theorem Call.run_of_wp {c : Call} {Q : Reply → Db → Prop}
    (h : (c.op.program c.fuel c.scope c.defaults).Wp c.server (fun reply e => Q reply e.toDb)
      { toDb := db })
    (hfailed : ∀ err, Q (.failed err) db) (hbroken : Q .broken db) :
    Q (c.run db).1 (c.run db).2 := by
  have halone : Dialogue.Wp (Stmt.alone c.server) (fun reply e => Q reply e.toDb)
      (c.op.program c.fuel c.scope c.defaults) { toDb := db } :=
    h.restrict fun a s e r e' hexec => ⟨{ a with busy := [] }, hexec⟩
  unfold run
  split
  · next hrun => exact halone.of_run hrun
  · exact hfailed _
  · exact hbroken

end DagWorker.Postgres
