import DagWorker.Postgres.Aging
import DagWorker.Support.Fence

/-!
# Fencing across deletion

`RemoveNode` raises the floor to the epoch of the row it deletes.  `CollectTerminal` calls
the same helper with an epoch of zero, so that the levels survive only if the floor was
high enough already.  `Claim` grants above the level it finds.
-/

namespace DagWorker.Postgres

open Function
open Dialogue (Uses uses_ask wp_bind)

variable {srv : Server} {e e' : Engine} {epoch id : ℕ} {db db' : Db} {res : ClaimResult}
variable {sc : ScopeRow} {cands : List (ℕ × Phase × Status)} {r : StepRecord}

namespace Tx

/-! ## Deleting -/

/-- The row of `id` is gone, under a raised floor. -/
structure Deleted (id : ℕ) (db db' : Db) : Prop where
  ages : db.Ages db'
  floor : db.floor ≤ db'.floor
  scope : db'.scopeRow.isSome
  row : ∀ x r, db'.rows.lookup x = some r → db.rows.lookup x = some r

/-- The floor of the scope after a raise. -/
def raised (sc : ScopeRow) (epoch : ℕ) : ScopeRow :=
  { sc with epochFloor := max sc.epochFloor epoch }

theorem wp_raise {Q : Unit → Engine → Prop} (hsc : e.scopeRow = some sc)
    (h : ∀ e' : Engine, e'.toDb = { e.toDb with scopeRow := some (raised sc epoch) } → Q () e') :
    (query (.raiseEpochFloor epoch)).Wp srv Q e := by
  intro a r e' hexec
  simp only [Stmt.exec, Stmt.perform, Stmt.updateScope, hsc, Option.map_some, Option.some.injEq]
    at hexec
  obtain ⟨-, rfl⟩ := hexec
  exact h _ rfl

theorem Deleted.of_changes (hsc : db.scopeRow = some sc) (hlt : epoch < 2 ^ 63)
    (hepoch : ∀ r, db.rows.lookup id = some r → r.epoch ≤ max db.floor epoch)
    (hdelete : Changes { db with scopeRow := some (raised sc epoch) } (.deleteNode id) db') :
    Deleted id db db' := by
  have hraise : Changes db (.raiseEpochFloor epoch)
      { db with scopeRow := some (raised sc epoch) } := .raise epoch sc hsc
  have hages := hraise.ages hlt
  have hfloor : ({ db with scopeRow := some (raised sc epoch) } : Db).floor = max db.floor epoch :=
    Changes.raise_floor hsc epoch
  have hle : db.floor ≤ ({ db with scopeRow := some (raised sc epoch) } : Db).floor := by
    rw [hfloor]
    exact le_max_left _ _
  cases hdelete with
  | nothing => exact ⟨hages, hle, rfl, fun _ _ h => h⟩
  | delete =>
    refine ⟨hages.trans (.of_delete rfl rfl fun r hr => ?_), hle, rfl, fun x r hr => ?_⟩
    · rw [hfloor]
      exact hepoch r hr
    by_cases hx : x = id
    · subst hx
      rw [AList.lookup_erase] at hr
      cases hr
    · rwa [AList.lookup_erase_ne hx] at hr

theorem widenI64_lt (n : ℕ) : widenI64 n < 2 ^ 63 := by
  unfold widenI64
  omega

theorem deleteNodeRow_wp {phase : Phase} {status : Status}
    (hscope : e.scopeRow.isSome)
    (hepoch : ∀ r, e.rows.lookup id = some r → r.epoch ≤ max e.toDb.floor (widenI64 epoch)) :
    (deleteNodeRow id phase status epoch).Wp srv (fun _ e' => Deleted id e.toDb e'.toDb) e := by
  obtain ⟨sc, hsc⟩ := Option.isSome_iff_exists.mp hscope
  have hbump : ∀ (col : String) (d : Int) (e₀ : Engine),
      (query (.bump col d)).Wp srv (fun _ e' => e'.toDb = e₀.toDb) e₀ := by
    intro col d e₀ a r e' hexec
    cases hexec
    rfl
  apply (hbump _ _ e).bind
  intro _ e₁ h₁
  apply (hbump _ _ e₁).bind
  intro _ e₂ h₂
  have hdb : e₂.toDb = e.toDb := h₂.trans h₁
  have hsc₂ : e₂.scopeRow = some sc := by rw [hdb, hsc]
  apply wp_bind.mpr
  apply wp_raise hsc₂
  intro e₃ h₃
  apply wp_changes
  intro _ e₄ h₄
  rw [h₃, hdb] at h₄
  exact .of_changes hsc (widenI64_lt epoch) hepoch h₄

theorem rows_of_detach {w : ℕ} (h : Changes db (.deleteEdgesTo w) db') :
    db'.rows = db.rows ∧ db'.scopeRow = db.scopeRow := by
  cases h with
  | nothing => exact ⟨rfl, rfl⟩
  | detach => exact ⟨rfl, rfl⟩

theorem collectLoop_wp (hscope : e.scopeRow.isSome)
    (hretired : ∀ c ∈ cands, ∀ r, e.rows.lookup c.1 = some r → r.epoch ≤ e.toDb.floor) :
    (collectLoop cands).Wp srv (fun _ e' => e.toDb.Ages e'.toDb) e := by
  induction cands generalizing e with
  | nil => exact fun hfit => ⟨hfit, .refl e.toDb⟩
  | cons c cands ih =>
    obtain ⟨id, phase, status⟩ := c
    apply wp_bind.mpr
    apply wp_changes
    intro _ e₁ hdetach
    obtain ⟨hrows, hsc⟩ := rows_of_detach hdetach
    have hfloor : e₁.toDb.floor = e.toDb.floor := by rw [Db.floor, hsc, ← Db.floor]
    have hdelete : (deleteNodeRow id phase status 0).Wp srv
        (fun _ e' => Deleted id e₁.toDb e'.toDb) e₁ := by
      apply deleteNodeRow_wp (by rw [hsc]; exact hscope)
      intro r hr
      rw [hrows] at hr
      rw [hfloor]
      exact (hretired _ (.head _) r hr).trans (le_max_left _ _)
    apply hdelete.bind
    intro _ e₂ h₂
    -- the other candidates are still there, and the floor did not fall
    have hrest : (collectLoop cands).Wp srv (fun _ e' => e₂.toDb.Ages e'.toDb) e₂ := by
      apply ih h₂.scope
      intro c hc r hr
      have hr₁ := h₂.row c.1 r hr
      rw [hrows] at hr₁
      have hle := hretired c (.tail _ hc) r hr₁
      exact (hfloor ▸ hle).trans h₂.floor
    apply hrest.mono
    intro _ e₃ h₃
    exact ((hdetach.ages trivial).trans h₂.ages).trans h₃

theorem mem_findTerminalCandidates {a : Answer} {cutoff : Int} {limit : ℕ}
    (h : (Stmt.findTerminalCandidates cutoff limit).exec srv a e = some (cands, e')) :
    e' = e ∧ ∀ c ∈ cands, c.1 ∈ e.terminalCandidates cutoff ∧
      ∃ r, e.rows.lookup c.1 = some r ∧ c.2 = (r.phase, r.status) := by
  obtain ⟨ws, l, hp, rfl⟩ := Stmt.perform_of_exec h
  obtain ⟨ids, hids, ⟨⟩⟩ := Option.bind_eq_some_iff.mp hp
  refine ⟨rfl, fun c hc => ?_⟩
  obtain ⟨y, hy, rfl⟩ := List.mem_map.mp hc
  obtain ⟨hid, hr⟩ := Engine.mem_rowsOf.mp hy
  exact ⟨Answer.mem_of_skipLocked hids hid, y.2, hr, rfl⟩

theorem collectTerminal_wp {cutoff limit : Int}
    (hretired : ∀ id ∈ e.terminalCandidates cutoff, ∀ r, e.rows.lookup id = some r →
      r.epoch ≤ e.toDb.floor) :
    (collectTerminal cutoff limit).Wp srv (fun _ e' => e.toDb.Ages e'.toDb) e := by
  apply wp_bind.mpr
  apply wp_read (s := .loadScope) (x := e.scopeRow) fun _ => rfl
  cases hsc : e.scopeRow with
  | none => exact fun hfit => ⟨hfit, .refl e.toDb⟩
  | some sc =>
    apply wp_bind.mpr
    intro a cands e₁ hcands
    obtain ⟨rfl, hmem⟩ := mem_findTerminalCandidates hcands
    have hloop : (collectLoop cands).Wp srv (fun _ e' => e₁.toDb.Ages e'.toDb) e₁ := by
      apply collectLoop_wp (by rw [hsc]; rfl)
      intro c hc r hr
      exact hretired c.1 (hmem c hc).1 r hr
    apply hloop.bind
    intro _ e₂ h₂
    apply (moreTerminal_neutral.plain.gentle.still srv e₂).bind
    intro _ e₃ h₃
    exact h₂.trans h₃.ages

/-- The epoch passed to `deleteNodeRow` is the one of the row that is deleted. -/
theorem removeNode_wp (hfit : e.toDb.Fit) (fuel : ℕ) (id : NodeID)
    (policy : CascadePolicy) :
    (removeNode fuel id policy).Wp srv (fun _ e' => e.toDb.Ages e'.toDb) e := by
  apply (beginGraphTx_wp srv e).bind
  rintro _ e ⟨rfl, hscope⟩
  apply wp_bind.mpr
  apply wp_read (s := .loadForUpdateByExternal id) fun _ => rfl
  cases hfind : e.findExternal id with
  | none => trivial
  | some x =>
    obtain ⟨v, n⟩ := x
    have hn := (Engine.findExternal_some hfind).1
    have hlt := hfit.epoch_lt v n hn
    simp only
    split
    · trivial
    have hload : (successorsForUpdate v).Gentle := uses_ask trivial
    apply (hload.still srv e).bind
    intro succs e₁ h₁
    apply (applyCascade_plain.gentle.still srv e₁).bind
    intro effects e₂ h₂
    apply (detachSuccessors_neutral.plain.gentle.still srv e₂).bind
    intro _ e₃ h₃
    have hdetach : (query (.deleteEdgesTo v)).Gentle := uses_ask trivial
    apply (hdetach.still srv e₃).bind
    intro _ e₄ h₄
    have hstill : e.toDb.Still e₄.toDb := ((h₁.trans h₂).trans h₃).trans h₄
    have hdelete : (deleteNodeRow v n.phase n.status n.epoch).Wp srv
        (fun _ e' => Deleted v e₄.toDb e'.toDb) e₄ := by
      apply deleteNodeRow_wp (hstill.scope hscope)
      intro r hr
      obtain ⟨n', hn', hi⟩ := hstill.row v n hn
      obtain rfl := Option.mem_unique hn' hr
      have hwiden : widenI64 n.epoch = n.epoch := by
        unfold widenI64
        omega
      rw [hi.epoch, hwiden]
      exact le_max_right _ _
    apply hdelete.bind
    intro _ e₅ h₅
    have htail : (if policy = .detach then settleTouched fuel (succs.map Prod.fst)
        else pure [] : Tx (List Effect)).Gentle := by
      split
      · exact settleTouched_plain.gentle
      · trivial
    apply (htail.still srv e₅).bind
    intro more e₆ h₆
    apply (finalize_plain.gentle.still srv e₆).bind
    intro _ e₇ h₇
    exact (hstill.ages.trans h₅.ages).trans (h₆.trans h₇).ages

/-! ## Claiming -/

/-- A lease is numbered above the level it finds, and its number becomes the level. -/
theorem claim_exec {a : Answer} {kinds : List String}
    {workerID : String} {leaseFor : Int} {n : NodeRow} (hfit : e.toDb.Fit)
    (h : (Stmt.claim kinds workerID leaseFor).exec srv a e = some (some (id, n), e')) :
    e'.toDb.Fit ∧ e.toDb.level n.nodeID < n.epoch ∧
      ∀ k, e'.toDb.level k = update e.toDb.level n.nodeID n.epoch k := by
  have hfit' : e'.toDb.Fit := ((Stmt.exec_changes h).ages trivial hfit).1
  obtain ⟨ws, l, hp, rfl⟩ := Stmt.perform_of_exec h
  simp only [Stmt.perform, Option.bind_eq_bind, Option.bind_eq_some_iff] at hp
  obtain ⟨ids, hids, hp⟩ := hp
  split at hp
  · cases hp
  rename_i id' r rest hrows
  split at hp
  · cases hp
    have hmem : (id, r) ∈ e.rowsOf ids := by
      rw [hrows]
      exact .head _
    have hr := (Engine.mem_rowsOf.mp hmem).2
    refine ⟨hfit', ?_, fun k => ?_⟩
    · exact (hfit.level_eq hr).trans_lt (Nat.lt_succ_self _)
    apply hfit.level_withRow hfit'
    intro s hs
    obtain rfl := Option.mem_unique hr hs
    rfl
  · cases hp

def grantsIn (res : ClaimResult) : List (NodeID × ℕ) :=
  res.leases.map fun l => (l.nodeID, l.epoch)

def withLease (res : ClaimResult) (scope : String) (n : NodeRow) (ef : Effect) : ClaimResult :=
  { leases := res.leases ++ [leaseOf scope n], effects := res.effects ++ [ef] }

@[simp] theorem grantsIn_withLease (res : ClaimResult) (scope : String) (n : NodeRow)
    (ef : Effect) :
    grantsIn (withLease res scope n ef) = grantsIn res ++ [(n.nodeID, n.epoch)] := by
  simp [grantsIn, withLease, leaseOf]

/-- The levels rise over the grants of a result, from those of `db`. -/
def Grants (db : Db) (res : ClaimResult) (e : Engine) : Prop :=
  e.toDb.Fit ∧ Fence.Advances db.level (grantsIn res) e.toDb.level

theorem Grants.raise (h : Grants db res e)
    (hages : e.toDb.Ages e'.toDb) : Grants db res e' := by
  obtain ⟨hfit, hadv⟩ := h
  obtain ⟨hfit', haged⟩ := hages hfit
  refine ⟨hfit', ?_⟩
  generalize grantsIn res = gs at hadv
  cases hadv with
  | raise hle => exact .raise fun k => (hle k).trans (haged.level k)
  | grant hadv hlt hle => exact .grant hadv hlt fun k => (hle k).trans (haged.level k)

theorem claimOne_wp
    (h : Grants db res e) (scope : String) (kinds : List String) (leaseFor : Int)
    (workerID : String) :
    (claimOne kinds leaseFor workerID).Wp srv (fun x e' => match x with
      | none => Grants db res e'
      | some (n, ef) => Grants db (withLease res scope n ef) e') e := by
  apply wp_bind.mpr
  intro a x e₁ hexec
  cases x with
  | none => exact h.raise ((Stmt.exec_changes hexec).ages trivial)
  | some x =>
    obtain ⟨hfit, hlt, hlevel⟩ := claim_exec h.1 hexec
    apply (moveBucket_plain.gentle.still srv e₁).bind
    intro _ e₂ h₂
    have hevent : ∀ ev, (insertEvent ev).Gentle := fun ev => uses_ask trivial
    apply ((hevent _).still srv e₂).bind
    intro ef e₃ h₃
    obtain ⟨hfit₃, haged⟩ := (h₂.trans h₃).ages hfit
    refine ⟨hfit₃, ?_⟩
    rw [grantsIn_withLease]
    exact .grant h.2 hlt fun k => (hlevel k).ge.trans (haged.level k)

theorem grantLoop_wp {cfg : ScopeConfig} {req : ClaimRequest}
    {left : ℕ} {inProgress : Int} (h : Grants db res e) :
    (grantLoop cfg req left inProgress res).Wp srv (fun res' e' => Grants db res' e') e := by
  induction left generalizing inProgress res e with
  | zero => exact h
  | succ left ih =>
    rw [grantLoop]
    split
    · exact h
    apply (claimOne_wp h req.scope req.kinds _ req.workerID).bind
    intro x e₁ h₁
    cases x with
    | none => exact h₁
    | some x => exact ih h₁

theorem claim_wp (hfit : e.toDb.Fit) (fuel : ℕ)
    (req : ClaimRequest) :
    (claim fuel req).Wp srv (fun res e' => Grants e.toDb res e') e := by
  have hstart : Grants e.toDb {} e := ⟨hfit, .raise fun _ => le_rfl⟩
  apply wp_bind.mpr
  apply wp_read (s := .loadScope) (x := e.scopeRow) fun _ => rfl
  cases e.scopeRow with
  | none => exact hstart
  | some sc =>
    apply (reclaimExpired_plain.gentle.still srv e).bind
    intro reclaimed e₁ h₁
    apply (promoteScheduled_plain.gentle.still srv e₁).bind
    intro promoted e₂ h₂
    apply wp_bind.mpr
    apply (inFlight_neutral.plain.gentle.still srv e₂).bind
    intro inProgress e₃ h₃
    apply (grantLoop_wp (hstart.raise ((h₁.trans h₂).trans h₃).ages)).mono
    intro res e₄ h₄
    apply (finalize_plain.gentle.still srv e₄).bind
    intro _ e₅ h₅
    exact h₄.raise h₅.ages

theorem claim_lasting (fuel : ℕ) (req : ClaimRequest) : (claim fuel req).Lasting :=
  claim_uses (fun _ hs => hs.gentle.lasting) (fun _ _ _ => trivial) fuel req

end Tx

/-! ## Steps and runs -/

def Reply.grants : Reply → List (NodeID × ℕ)
  | .claimed res => Tx.grantsIn res
  | _ => []

/-- Fit tables after a call: they have aged, and the leases of the reply are above the
levels of before. -/
structure Fences (db : Db) (reply : Reply) (db' : Db) : Prop where
  fit : db'.Fit
  aged : db.Aged db'
  advances : Fence.Advances db.level reply.grants db'.level

theorem Db.Ages.fences {reply : Reply} (h : db.Ages db') (hfit : db.Fit)
    (hreply : reply.grants = []) : Fences db reply db' := by
  obtain ⟨hfit', haged⟩ := h hfit
  refine ⟨hfit', haged, ?_⟩
  rw [hreply]
  exact .raise haged.level

theorem Op.program_fences (hfit : e.toDb.Fit) (fuel : ℕ)
    (scope : String) (defaults : ScopeConfig) (op : Op)
    (hretired : ∀ cutoff limit, op = .collectTerminal cutoff limit →
      ∀ id ∈ e.terminalCandidates cutoff, ∀ r, e.rows.lookup id = some r →
        r.epoch ≤ e.toDb.floor) :
    (op.program fuel scope defaults).Wp srv (fun reply e' => Fences e.toDb reply e'.toDb) e := by
  have hages : ∀ {α : Type} {p : Tx α} {f : α → Reply}, (∀ x, (f x).grants = []) →
      p.Wp srv (fun _ e' => e.toDb.Ages e'.toDb) e →
      (f <$> p).Wp srv (fun reply e' => Fences e.toDb reply e'.toDb) e := by
    intro α p f hf hp
    apply Dialogue.wp_map.mpr
    exact hp.mono fun x e' h => h.fences hfit (hf x)
  cases op with
  | addNodes specs =>
    exact hages (fun _ => rfl) ((Tx.addNodes_lasting fuel scope defaults specs).ages srv e)
  | addEdges edges =>
    exact hages (fun _ => rfl) (Tx.addEdges_gentle.lasting.ages srv e)
  | removeEdges edges =>
    exact hages (fun _ => rfl) (Tx.removeEdges_plain.gentle.lasting.ages srv e)
  | removeNode id policy => exact hages (fun _ => rfl) (Tx.removeNode_wp hfit fuel id policy)
  | cancel ids => exact hages (fun _ => rfl) (Tx.cancel_plain.gentle.lasting.ages srv e)
  | cancelScope =>
    exact hages (fun _ => rfl) (Tx.cancelScope_plain.gentle.lasting.ages srv e)
  | claim req =>
    apply Dialogue.wp_map.mpr
    apply ((Tx.claim_wp hfit fuel req).and ((Tx.claim_lasting fuel req).ages srv e)).mono
    intro res e' h
    exact ⟨h.1.1, (h.2 hfit).2, h.1.2⟩
  | complete req =>
    exact hages (fun _ => rfl) (Tx.complete_plain.gentle.lasting.ages srv e)
  | extend req =>
    exact hages (fun _ => rfl) (Tx.extend_neutral.plain.gentle.lasting.ages srv e)
  | sweep limit =>
    exact hages (fun _ => rfl) (Tx.sweep_plain.gentle.lasting.ages srv e)
  | collectTerminal cutoff limit =>
    exact hages (fun _ => rfl) (Tx.collectTerminal_wp (hretired cutoff limit rfl))
  | setScopeConfig cfg =>
    have hlasting : (Tx.setScopeConfig defaults cfg).Lasting :=
      (uses_ask trivial).bind fun _ => uses_ask trivial
    exact hages (fun _ => rfl) (hlasting.ages srv e)
  | sealScope =>
    have hlasting : (Tx.sealScope defaults).Lasting :=
      (uses_ask trivial).bind fun _ => uses_ask trivial
    exact hages (fun _ => rfl) (hlasting.ages srv e)

def grants (r : StepRecord) : List (NodeID × ℕ) := r.reply.grants

/-- A collection finds the epochs of the nodes it may delete retired. -/
def Retired (r : StepRecord) : Prop :=
  ∀ cutoff limit, r.call.op = .collectTerminal cutoff limit →
    ∀ id ∈ ({ toDb := r.before } : Engine).terminalCandidates cutoff,
      ∀ row, r.before.rows.lookup id = some row → row.epoch ≤ r.before.floor

theorem exec_fences (hv : r.Valid exec) (hretired : Retired r) (hfit : r.before.Fit) :
    Fences r.before r.reply r.after := by
  obtain ⟨db, c, reply, db'⟩ := r
  have hall : (exec db c).All fun x => Fences db x.1 x.2 := by
    apply Call.run_of_wp (Q := fun reply db' => Fences db reply db')
    · exact Op.program_fences (e := { toDb := db }) hfit c.fuel c.scope c.defaults c.op hretired
    · exact fun err => ⟨hfit, .refl db, .raise fun _ => le_rfl⟩
    · exact ⟨hfit, .refl db, .raise fun _ => le_rfl⟩
  exact hall.of_yields hv

theorem Run.fenced {steps : List StepRecord} (hrun : Run steps db)
    (hretired : ∀ r ∈ steps, Retired r) :
    Fence.History (Fence.grantsOf grants steps) db.level ∧ db.Fit := by
  induction hrun with
  | nil =>
    exact ⟨.nil _, Db.fit_empty⟩
  | @snoc steps r _ hv ih =>
    obtain ⟨hhistory, hfit⟩ := ih fun q hq => hretired q (List.mem_append_left _ hq)
    have hstep := exec_fences hv (hretired r (by simp)) hfit
    rw [Fence.grantsOf_snoc]
    exact ⟨hhistory.advance hstep.advances, hstep.fit⟩

/-- In a run whose collections find the epochs they may delete retired, the epochs granted
for an identifier increase over the whole run, and after every step the floor is at least
the epoch of each row that the step deleted. -/
theorem run_fenced_across_deletion {steps : List StepRecord} {db : Db} (hrun : Run steps db)
    (hretired : ∀ r ∈ steps, Retired r) :
    (∀ k, (Fence.epochsOf grants k steps).Pairwise (· < ·)) ∧
      ∀ r ∈ steps, ∀ id row, r.before.rows.lookup id = some row →
        r.after.rows.lookup id = none → row.epoch ≤ r.after.floor := by
  constructor
  · exact fun k => (hrun.fenced hretired).1.epochsOf_increasing k
  intro r hr id row hrow hgone
  obtain ⟨pre, post, rfl, hpre, hv⟩ := hrun.prefix_of_mem hr
  have hfit := (Run.fenced hpre fun q hq => hretired q (List.mem_append_left _ hq)).2
  rcases (exec_fences hv (hretired r hr) hfit).aged.row id row hrow with ⟨r', hr', -⟩ | hle
  · rw [hgone] at hr'
    cases hr'
  · exact hle

/-- A success with the first lease on a node. -/
def firstSuccess (id : NodeID) : Op :=
  .complete { lease := { scope := "s", nodeID := id, epoch := 1 }, success := true }

/-- A node that is claimed, removed, created and claimed again; another one is collected
that was never claimed. -/
def regrantOps : List Op :=
  [.addNodes [{ id := "a" }], .claim { scope := "s" }, firstSuccess "a", .removeNode "a" .reject,
   .addNodes [{ id := "a" }], .claim { scope := "s" }, .addNodes [{ id := "b" }], .cancel ["b"],
   .collectTerminal 0 0]

/-- A test for `Retired`. -/
def retired (r : StepRecord) : Bool :=
  match r.call.op with
  | .collectTerminal cutoff _ =>
    (({ toDb := r.before } : Engine).terminalCandidates cutoff).all fun id =>
      (r.before.rows.lookup id).all fun row => row.epoch ≤ r.before.floor
  | _ => true

theorem Retired.of_test (h : retired r = true) : Retired r := by
  intro cutoff limit hop id hid row hrow
  simp only [retired, hop, List.all_eq_true] at h
  simpa [hrow] using h id hid

theorem regrantOps_fenced : ∃ steps db, Run steps db ∧ (∀ r ∈ steps, Retired r) ∧
    steps.map (fun r => r.after.rows.keys.length) = [1, 1, 1, 0, 1, 1, 2, 2, 1] ∧
    Fence.epochsOf grants "a" steps = [1, 2] ∧
    (Fence.epochsOf grants "a" steps).Pairwise (· < ·) := by
  obtain ⟨steps, db, hrun, hp⟩ := Trace.exists_run_of_execute exec (callsOf regrantOps) {}
    (p := fun steps _ => steps.all retired &&
      decide (steps.map (fun r => r.after.rows.keys.length) = [1, 1, 1, 0, 1, 1, 2, 2, 1]) &&
      decide (Fence.epochsOf grants "a" steps = [1, 2])) (by decide +kernel)
  simp only [Bool.and_eq_true, List.all_eq_true, decide_eq_true_eq] at hp
  obtain ⟨⟨htest, hrows⟩, hepochs⟩ := hp
  have hretired : ∀ r ∈ steps, Retired r := fun r hr => Retired.of_test (htest r hr)
  exact ⟨steps, db, hrun, hretired, hrows, hepochs,
    (run_fenced_across_deletion hrun hretired).1 "a"⟩

/-- A node that is claimed, completed, collected, created and claimed again. -/
def recollectOps : List Op :=
  [.addNodes [{ id := "a" }], .claim { scope := "s" }, firstSuccess "a", .collectTerminal 0 0,
   .addNodes [{ id := "a" }], .claim { scope := "s" }]

/-- The collection leaves the floor at zero, below the epoch of the row it deletes, and
both nodes are granted epoch one. -/
theorem recollectOps_unfenced : ∃ steps db, Run steps db ∧
    Fence.epochsOf grants "a" steps = [1, 1] ∧
    ∃ r ∈ steps, ∃ id row, r.before.rows.lookup id = some row ∧
      r.after.rows.lookup id = none ∧ r.after.floor < row.epoch := by
  obtain ⟨steps, db, hrun, hp⟩ := Trace.exists_run_of_execute exec (callsOf recollectOps) {}
    (p := fun steps _ => decide (Fence.epochsOf grants "a" steps = [1, 1]) &&
      steps.any fun r => (r.before.rows.lookup 1).any (fun row => r.after.floor < row.epoch) &&
        (r.after.rows.lookup 1).isNone) (by decide +kernel)
  simp only [Bool.and_eq_true, List.any_eq_true, decide_eq_true_eq] at hp
  obtain ⟨hepochs, r, hr, hrow, hgone⟩ := hp
  rw [Option.any_eq_true] at hrow
  obtain ⟨row, hrow, hlt⟩ := hrow
  exact ⟨steps, db, hrun, hepochs, r, hr, 1, row, hrow, Option.isNone_iff_eq_none.mp hgone,
    by simpa using hlt⟩

end DagWorker.Postgres
