import DagWorker.Redis.Edits
import DagWorker.Support.Fence

/-!
# Fencing across the generations of an identifier

`createNode` starts a node at the epoch floor, and every deletion but one raises the
floor to the epoch of the node it deletes.  `scriptCollectIfEligible` does not: after a
collection the identifier starts over, and a lease of the earlier node fits the new one.
-/

namespace DagWorker.Redis

open Function

variable {n : NodeHash} {s : State} {id : NodeID} {e k : ℕ} {r : StepRecord}
variable {rows : List LeaseRow}

namespace State

/-! ## Granting -/

theorem luaSucc_of_lt {n : ℕ} (h : n < 2 ^ 53) : luaSucc n = n + 1 := if_pos h

theorem level_of_node (h : s.node id = some n) :
    s.level id = n.epoch := by
  simp [level, epochOf, h]

theorem ClaimedAt.has (h : s.ClaimedAt id e) :
    s.has id = true := by
  obtain ⟨n, hn, -⟩ := h
  simp [State.has, hn]

theorem ClaimedAt.level (h : s.ClaimedAt id e) :
    s.level id = e := by
  obtain ⟨n, hn, -, rfl⟩ := h
  exact level_of_node hn

theorem epochFloor_grant (s : State) (kind : String) (id : NodeID) (n : NodeHash)
    (args : ClaimArgs) (nowMs : Int) :
    (s.grant kind id n args nowMs).stats.epochFloor = s.stats.epochFloor := by
  obtain ⟨mid, hmid, hgrant⟩ := s.grant_spec kind id n args nowMs
  rw [hgrant.floor, modNode_stats, hmid.floor]

section Grant

variable {s : State} {id : NodeID} {n : NodeHash} (hn : s.node id = some n) (kind : String)
  (args : ClaimArgs) (nowMs : Int)
include hn

theorem epochOf_grant (x : NodeID) :
    (s.grant kind id n args nowMs).epochOf x =
      if x = id then some (luaSucc n.epoch) else s.epochOf x := by
  obtain ⟨mid, hmid, hgrant⟩ := s.grant_spec kind id n args nowMs
  rw [hgrant.epoch, epochOf, node_modNode]
  split
  · have hepoch := hmid.epoch id
    rw [epochOf, epochOf, hn] at hepoch
    obtain ⟨m, hm, hmn⟩ := Option.map_eq_some_iff.mp hepoch
    rw [hm, ← hmn]
    rfl
  · exact hmid.epoch x

theorem level_grant :
    (s.grant kind id n args nowMs).level = update s.level id (luaSucc n.epoch) := by
  funext x
  rw [level, epochOf_grant hn, epochFloor_grant]
  by_cases hx : x = id
  · rw [if_pos hx, hx, update_self]
    rfl
  · rw [if_neg hx, update_of_ne hx]
    rfl

theorem claimedAt_of_grant {x : NodeID}
    (h : (s.grant kind id n args nowMs).ClaimedAt x e) :
    x = id ∧ e = luaSucc n.epoch ∨ s.ClaimedAt x e := by
  by_cases hx : x = id
  · refine .inl ⟨hx, ?_⟩
    rw [← h.level, level_grant hn, hx, update_self]
  obtain ⟨mid, hmid, hgrant⟩ := s.grant_spec kind id n args nowMs
  obtain ⟨m, hm, hclaimed⟩ := hgrant.calm x e h
  rw [node_modNode, if_neg hx] at hm
  exact .inr (hmid.calm x e ⟨m, hm, hclaimed⟩)

/-- The row of a lease names the epoch the node was given. -/
theorem leaseRow_grant :
    ((s.grant kind id n args nowMs).leaseRow id).map (fun row => (row.id, row.epoch)) =
      [(id, luaSucc n.epoch)] := by
  have hepoch := epochOf_grant hn kind args nowMs id
  rw [if_pos rfl, epochOf] at hepoch
  obtain ⟨m, hm, hmn⟩ := Option.map_eq_some_iff.mp hepoch
  simp [leaseRow, hm, hmn]

end Grant

/-! ## Claiming -/

def leasesOf (rows : List LeaseRow) : List (NodeID × ℕ) := rows.map fun row => (row.id, row.epoch)

/-- The progress of a claim that began in `s₀`. -/
structure Claiming (s₀ : State) (rows : List LeaseRow) (s : State) : Prop where
  advances : Fence.Advances s₀.level (leasesOf rows) s.level
  held : ∀ id e, s.ClaimedAt id e → (id, e) ∈ leasesOf rows ∨ s₀.ClaimedAt id e

/-- One grant, below the largest epoch a double counts to. -/
theorem Claiming.grant {s₀ : State} (h : Claiming s₀ rows s) (hn : s.node id = some n)
    (hlt : n.epoch < 2 ^ 53) (kind : String) (args : ClaimArgs) (nowMs : Int) :
    Claiming s₀ (rows ++ (s.grant kind id n args nowMs).leaseRow id)
      (s.grant kind id n args nowMs) := by
  have hrows : leasesOf (rows ++ (s.grant kind id n args nowMs).leaseRow id) =
      leasesOf rows ++ [(id, luaSucc n.epoch)] := by
    rw [leasesOf, List.map_append, leaseRow_grant hn]
    rfl
  refine ⟨?_, fun x e hx => ?_⟩
  · rw [hrows]
    refine h.advances.grant ?_ fun x => (congrFun (level_grant hn kind args nowMs) x).ge
    rw [level_of_node hn, luaSucc_of_lt hlt]
    exact Nat.lt_succ_self _
  · rw [hrows, List.mem_append, List.mem_singleton]
    rcases claimedAt_of_grant hn kind args nowMs hx with ⟨rfl, rfl⟩ | hold
    · exact .inl (.inr rfl)
    · exact (h.held x e hold).imp .inl fun h => h

theorem below_grant (hn : s.node id = some n)
    (hk : s.Below k) (hlt : n.epoch < 2 ^ 53) (kind : String) (args : ClaimArgs)
    (nowMs : Int) : (s.grant kind id n args nowMs).Below (k + 1) := by
  refine ⟨?_, fun x => ?_⟩
  · rw [epochFloor_grant]
    exact hk.1.trans (Nat.le_succ k)
  rw [level_grant hn]
  by_cases hx : x = id
  · have hid := hk.2 id
    rw [level_of_node hn] at hid
    rw [hx, update_self, luaSucc_of_lt hlt]
    exact Nat.succ_le_succ hid
  · rw [update_of_ne hx]
    exact (hk.2 x).trans (Nat.le_succ k)

theorem claimLoop_claiming (args : ClaimArgs) (kinds : List String) (nowMs : Int) (left : ℕ)
    {s₀ : State} (h : Claiming s₀ rows s) (hk : s.Below k) (hfew : k + left ≤ 2 ^ 53) :
    Claiming s₀ (claimLoop args kinds nowMs left s rows).1
        (claimLoop args kinds nowMs left s rows).2 ∧
      (claimLoop args kinds nowMs left s rows).2.Below (k + left) := by
  induction left generalizing s rows k with
  | zero => exact ⟨h, hk⟩
  | succ left ih =>
    have hstop : s.Below (k + (left + 1)) :=
      ⟨hk.1.trans (Nat.le_add_right _ _), fun x => (hk.2 x).trans (Nat.le_add_right _ _)⟩
    simp only [claimLoop]
    split
    · exact ⟨h, hstop⟩
    split
    · exact ⟨h, hstop⟩
    next kind id _ _ =>
      split
      · exact ⟨h, hstop⟩
      next n hn =>
        have hepoch := hk.2 id
        rw [level_of_node hn] at hepoch
        have hlt : n.epoch < 2 ^ 53 := by omega
        have hround := ih (h.grant hn hlt kind args nowMs)
          (below_grant hn hk hlt kind args nowMs) (by omega)
        rwa [Nat.add_right_comm k 1 left] at hround

end State

/-- The leases a call asks for. -/
def Script.asked : Script → ℕ
  | .claim args => args.maxN.toNat
  | _ => 0

def grants (r : StepRecord) : List (NodeID × ℕ) :=
  match r.call, r.reply with
  | .claim _, .leases rows => State.leasesOf rows
  | _, _ => []

/-- A collection that deletes a node finds its epoch retired. -/
def Retired (r : StepRecord) : Prop :=
  ∀ id cutoffMs, r.call = .collectIfEligible id cutoffMs → r.before.Eligible id cutoffMs →
    ∀ e, r.before.epochOf id = some e → e ≤ r.before.stats.epochFloor

/-- What a step does to levels and leases. -/
structure Fences (r : StepRecord) (k : ℕ) : Prop where
  advances : Fence.Advances r.before.level (grants r) r.after.level
  held : ∀ id e, r.after.ClaimedAt id e → (id, e) ∈ grants r ∨ r.before.ClaimedAt id e
  below : r.after.Below (k + r.call.asked)

theorem State.Aged.fences (h : State.Aged r.before r.after)
    (hgrants : grants r = []) (hk : r.before.Below k) : Fences r k := by
  obtain ⟨hfloor, hlevel⟩ := h.below k hk
  refine ⟨?_, fun id e he => .inr (h.calm id e he), hfloor.trans (Nat.le_add_right _ _),
    fun x => (hlevel x).trans (Nat.le_add_right _ _)⟩
  rw [hgrants]
  exact .raise h.level

theorem claim_fences (args : State.ClaimArgs) (hk : s.Below k)
    (hfew : k + args.maxN.toNat ≤ 2 ^ 53) :
    (s.claim args).All fun r => Fences ⟨s, .claim args, r.1, r.2⟩ k := by
  intro nowMs
  refine State.quiet_reclaimExpired.bind fun r hr => ?_
  refine Prog.All.bind (Prog.all_of_forall (P := fun _ => True) (fun _ => trivial) _)
    fun kinds _ => ?_
  have haged : State.Aged s (r.2.promoteScheduled nowMs) :=
    (hr.trans State.quiet_promoteScheduled).toStill.aged
  have hstart : State.Claiming s [] (r.2.promoteScheduled nowMs) :=
    ⟨.raise haged.level, fun id e he => .inr (haged.calm id e he)⟩
  obtain ⟨hclaim, hbelow⟩ := State.claimLoop_claiming args kinds nowMs args.maxN.toNat hstart
    (haged.below k hk) hfew
  exact ⟨hclaim.advances, hclaim.held, hbelow⟩

theorem collect_aged {cutoffMs : Int}
    (hretired : s.Eligible id cutoffMs → ∀ e, s.epochOf id = some e → e ≤ s.stats.epochFloor) :
    State.Aged s (s.collectIfEligible id cutoffMs).2 := by
  rcases s.collectIfEligible_cases id cutoffMs with ⟨n, -, hel, h⟩ | ⟨-, h⟩
  · rw [h]
    have hq : State.Quiet s ((s.adjustBucket .done n.status (-1)).adjustTotal (-1)) :=
      State.quiet_adjustBucket.trans State.quiet_adjustTotal
    refine hq.toStill.aged.trans (State.aged_delKeys fun e he => ?_)
    rw [hq.floor]
    exact hretired hel e (by rwa [← hq.epoch])
  · rw [h]
    exact (State.Still.refl s).aged

/-- One step, below the largest epoch a double counts to. -/
theorem exec_fences (hv : r.Valid Script.exec) (hretired : Retired r)
    (hk : r.before.Below k) (hfew : k + r.call.asked ≤ 2 ^ 53) : Fences r k := by
  obtain ⟨s, c, reply, t⟩ := r
  by_cases hclaim : ∃ args, c = .claim args
  · obtain ⟨args, rfl⟩ := hclaim
    exact (claim_fences args hk hfew).of_yields hv
  have hgrants : grants ⟨s, c, reply, t⟩ = [] := by
    unfold grants
    split
    · next args _ hcall _ => exact absurd ⟨args, hcall⟩ hclaim
    · rfl
  refine State.Aged.fences (r := ⟨s, c, reply, t⟩) ?_ hgrants hk
  by_cases hcollect : ∃ id cutoffMs, c = .collectIfEligible id cutoffMs
  · obtain ⟨id, cutoffMs, rfl⟩ := hcollect
    have hall : ((Script.collectIfEligible id cutoffMs).exec s).All fun x => State.Aged s x.2 :=
      collect_aged (hretired id cutoffMs rfl)
    exact hall.of_yields hv
  · exact ((exec_change s c (fun id cutoffMs h => hcollect ⟨id, cutoffMs, h⟩)
      fun args h => hclaim ⟨args, h⟩).of_yields hv).aged

/-! ## Whole runs -/

def asked (steps : List StepRecord) : ℕ := (steps.map fun r => r.call.asked).sum

theorem Run.fenced {cfg : Cfg} {steps : List StepRecord}
    (hrun : Run (State.fresh cfg) steps s) (hretired : ∀ r ∈ steps, Retired r)
    (hfew : asked steps ≤ 2 ^ 53) :
    Fence.Fenced grants State.has State.level State.ClaimedAt steps s ∧
      s.Below (asked steps) := by
  induction hrun with
  | nil =>
    refine ⟨⟨Fence.History.nil _, fun id e he => ?_⟩, le_rfl, fun _ => le_rfl⟩
    obtain ⟨n, hn, -⟩ := he
    simp [State.fresh, State.node] at hn
  | @snoc steps r _ hv ih =>
    have hasked : asked (steps ++ [r]) = asked steps + r.call.asked := by simp [asked]
    rw [hasked] at hfew ⊢
    obtain ⟨hfenced, hbelow⟩ := ih (fun q hq => hretired q (List.mem_append_left _ hq))
      (Nat.le_of_add_right_le hfew)
    have hstep := exec_fences hv (hretired r (by simp)) hbelow hfew
    exact ⟨hfenced.snoc hstep.advances hstep.held (fun _ _ h => h.has) fun _ _ h => h.level.le,
      hstep.below⟩

/-- The call was refused and changed nothing. -/
def Refused (r : StepRecord) (id : NodeID) : Prop :=
  r.after = r.before ∧ (r.reply = .error (.notFound id) ∨
    ∃ epochs, r.reply = .error (.leaseMismatch id epochs))

theorem complete_refused {args : State.CompleteArgs} (hv : r.Valid Script.exec)
    (hcall : r.call = .complete args)
    (hstale : ¬r.before.ClaimedAt args.id args.presentedEpoch) : Refused r args.id := by
  obtain ⟨s, c, reply, t⟩ := r
  subst hcall
  have hall : (s.complete args).All fun x => Refused ⟨s, .complete args, x.1, x.2⟩ args.id := by
    unfold State.complete
    split
    · exact ⟨rfl, .inl rfl⟩
    next n hn =>
      split
      · next hholds =>
          simp only [State.holdsLease, Bool.and_eq_true, decide_eq_true_eq] at hholds
          exact absurd ⟨n, hn, hholds.1, hholds.2⟩ hstale
      · exact ⟨rfl, .inr ⟨_, rfl⟩⟩
  exact hall.of_yields hv

/-- In a run whose collections find the epochs they delete retired, the epochs granted for
an identifier increase over the whole run, and a completion with a lease that was
superseded (its node deleted since, or granted again) is refused. -/
theorem run_fenced {cfg : Cfg} {steps : List StepRecord} {s : State}
    (hrun : Run (State.fresh cfg) steps s) (hretired : ∀ r ∈ steps, Retired r)
    (hfew : asked steps ≤ 2 ^ 53) :
    (∀ id, (Fence.epochsOf grants id steps).Pairwise (· < ·)) ∧
      ∀ pre r post args, steps = pre ++ r :: post → r.call = .complete args →
        Fence.Superseded grants State.has args.id args.presentedEpoch pre →
        Refused r args.id := by
  refine ⟨fun id => (Run.fenced hrun hretired hfew).1.increasing id, ?_⟩
  rintro pre r post args rfl hcall hsup
  obtain ⟨hpre, hv, -⟩ := hrun.around
  have hle : asked pre ≤ asked (pre ++ r :: post) := by simp [asked]
  have hfenced := (Run.fenced hpre (fun q hq => hretired q (List.mem_append_left _ hq))
    (hle.trans hfew)).1
  exact complete_refused hv hcall fun hclaimed => hfenced.current _ _ hclaimed hsup

/-- A node that is claimed, removed, created and claimed again, after which its first
lease is presented; another node is collected that was never claimed. -/
def regrantCalls : List (Trace.Call Script) :=
  [{ input := .addNodes 10 [{ id := "a" }], clock := [10] },
   { input := .claim { leaseMs := 1000 }, clock := [20] },
   { input := .complete { id := "a", presentedEpoch := 1, success := true, payloadCap := 64 },
     clock := [30] },
   { input := .removeNode "a" .reject, clock := [40] },
   { input := .addNodes 10 [{ id := "a" }, { id := "b" }], clock := [50] },
   { input := .claim { leaseMs := 1000 }, clock := [60] },
   { input := .cancelNodes ["b"], clock := [70] },
   { input := .collectIfEligible "b" 80 },
   { input := .complete { id := "a", presentedEpoch := 1, success := true, payloadCap := 64 },
     clock := [90] }]

/-- A test for `Retired`. -/
def retired (r : StepRecord) : Bool :=
  match r.call with
  | .collectIfEligible id _ => (r.before.epochOf id).all (· ≤ r.before.stats.epochFloor)
  | _ => true

theorem Retired.of_test (h : retired r = true) : Retired r := by
  intro id cutoffMs hcall _ e he
  simpa [retired, hcall, he] using h

theorem regrantCalls_fenced : ∃ steps s, Run (State.fresh {}) steps s ∧
    (∀ r ∈ steps, Retired r) ∧ asked steps ≤ 2 ^ 53 ∧
    Fence.epochsOf grants "a" steps = [1, 2] ∧
    (Fence.epochsOf grants "a" steps).Pairwise (· < ·) := by
  obtain ⟨steps, s, hrun, hp⟩ := Trace.exists_run_of_execute Script.exec regrantCalls
    (State.fresh {}) (p := fun steps _ => steps.all retired && decide (asked steps ≤ 2 ^ 53) &&
      decide (Fence.epochsOf grants "a" steps = [1, 2])) (by decide +kernel)
  simp only [Bool.and_eq_true, List.all_eq_true, decide_eq_true_eq] at hp
  obtain ⟨⟨htest, hfew⟩, hepochs⟩ := hp
  have hretired : ∀ r ∈ steps, Retired r := fun r hr => Retired.of_test (htest r hr)
  exact ⟨steps, s, hrun, hretired, hfew, hepochs, (run_fenced hrun hretired hfew).1 "a"⟩

/-- A node that is claimed, completed, collected, created and claimed again, after which
its first lease is presented. -/
def recollectCalls : List (Trace.Call Script) :=
  [{ input := .addNodes 10 [{ id := "a" }], clock := [10] },
   { input := .claim { leaseMs := 1000 }, clock := [20] },
   { input := .complete { id := "a", presentedEpoch := 1, success := true, payloadCap := 64 },
     clock := [30] },
   { input := .collectIfEligible "a" 40 },
   { input := .addNodes 10 [{ id := "a" }], clock := [50] },
   { input := .claim { leaseMs := 1000 }, clock := [60] },
   { input := .complete { id := "a", presentedEpoch := 1, success := true, payloadCap := 64 },
     clock := [70] }]

/-- Both nodes are granted epoch one, and the lease of the first completes the second. -/
theorem recollectCalls_unfenced : ∃ steps s, Run (State.fresh {}) steps s ∧
    Fence.epochsOf grants "a" steps = [1, 1] ∧
    steps.getLast?.map (fun r => r.reply) = some (.completed false 0) := by
  obtain ⟨steps, s, hrun, hp⟩ := Trace.exists_run_of_execute Script.exec recollectCalls
    (State.fresh {}) (p := fun steps _ => decide (Fence.epochsOf grants "a" steps = [1, 1]) &&
      decide (steps.getLast?.map (fun r => r.reply) = some (.completed false 0)))
    (by decide +kernel)
  simp only [Bool.and_eq_true, decide_eq_true_eq] at hp
  exact ⟨steps, s, hrun, hp.1, hp.2⟩

end DagWorker.Redis
