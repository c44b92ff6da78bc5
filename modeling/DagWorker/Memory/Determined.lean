import DagWorker.Memory.Runs
import DagWorker.Support.Replay

/-!
# What the readings determine

Apart from `CancelScope` and `CollectTerminal`, the only map an operation ranges over is
that of the ready queues, when `Claim` looks for the best node of any kind.  No two
claimable nodes carry the same insertion stamp, so that the order of the queues does not
matter, and the store and the readings determine what an operation does.
-/

namespace DagWorker.Memory

variable {kind : String} {res : ClaimResult} (hs : List ℕ) (s : Scope) (edges : List Edge) (h : ℕ)
  (req : CompleteRequest) (out : List Effect)

namespace Scope

open Prog

/-! ## Operations that range over no map -/

theorem record_rangeless (kind : EventKind) (fromStatus : Status) :
    (s.record h kind fromStatus).Rangeless := fun _ => trivial

theorem promoteLoop_rangeless (now : Int) (fuel : ℕ) (s : Scope) (out : List Effect) :
    (promoteLoop now fuel s out).Rangeless := by
  induction fuel generalizing s out with
  | zero => trivial
  | succ fuel ih =>
    rw [promoteLoop]
    split
    · trivial
    · split
      · trivial
      · exact (record_rangeless _ _ _ _).bind fun r => ih r.2 _

theorem fanOut_rangeless (u : ℕ) (status : Status) (reason : Reason) (ws : List ℕ) (s : Scope)
    (queue : List Item) (out : List Effect) :
    (fanOut u status reason ws s queue out).Rangeless := by
  induction ws generalizing s queue out with
  | nil => trivial
  | cons w ws ih =>
    rw [fanOut]
    split
    · exact ih _ _ _
    dsimp only
    split
    · exact ih _ _ _
    split
    · exact ih _ _ _
    split
    · split
      · exact (record_rangeless _ _ _ _).bind fun r => ih r.2 _ _
      · exact ih _ _ _
    · exact ih _ _ _

theorem terminateLoop_rangeless (fuel : ℕ) (queue : List Item) (s : Scope) (out : List Effect) :
    (terminateLoop fuel queue s out).Rangeless := by
  induction fuel generalizing queue s out with
  | zero => trivial
  | succ fuel ih =>
    cases queue with
    | nil => trivial
    | cons it queue =>
      rw [terminateLoop]
      split
      · exact ih _ _ _
      · exact Rangeless.getNow_bind fun now =>
          (record_rangeless _ _ _ _).bind fun r =>
            (fanOut_rangeless _ _ _ _ _ _ _).bind fun r' => ih r'.2.1 r'.1 r'.2.2

theorem terminate_rangeless (root : ℕ) (status : Status) (reason : Reason) (msg : String)
    (out : List Effect) : (s.terminate root status reason msg out).Rangeless :=
  terminateLoop_rangeless _ _ _ _

theorem settle_rangeless : (s.settle h out).Rangeless := by
  unfold settle
  dsimp only
  split
  · trivial
  split
  · exact terminate_rangeless _ _ _ _ _ _
  split
  · split
    · exact (record_rangeless _ _ _ _).bind fun _ => trivial
    · trivial
  · split <;> trivial

theorem settleAll_rangeless : (settleAll hs s out).Rangeless := by
  induction hs generalizing s out with
  | nil => trivial
  | cons h hs ih => exact (settle_rangeless s h out).bind fun r => ih r.1 r.2

theorem recordCreated_rangeless : (recordCreated hs s out).Rangeless := by
  induction hs generalizing s out with
  | nil => trivial
  | cons h hs ih => exact (record_rangeless _ _ _ _).bind fun r => ih r.2 _

theorem addNodes_rangeless (specs : List NodeSpec) : (s.addNodes specs).Rangeless := by
  unfold addNodes
  split
  · trivial
  split
  · trivial
  refine Rangeless.getNow_bind fun now => ?_
  split
  · trivial
  split
  · trivial
  · exact (recordCreated_rangeless _ _ _).bind fun r =>
      (settleAll_rangeless _ _ _).bind fun _ => trivial

theorem addEdges_rangeless : (s.addEdges edges).Rangeless := by
  unfold addEdges
  split
  · trivial
  · exact (settleAll_rangeless _ _ _).bind fun _ => trivial

theorem removeEdges_rangeless : (s.removeEdges edges).Rangeless := by
  unfold removeEdges
  split
  · trivial
  · exact (settleAll_rangeless _ _ _).bind fun _ => trivial

theorem terminateAll_rangeless (status : Status) (reason : Reason) (msg : String) (ws : List ℕ)
    (s : Scope) (out : List Effect) : (terminateAll status reason msg ws s out).Rangeless := by
  induction ws generalizing s out with
  | nil => trivial
  | cons w ws ih => exact (terminate_rangeless _ _ _ _ _ _).bind fun r => ih r.1 r.2

theorem detachAndDelete_rangeless (id : NodeID) (h : ℕ) (policy : CascadePolicy)
    (effects : List Effect) : (s.detachAndDelete id h policy effects).Rangeless := by
  unfold detachAndDelete
  split
  · exact (settleAll_rangeless _ _ _).bind fun _ => trivial
  · trivial

theorem removeNode_rangeless (id : NodeID) (policy : CascadePolicy) :
    (s.removeNode id policy).Rangeless := by
  unfold removeNode
  split
  · trivial
  split
  · trivial
  split
  · exact detachAndDelete_rangeless _ _ _ _ _
  split
  · trivial
  · exact (terminateAll_rangeless _ _ _ _ _ _).bind fun r =>
      detachAndDelete_rangeless _ _ _ _ _
  · exact detachAndDelete_rangeless _ _ _ _ _
  · exact detachAndDelete_rangeless _ _ _ _ _

theorem cancelLoop_rangeless (ids : List NodeID) (s : Scope) (out : List Effect) :
    (cancelLoop ids s out).Rangeless := by
  induction ids generalizing s out with
  | nil => trivial
  | cons id ids ih =>
    rw [cancelLoop]
    split
    · trivial
    · split
      · exact ih _ _
      · exact (terminate_rangeless _ _ _ _ _ _).bind fun r => ih r.1 r.2

theorem backoff_rangeless (attempt : ℕ) (base maxDelay : Int) :
    (backoff attempt base maxDelay).Rangeless := by
  unfold backoff
  dsimp only
  generalize (if attempt = 0 then 1 else attempt) = n
  split
  · trivial
  · exact fun _ => trivial

theorem failAttempt_rangeless (reason : Reason) (msg : String) (cfg : ScopeConfig) (now : Int)
    (out : List Effect) : (s.failAttempt h reason msg cfg now out).Rangeless := by
  unfold failAttempt
  dsimp only
  split
  · exact terminate_rangeless _ _ _ _ _ _
  · exact (backoff_rangeless _ _ _).bind fun _ =>
      (record_rangeless _ _ _ _).bind fun _ => trivial

theorem reclaimLoop_rangeless (now : Int) (cfg : ScopeConfig) (left : ℕ) (s : Scope)
    (out : List Effect) (reclaimed : ℕ) :
    (reclaimLoop now cfg left s out reclaimed).Rangeless := by
  induction left generalizing s out reclaimed with
  | zero => trivial
  | succ left ih =>
    rw [reclaimLoop]
    split
    · trivial
    · split
      · trivial
      · exact (failAttempt_rangeless _ _ _ _ _ _ _).bind fun r => ih r.1 r.2 _

theorem completeHeld_rangeless : (s.completeHeld h req).Rangeless := by
  refine Rangeless.getNow_bind fun now => ?_
  split
  · split
    · trivial
    · exact (terminate_rangeless _ _ _ _ _ _).bind fun _ => trivial
  dsimp only
  generalize (if req.reason = .none then Reason.workerError else req.reason) = reason
  split
  · exact (terminate_rangeless _ _ _ _ _ _).bind fun _ => trivial
  · exact (failAttempt_rangeless _ _ _ _ _ _ _).bind fun _ => trivial

theorem complete_rangeless : (s.complete req).Rangeless := by
  unfold complete
  split
  · trivial
  · split
    · exact completeHeld_rangeless _ _ _
    · trivial

theorem extend_rangeless (req : ExtendRequest) : (s.extend req).Rangeless := by
  unfold extend
  split
  · trivial
  · split
    · exact fun _ => trivial
    · trivial

theorem sweep_rangeless (limit : Int) : (s.sweep limit).Rangeless := by
  refine Rangeless.getNow_bind fun now => ?_
  refine (reclaimLoop_rangeless _ _ _ _ _ _).bind fun r => ?_
  exact (promoteLoop_rangeless _ _ _ _).bind fun r' => trivial

/-! ## The best claimable node -/

section Best

variable {s : Scope}

/-- A candidate is preferred: by priority, and then by insertion stamp. -/
def Outranks (s : Scope) (a b : ℕ) : Prop :=
  (s.recs b).priority < (s.recs a).priority ∨
    ((s.recs a).priority = (s.recs b).priority ∧ s.fifo a < s.fifo b)

instance (s : Scope) (a b : ℕ) : Decidable (s.Outranks a b) :=
  inferInstanceAs (Decidable (_ ∨ _))

theorem consider_of_peek {top : ℕ} (hp : (s.readyHeap kind).peek = some top)
    (best : Option (ℕ × String)) : s.consider best kind =
      match best with
      | none => some (top, kind)
      | some b => if s.Outranks top b.1 then some (top, kind) else some b := by
  unfold consider
  rw [hp]
  cases best <;> rfl

theorem consider_of_peek_none (hp : (s.readyHeap kind).peek = none) (best : Option (ℕ × String)) :
    s.consider best kind = best := by
  unfold consider
  rw [hp]

/-- The queues can be compared in any order: two heads never tie. -/
theorem consider_comm (hi : s.Inv) (best : Option (ℕ × String)) (k₁ k₂ : String) :
    s.consider (s.consider best k₁) k₂ = s.consider (s.consider best k₂) k₁ := by
  cases hp₁ : (s.readyHeap k₁).peek with
  | none => rw [consider_of_peek_none hp₁, consider_of_peek_none hp₁]
  | some t₁ =>
    cases hp₂ : (s.readyHeap k₂).peek with
    | none => rw [consider_of_peek_none hp₂, consider_of_peek_none hp₂]
    | some t₂ =>
      obtain ⟨hal₁, hph₁, hk₁⟩ := hi.queued.phase_of_peek hp₁
      obtain ⟨hal₂, hph₂, hk₂⟩ := hi.queued.phase_of_peek hp₂
      by_cases heq : s.fifo t₁ = s.fifo t₂
      · have hsame : t₁ = t₂ := hi.lined.inj t₁ t₂ (by simp [inPhase, hal₁, hph₁])
          (by simp [inPhase, hal₂, hph₂]) heq
        subst hsame
        rw [← hk₁, ← hk₂]
      · have hone : s.Outranks t₁ t₂ ↔ ¬ s.Outranks t₂ t₁ := by
          unfold Outranks
          omega
        cases best with
        | none =>
          simp only [consider_of_peek hp₁, consider_of_peek hp₂, hone]
          by_cases h : s.Outranks t₂ t₁ <;> simp [h]
        | some b =>
          simp only [consider_of_peek hp₁, consider_of_peek hp₂]
          by_cases h₁ : s.Outranks t₁ b.1 <;> by_cases h₂ : s.Outranks t₂ b.1 <;>
            simp only [h₁, h₂, if_true, if_false, hone]
          · by_cases h : s.Outranks t₂ t₁ <;> simp [h]
          · rw [if_neg]
            unfold Outranks at *
            omega
          · rw [if_neg]
            unfold Outranks at *
            omega

theorem bestReady_perm (hi : s.Inv) {kinds kinds' : List String} (hp : kinds.Perm kinds') :
    s.bestReady kinds = s.bestReady kinds' :=
  hp.foldl_eq' (fun k₁ _ k₂ _ best => consider_comm hi best k₁ k₂) none

end Best

/-! ## Claiming and cancelling a scope -/

/-- One round of the claim loop, once the best node is known. -/
theorem claimRound_determined {cfg : ScopeConfig} {req : ClaimRequest} {now : Int} {left : ℕ}
    {s : Scope} {best : Option (ℕ × String)} (hi : s.Inv) (hbest : s.Heads best)
    (ih : ∀ {s : Scope} {res}, s.Inv → (claimLoop cfg req now left s res).Determined) :
    Determined (match best with
      | none => pure (res, s)
      | some (h, kind) => do
        let (ef, s) ← (s.grant h kind req.workerID now (cfg.clampLease req.timeout)).record
          h .transition (s.recs h).status
        claimLoop cfg req now left s
          { leases := res.leases ++ [s.leaseOf h], effects := res.effects ++ [ef] }) := by
  cases best with
  | none => exact Matches.ret rfl
  | some b =>
    have hgrant : ∀ t, (s.granted b.1 b.2 req.workerID now
        (cfg.clampLease req.timeout) t).2.Inv := fun t =>
      ((Grants.nil.snoc b.1 b.2 req.workerID now (cfg.clampLease req.timeout) t
        (hbest b.1 b.2 rfl)).inv hi).1
    exact Matches.now fun t => ih (hgrant t)

theorem claimLoop_determined {cfg : ScopeConfig} {req : ClaimRequest} {now : Int} {left : ℕ}
    {s : Scope} (hi : s.Inv) : (claimLoop cfg req now left s res).Determined := by
  induction left generalizing s res with
  | zero => exact Matches.ret rfl
  | succ left ih =>
    rw [claimLoop]
    split
    · exact Matches.ret rfl
    have hheads : ∀ kinds, s.Heads (s.bestReady kinds) :=
      fun kinds h kind hb => bestReady_peek hb
    unfold kindsToPop
    split
    · refine Determined.getRange_bind (fun l hl => ?_) (claimRound_determined hi (hheads _) ih)
      rw [bestReady_perm hi hl]
    · exact claimRound_determined hi (hheads _) ih

theorem claim_determined {s : Scope} (hi : s.Inv) (req : ClaimRequest) :
    (s.claim req).Determined := by
  refine Determined.getNow_bind fun now => ?_
  refine Determined.bind (reclaimLoop_rangeless _ _ _ _ _ _).determined
    (reclaimExpired_tale hi now _ _) fun r hev => ?_
  exact Determined.bind (promoteLoop_rangeless _ _ _ _).determined
    (promoteScheduled_tale (hi.path hev.path) now) fun r' hev' =>
      claimLoop_determined ((hi.path hev.path).path hev'.path)

/-- At most one node of the scope is not terminal. -/
def Solitary (s : Scope) : Prop := (s.liveHandles s.index.keys).length ≤ 1

instance (s : Scope) : Decidable s.Solitary := inferInstanceAs (Decidable (_ ≤ _))

theorem cancelScope_determined {s : Scope} (hs : s.Solitary) : s.cancelScope.Determined := by
  refine Determined.getRange_bind (fun ids hids => ?_) ?_
  · have hperm : (s.liveHandles ids).Perm (s.liveHandles s.index.keys) :=
      (hids.filterMap s.lookup).filter _
    have heq : s.liveHandles ids = s.liveHandles s.index.keys := by
      rw [Solitary] at hs
      match hl : s.liveHandles s.index.keys, hs with
      | [], _ => rw [hl] at hperm; exact hperm.eq_nil
      | [h], _ => rw [hl] at hperm; exact List.perm_singleton.mp hperm
    rw [heq]
  · rw [cancelLive_eq]
    exact Rangeless.determined ((terminateAll_rangeless _ _ _ _ _ _).bind fun _ => trivial)

end Scope

/-! ## Operations of the store -/

/-- The operations the order of a map has no influence on: all but `CancelScope` on
a scope with several live nodes, and `CollectTerminal`. -/
def Op.Ordered (st : Store) : Op → Prop
  | .cancelScope name => ∀ s, st.scopes.lookup name = some s → s.Solitary
  | .collectTerminal _ _ _ => False
  | _ => True

section Store

open Prog

variable {α : Type} {st : Store} {name : String} {fail : Err → α} {absent : α}
  {f : Scope → Prog (α × Scope)}

theorem Store.onScope_determined {s : Scope} (hf : (f s).Determined) :
    (st.onScope name s f).Determined :=
  Determined.bind hf (all_of_forall (P := fun _ => True) (fun _ => trivial) _)
    fun _ _ => Matches.ret rfl

theorem Op.lift_determined {g : α → Out} {p : Prog (α × Scope)} (hp : p.Determined) :
    (Op.lift g p).Determined :=
  Determined.bind hp (all_of_forall (P := fun _ => True) (fun _ => trivial) _)
    fun _ _ => Matches.ret rfl

/-- The result of an operation, and what it reads, do not depend on the order of
maps. -/
theorem exec_determined (hst : ∀ n s, st.scopes.lookup n = some s → s.Sound n) (op : Op)
    (hop : op.Ordered st) : (op.exec st).Determined := by
  have hret : ∀ {β : Type} (b : β), (ret b).Determined := fun b => Matches.ret rfl
  cases htarget : op.target with
  | none =>
    cases op with
    | restore defaults logCap =>
      rw [Op.exec]
      split <;> exact hret _
    | close => exact hret _
    | _ => cases htarget
  | some name =>
    apply Op.exec_cases (C := Determined) htarget
    · exact fun out _ => hret _
    intro s hs habsent
    apply Store.onScope_determined
    cases op with
    | addNodes _ specs => exact Op.lift_determined (s.addNodes_rangeless specs).determined
    | addEdges _ edges => exact Op.lift_determined (s.addEdges_rangeless edges).determined
    | removeEdges _ edges => exact Op.lift_determined (s.removeEdges_rangeless edges).determined
    | removeNode _ id policy =>
      exact Op.lift_determined (s.removeNode_rangeless id policy).determined
    | cancel _ ids => exact Op.lift_determined (Scope.cancelLoop_rangeless ids s []).determined
    | cancelScope =>
      cases htarget
      exact Op.lift_determined (Scope.cancelScope_determined (hop s (habsent rfl)))
    | claim req =>
      rw [Op.body]
      exact Op.lift_determined (Scope.claim_determined (hs.sound hst).inv req)
    | complete req => exact Op.lift_determined (s.complete_rangeless req).determined
    | extend req => exact Op.lift_determined (s.extend_rangeless req).determined
    | sweep _ limit =>
      rw [Op.body]
      exact Op.lift_determined (s.sweep_rangeless limit).determined
    | collectTerminal => exact hop.elim
    | _ => exact hret _

end Store

end DagWorker.Memory
