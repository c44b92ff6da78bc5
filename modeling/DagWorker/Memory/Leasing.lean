import DagWorker.Memory.Cascade

/-!
# The lease operations, step by step

The loops of `Claim`, `Complete`, `Extend`, `Sweep` and `CollectTerminal` are followed here
once.  All but the granting loop of `Claim` are elementary transitions that respect the
trigger rules.
-/

namespace DagWorker.Memory.Scope

open Function
open PQ (Heap)

variable {now : Int} {s : Scope} {out : List Effect} {h : ℕ} {cfg : ScopeConfig}

/-! ## Backoffs and failed attempts -/

theorem promoteLoop_tale {fuel : ℕ}
    (hi : s.Inv) :
    (promoteLoop now fuel s out).All fun r => ∃ es, r.2 = out ++ es ∧ Tale s es r.1 := by
  induction fuel generalizing s out with
  | zero => exact ⟨[], by simp, .refl s⟩
  | succ fuel ih =>
    rw [promoteLoop]
    split
    · exact ⟨[], by simp, .refl s⟩
    rename_i h hp
    split
    · exact ⟨[], by simp, .refl s⟩
    simp only [record, Prog.all_bind, Prog.all_getNow, Prog.pure_eq_ret, Prog.all_ret]
    intro t
    have hh : (s.promote h).Alive h := by
      rw [Alive, promote_recs, update_self]
      exact (hi.queued.scheduled_of_peek hp).1
    have hev : Tale s _ _ := ⟨(Evolves.promote hi hp).trans (Evolves.event .ready .new t hh),
      .of_deed (Deed.promote hi hp t)⟩
    refine (ih (hi.path hev.path)).mono ?_
    rintro r ⟨es, hout, hev'⟩
    exact ⟨_, by rw [hout]; simp, hev.trans hev'⟩

theorem promoteScheduled_tale (hi : s.Inv) (now : Int) :
    (s.promoteScheduled now).All fun r => Tale s r.2 r.1 := by
  refine (promoteLoop_tale hi).mono ?_
  rintro r ⟨es, hout, hev⟩
  rw [hout]
  exact hev

/-- A second removal of a handle changes nothing. -/
theorem remove_remove {q : Heap} {p : ℕ → Bool} (hq : q.Holds p) (less less' : ℕ → ℕ → Bool)
    (h : ℕ) : (q.remove less h).remove less' h = q.remove less h := by
  refine Heap.remove_of_not_contains less' ?_
  rw [(hq.remove less h).contains_eq]
  simp

/-- `terminate` drops the lease again, so a lease dropped just before it makes no
difference. -/
theorem finish_dropLease (hi : s.Inv) (it : Item) (now : Int) :
    (s.dropLease it.h).finish it now = s.finish it now := by
  have hl := fun less' => remove_remove hi.queued.leases s.leaseLess less' it.h
  simp only [finish, dropLease, removeReady, setReady, leaveBucket, enterBucket, modRec,
    setDeadline, setReadyAt, removeLease, removeScheduled, readyHeap, hl, update_idem]
  rfl

theorem terminate_dropLease (hi : s.Inv) (hh : s.Alive h)
    (hopen : (s.recs h).phase ≠ .done) (status : Status) (reason : Reason) (msg : String)
    (out : List Effect) :
    (s.dropLease h).terminate h status reason msg out = s.terminate h status reason msg out := by
  have hgo : ¬ ((s.recs h).alive = false ∨ (s.recs h).phase = .done) := by
    rw [hh]
    simpa using hopen
  have hfin := finish_dropLease hi ⟨h, status, reason, msg⟩
  simp only [terminate, terminateLoop]
  rw [if_neg hgo, if_neg (show ¬ (((s.dropLease h).recs h).alive = false ∨
    ((s.dropLease h).recs h).phase = .done) from hgo)]
  simp only [hfin]
  rfl

/-- A failed attempt is retried or terminates the node; either way the lease is
gone. -/
theorem failAttempt_tale {reason : Reason} {msg : String}
    (hi : s.Inv) (hh : s.Alive h)
    (hp : (s.recs h).phase = .claimed) :
    (s.failAttempt h reason msg cfg now out).All fun r =>
      ∃ es, r.2 = out ++ es ∧ Tale s es r.1 ∧ r.1.index = s.index ∧
        (r.1.recs h).phase ≠ .claimed := by
  have hopen : (s.recs h).phase ≠ .done := by rw [hp]; simp
  rw [failAttempt]
  dsimp only
  split
  · rw [terminate_dropLease hi hh hopen]
    refine (terminate_drains hi rfl).mono ?_
    rintro r ⟨es, hout, hd, ha⟩
    refine ⟨es, hout, hd.tale ha, hd.cascades.index, ?_⟩
    rw [hd.finished _ (.head _) hh]
    simp
  · simp only [record, Prog.all_bind, Prog.all_getNow, Prog.pure_eq_ret, Prog.all_ret]
    refine Prog.all_of_forall (fun delay t => ?_) _
    have hh₁ : (s.retry h reason msg now delay).Alive h := by
      rw [Alive, retry_recs, update_self]
      exact hh
    refine ⟨_, rfl, ⟨(Evolves.retry reason msg now delay hh hp).trans
      (Evolves.event .transition _ t hh₁), .of_deed (Deed.retry hh hp _ _ _ _ _)⟩, ?_, ?_⟩
    · exact congrArg Graph.index ((recordAt_graph _ _ _ _ _).trans (retry_graph _ _ _ _ _ _))
    · rw [recordAt_recs, retry_recs, update_self, update_self]
      simp [retriedRec]

theorem reclaimLoop_tale {left : ℕ}
    {n : ℕ} (hi : s.Inv) :
    (reclaimLoop now cfg left s out n).All fun r =>
      ∃ es, r.2.1 = out ++ es ∧ Tale s es r.1 := by
  induction left generalizing s out n with
  | zero => exact ⟨[], by simp, .refl s⟩
  | succ left ih =>
    rw [reclaimLoop]
    split
    · exact ⟨[], by simp, .refl s⟩
    rename_i h hpeek
    obtain ⟨hh, hp⟩ := hi.queued.claimed_of_peek hpeek
    split
    · exact ⟨[], by simp, .refl s⟩
    rw [Prog.all_bind]
    refine (failAttempt_tale hi hh hp).mono ?_
    rintro r ⟨es, hout, hev, -⟩
    refine (ih (hi.path hev.path)).mono ?_
    rintro r' ⟨es', hout', hev'⟩
    exact ⟨es ++ es', by rw [hout', hout, List.append_assoc], hev.trans hev'⟩

theorem reclaimExpired_tale (hi : s.Inv) (now : Int) (cfg : ScopeConfig)
    (limit : Int) :
    (s.reclaimExpired now cfg limit []).All fun r => Tale s r.2.1 r.1 := by
  refine (reclaimLoop_tale hi).mono ?_
  rintro r ⟨es, hout, hev⟩
  rw [hout]
  exact hev

theorem sweep_tale (hi : s.Inv) (limit : Int) :
    (s.sweep limit).All fun r => Tale s r.1.effects r.2 := by
  simp only [sweep, Prog.all_bind, Prog.all_getNow, Prog.pure_eq_ret, Prog.all_ret]
  intro now
  refine (reclaimExpired_tale hi now _ _).mono fun r hev => ?_
  exact (promoteScheduled_tale (hi.path hev.path) now).mono fun r' hev' =>
    (hev.trans hev').refresh

/-! ## Completing and extending -/

/-- What `Complete` leaves: if it succeeded, the node was claimed at the presented
epoch and no longer is. -/
def Completed (s : Scope) (lease : Lease) (r : Except Err CompleteResult × Scope) : Prop :=
  ∃ es, Evolves s es r.2 ∧ ∀ res, r.1 = .ok res → res.effects = es ∧
    ∃ h, s.lookup lease.nodeID = some h ∧ s.holdsLease h lease = true ∧
      r.2.index = s.index ∧ (r.2.recs h).phase ≠ .claimed

/-- The effects `Complete` returns; a refusal returns none. -/
def completeEffects : Except Err CompleteResult → List Effect
  | .ok res => res.effects
  | .error _ => []

theorem Completed.refuse (s : Scope) (lease : Lease) (e : Err) :
    Completed s lease (.error e, s) ∧ Tale s [] s :=
  ⟨⟨[], Evolves.refl s, by simp⟩, .refl s⟩

theorem phase_of_holdsLease {lease : Lease}
    (hheld : s.holdsLease h lease = true) :
    (s.recs h).phase = .claimed ∧ (s.recs h).epoch = lease.epoch := by
  simpa [holdsLease] using hheld

section Held

variable {s s' : Scope} {h : ℕ} {lease : Lease} (hi : s.Inv)
  (hlook : s.lookup lease.nodeID = some h) (hheld : s.holdsLease h lease = true)
include hi hlook hheld

omit hi in
theorem Completed.accept {es : List Effect} {res : CompleteResult} (hev : Tale s es s')
    (hres : res.effects = es) (hindex : s'.index = s.index)
    (hphase : (s'.recs h).phase ≠ .claimed) :
    Completed s lease (.ok res, s'.refreshComplete) ∧ Tale s res.effects s'.refreshComplete := by
  refine ⟨⟨es, hev.refresh.toEvolves, fun res' heq => ?_⟩, hres ▸ hev.refresh⟩
  cases heq
  exact ⟨hres, h, hlook, hheld, hindex, hphase⟩

theorem annotate_terminate (result : Bytes) {status : Status} (reason : Reason)
    (msg : String) (hst : status.terminal = true) :
    ((s.modRec h fun r => { r with result := result, worker := "" }).terminate h status
      reason msg []).All fun r =>
        Tale s r.2 r.1 ∧ r.1.index = s.index ∧ (r.1.recs h).phase ≠ .claimed := by
  have hh := hi.indexed.alive_of_lookup hlook
  have hp := (phase_of_holdsLease hheld).1
  have hev : Tale s [] (s.modRec h fun r => { r with result := result, worker := "" }) := by
    refine ⟨Evolves.annotate result "" hh, .of_silent (Silent.of_update (modRec_recs s h _) rfl ?_)⟩
    exact ⟨rfl, rfl, rfl, .inl rfl, fun hd => by rw [hp] at hd; cases hd⟩
  refine (terminate_drains (hi.path hev.path) hst).mono ?_
  rintro r ⟨es, hout, hd, ha⟩
  rw [hout]
  refine ⟨hev.trans (hd.tale ha), hd.cascades.index, ?_⟩
  rw [hd.finished _ (.head _) (by simpa [Alive] using hh)]
  simp

theorem completeHeld_completed {req : CompleteRequest} :
    (s.completeHeld h req).All fun r =>
      Completed s lease r ∧ Tale s (completeEffects r.1) r.2 := by
  have hh := hi.indexed.alive_of_lookup hlook
  have hp := (phase_of_holdsLease hheld).1
  simp only [completeHeld, Prog.all_bind, Prog.all_getNow, Prog.pure_eq_ret]
  intro now
  generalize (if req.reason = .none then Reason.workerError else req.reason) = reason
  split
  · split
    · exact Completed.refuse s lease _
    rw [Prog.all_bind]
    refine (annotate_terminate hi hlook hheld req.result .none "" rfl).mono ?_
    rintro r ⟨hev, hindex, hphase⟩
    exact Completed.accept hlook hheld hev rfl hindex hphase
  · split
    · -- the lease is dropped before the node is annotated; the order is immaterial
      have hcomm : (s.dropLease h).modRec h (fun r => { r with worker := "" }) =
          (s.modRec h fun r =>
            { r with result := (s.recs h).result, worker := "" }).dropLease h := rfl
      have hev := Evolves.annotate (s.recs h).result "" hh
      rw [Prog.all_bind, hcomm, terminate_dropLease (hi.path hev.path)
        (by simpa [Alive] using hh) (by simp [hp])]
      refine (annotate_terminate hi hlook hheld (s.recs h).result .skipped req.message rfl).mono ?_
      rintro r ⟨hev, hindex, hphase⟩
      exact Completed.accept hlook hheld hev rfl hindex hphase
    · rw [Prog.all_bind]
      refine (failAttempt_tale hi hh hp).mono ?_
      rintro r ⟨es, hout, hev, hindex, hphase⟩
      refine Completed.accept hlook hheld hev ?_ hindex hphase
      rw [← List.nil_append es, ← hout]
      split <;> rfl

end Held

theorem complete_completed (hi : s.Inv) (req : CompleteRequest) :
    (s.complete req).All fun r =>
      Completed s req.lease r ∧ Tale s (completeEffects r.1) r.2 := by
  rw [complete]
  split
  · exact Completed.refuse s req.lease _
  rename_i h hlook
  split
  · rename_i hheld
    exact completeHeld_completed hi hlook hheld
  · exact Completed.refuse s req.lease _

/-- `Extend` succeeds only for the node claimed at the presented epoch. -/
theorem extend_tale (hi : s.Inv) (req : ExtendRequest) :
    (s.extend req).All fun r => Tale s [] r.2 ∧
      ∀ t, r.1 = .ok t → ∃ h, s.lookup req.lease.nodeID = some h ∧
        s.holdsLease h req.lease = true := by
  rw [extend]
  split
  · exact ⟨.refl s, by simp⟩
  rename_i h hlook
  split
  · rename_i hheld
    simp only [Prog.all_bind, Prog.all_getNow, Prog.pure_eq_ret, Prog.all_ret]
    intro now
    have hev := Evolves.renew (int64 (now + s.cfg.resolved.clampLease req.timeout))
      (hi.indexed.alive_of_lookup hlook) (phase_of_holdsLease hheld).1
    exact ⟨⟨hev, .of_silent (Silent.of_recs rfl)⟩, fun t _ => ⟨h, hlook, hheld⟩⟩
  · exact ⟨.refl s, by simp⟩

/-! ## Claiming -/

/-- One round of the loop of `Claim`: the grant and its event. -/
def granted (s : Scope) (h : ℕ) (kind worker : String) (now leaseFor t : Int) :
    Effect × Scope :=
  (s.grant h kind worker now leaseFor).recordAt h .transition (s.recs h).status t

/-- A sequence of grants, with the leases and the effects it returned. -/
inductive Grants (s : Scope) : List Lease → List Effect → Scope → Prop
  | nil : Grants s [] [] s
  | snoc {ls : List Lease} {es : List Effect} {s₁ : Scope} (h : ℕ) (kind worker : String)
      (now leaseFor t : Int) : Grants s ls es s₁ → (s₁.readyHeap kind).peek = some h →
      Grants s (ls ++ [(s₁.granted h kind worker now leaseFor t).2.leaseOf h])
        (es ++ [(s₁.granted h kind worker now leaseFor t).1])
        (s₁.granted h kind worker now leaseFor t).2

section Best

variable {s : Scope}

/-- The candidate `popReady` has found is the head of its queue. -/
def Heads (s : Scope) (best : Option (ℕ × String)) : Prop :=
  ∀ h kind, best = some (h, kind) → (s.readyHeap kind).peek = some h

theorem Heads.consider {best : Option (ℕ × String)} (hb : s.Heads best) (kind : String) :
    s.Heads (s.consider best kind) := by
  intro h kd heq
  unfold Scope.consider at heq
  split at heq
  · exact hb h kd heq
  · rename_i top hpeek
    cases heq
    exact hpeek
  rename_i top b _ hpeek
  split at heq
  · cases heq
    exact hpeek
  · exact hb h kd heq

theorem bestReady_peek {kinds : List String} {kind : String}
    (hb : s.bestReady kinds = some (h, kind)) : (s.readyHeap kind).peek = some h := by
  have hheads : ∀ (kinds : List String) (best : Option (ℕ × String)), s.Heads best →
      s.Heads (kinds.foldl s.consider best) := by
    intro kinds
    induction kinds with
    | nil => exact fun _ hbest => hbest
    | cons kind kinds ih => exact fun best hbest => ih _ (hbest.consider kind)
  exact hheads kinds none (by simp [Heads]) h kind hb

end Best

/-- What one grant does to the record of its node. -/
theorem granted_recs (s : Scope) (h : ℕ) (kind worker : String) (now leaseFor t : Int) :
    (s.granted h kind worker now leaseFor t).2.recs =
      update s.recs h { grantedRec (s.recs h) worker now with seq := (s.recs h).seq + 1 } := by
  simp only [granted, recordAt_recs, grant_recs, update_self, update_idem]
  rfl

theorem granted_graph (s : Scope) (h : ℕ) (kind worker : String) (now leaseFor t : Int) :
    (s.granted h kind worker now leaseFor t).2.graph = s.graph :=
  (recordAt_graph _ _ _ _ _).trans (grant_graph _ _ _ _ _ _)

namespace Grants

variable {s s' : Scope} {ls : List Lease} {es : List Effect}

section

variable (hg : Grants s ls es s')
include hg

theorem inv (hi : s.Inv) : s'.Inv ∧ Respects s s' := by
  induction hg with
  | nil => exact ⟨hi, Respects.refl s⟩
  | @snoc ls es s₁ h kind worker now leaseFor t _ hp ih =>
    obtain ⟨hi₁, hr⟩ := ih
    have hgrant := hi₁.grant worker now leaseFor hp
    have hh : (s₁.grant h kind worker now leaseFor).Alive h := by
      rw [Alive, grant_recs, update_self]
      exact (hi₁.queued.phase_of_peek hp).1
    exact ⟨hgrant.record .transition _ t hh, hr.trans
      ((Respects.grant hi₁ worker now leaseFor hp).trans
        (Evolves.event .transition _ t hh).toRespects)⟩

theorem graph : s'.graph = s.graph := by
  induction hg with
  | nil => rfl
  | snoc h kind worker now leaseFor t _ _ ih => exact (granted_graph _ _ _ _ _ _ _).trans ih

theorem scope : ∀ l ∈ ls, l.scope = s.name := by
  induction hg with
  | nil => simp
  | @snoc ls es s₁ h kind worker now leaseFor t hg _ ih =>
    intro l hl
    rcases List.mem_append.mp hl with hl | hl
    · exact ih l hl
    · rw [List.mem_singleton.mp hl]
      exact congrArg Graph.name ((granted_graph s₁ h kind worker now leaseFor t).trans hg.graph)

theorem annals (hi : s.Inv) : Annals s es s' := by
  induction hg with
  | nil => exact .nil
  | @snoc ls es s₁ h kind worker now leaseFor t hg hpeek ih =>
    obtain ⟨hh, hp, -⟩ := (hg.inv hi).1.queued.phase_of_peek hpeek
    exact ih.tell (.of_record hh (.grant worker now hp) (grant_recs s₁ h kind worker now leaseFor)
      rfl t)

theorem claimed (hi : s.Inv) :
    ∀ l ∈ ls, ∃ h, s'.lookup l.nodeID = some h ∧ s'.Alive h ∧ (s'.recs h).phase = .claimed := by
  induction hg with
  | nil => simp
  | @snoc ls es s₁ h kind worker now leaseFor t hg hp ih =>
    have hi₁ := (hg.inv hi).1
    have hh := (hi₁.queued.phase_of_peek hp).1
    have hrecs := granted_recs s₁ h kind worker now leaseFor t
    have hindex := congrArg Graph.index (granted_graph s₁ h kind worker now leaseFor t)
    generalize s₁.granted h kind worker now leaseFor t = g at hrecs hindex
    have hlook : ∀ id, g.2.lookup id = s₁.lookup id := fun id => congrArg (AList.lookup id) hindex
    have hself : g.2.Alive h ∧ (g.2.recs h).phase = .claimed ∧
        (g.2.recs h).id = (s₁.recs h).id := by
      rw [Alive, hrecs, update_self]
      exact ⟨hh, rfl, rfl⟩
    intro l hl
    rcases List.mem_append.mp hl with hl | hl
    · obtain ⟨k, hk, hal, hphase⟩ := ih l hl
      refine ⟨k, (hlook _).trans hk, ?_⟩
      by_cases hkh : k = h
      · rw [hkh]
        exact ⟨hself.1, hself.2.1⟩
      · rw [Alive, hrecs, update_of_ne hkh]
        exact ⟨hal, hphase⟩
    · rw [List.mem_singleton.mp hl, leaseOf, hself.2.2]
      exact ⟨h, (hlook _).trans (hi₁.indexed.lookup_id hh), hself.1, hself.2.1⟩

end

end Grants

theorem claimLoop_grants {req : ClaimRequest} {left : ℕ}
    {s₀ : Scope} {res : ClaimResult} {es₀ es : List Effect} (hg : Grants s₀ res.leases es s)
    (hes : res.effects = es₀ ++ es) :
    (claimLoop cfg req now left s res).All fun r =>
      ∃ es', r.1.effects = es₀ ++ es' ∧ Grants s₀ r.1.leases es' r.2 := by
  induction left generalizing s res es with
  | zero => exact ⟨es, hes, hg⟩
  | succ left ih =>
    rw [claimLoop]
    split
    · exact ⟨es, hes, hg⟩
    rw [Prog.all_bind]
    refine Prog.all_of_forall (fun kinds => ?_) _
    split
    · exact ⟨es, hes, hg⟩
    rename_i h kind hbest
    intro t
    exact ih (hg.snoc h kind req.workerID now _ t (bestReady_peek hbest))
      (by rw [hes, List.append_assoc]; rfl)

/-- `Claim` reclaims and promotes, and then only grants. -/
theorem claim_grants (hi : s.Inv) (req : ClaimRequest) :
    (s.claim req).All fun r =>
      ∃ es₀ s₀ es, r.1.effects = es₀ ++ es ∧ Tale s es₀ s₀ ∧ Grants s₀ r.1.leases es r.2 := by
  simp only [claim, Prog.all_bind, Prog.all_getNow]
  intro now
  refine (reclaimExpired_tale hi now _ _).mono fun r hev => ?_
  refine (promoteScheduled_tale (hi.path hev.path) now).mono fun r' hev' => ?_
  refine (claimLoop_grants Grants.nil (List.append_nil _).symm).mono ?_
  rintro r'' ⟨es, heff, hg⟩
  exact ⟨_, _, es, heff, hev.trans hev', hg⟩

/-! ## Collecting -/

/-- A node without outgoing edges is deleted. -/
theorem Respects.delete {s' : Scope} (hrecs : s'.recs = update s.recs h {})
    (hpred : s'.pred = update s.pred h []) (hsrc : ∀ v, h ∉ s.sources v) : Respects s s' := by
  refine ⟨fun hf v e he hdone => ?_, forall_update hrecs (by simp [RuleOpen]),
    forall_update hrecs (by simp [RuleMet])⟩
  rw [hpred] at he
  by_cases hv : v = h
  · simp [hv] at he
  rw [update_of_ne hv] at he
  have hne : e.source ≠ h := fun heq => hsrc v (heq ▸ List.mem_map_of_mem he)
  rw [hrecs, update_of_ne hne] at hdone
  exact hf v e he hdone

theorem not_mem_sources_of_succ_nil (hi : s.Inv) (hsucc : s.succ h = []) :
    ∀ v, h ∉ s.sources v := by
  intro v hmem
  have := (hi.mirrored.mem_succ h v).mpr hmem
  simp [hsucc] at this

theorem Tale.collect (hi : s.Inv) (hh : s.Alive h)
    (hp : (s.recs h).phase = .done) (hsucc : s.succ h = []) :
    Tale s [] ((detachPreds h (s.pred h) s).deleteNode (s.recs h).id h) := by
  refine ⟨⟨?_, Path.single (Step.collect h hh hp hsucc)⟩, .of_silent (.of_delete (h := h) ?_)⟩
  · rw [hi.mirrored.detachPreds_eq_severed, deleteNode_eq]
    exact Respects.delete rfl rfl (not_mem_sources_of_succ_nil hi hsucc)
  · rw [hi.mirrored.detachPreds_eq_severed, deleteNode_eq]
    rfl

theorem collectLoop_tale {cutoff : Int} {limit : ℕ} {ids : List NodeID}
    {n : ℕ} (hi : s.Inv) : Tale s [] (collectLoop cutoff limit ids s n).2 := by
  induction ids generalizing s n with
  | nil => exact .refl s
  | cons id ids ih =>
    rw [collectLoop]
    split
    · exact ih hi
    rename_i h hlook
    split
    · rename_i hcol
      simp only [collectible, Bool.and_eq_true, decide_eq_true_eq] at hcol
      split
      · exact .refl s
      · have hev := Tale.collect hi (hi.indexed.alive_of_lookup hlook) hcol.1.1 hcol.2
        rw [hi.indexed.id_of_lookup hlook] at hev
        exact hev.trans (ih (hi.path hev.path))
    · exact ih hi

theorem collectTerminal_tale (hi : s.Inv) (cutoff limit : Int) :
    (s.collectTerminal cutoff limit).All fun r => Tale s [] r.2 := by
  simp only [collectTerminal, Prog.all_bind, Prog.all_getRange, Prog.pure_eq_ret, Prog.all_ret]
  exact fun ids _ => collectLoop_tale hi

end DagWorker.Memory.Scope
