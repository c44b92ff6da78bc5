import DagWorker.Memory.Runs

/-!
# Waiting for work

A waiter looks for a ready node and takes the bell of its scope in one critical section,
then sleeps until that bell rings.  A step that makes a node ready rings, so a bell that
has not rung vouches for what the waiter saw.
-/

namespace DagWorker.Memory

open Function

variable {s s' : Scope} {es : List Effect} {ls : List Lease} {kinds : List String}

namespace Scope

/-- Some ready set of the given kinds has a node; no kinds mean every kind. -/
def anyReady (s : Scope) (kinds : List String) : Bool :=
  if kinds.isEmpty then s.ready.entries.any fun e => 0 < e.2.len
  else kinds.any fun k => (s.ready.lookup k).any fun q => 0 < q.len

/-- No node of the kinds is ready. -/
def Barren (s : Scope) (kinds : List String) : Prop :=
  ∀ kind h, s.readyOf kind h = true → ¬(kinds = [] ∨ kind ∈ kinds)

theorem barren_of_anyReady (hq : s.Queued) (hnone : ¬s.anyReady kinds) : s.Barren kinds := by
  intro kind h hready hkind
  have hheap := hq.readyHeap kind
  rw [← hheap.contains_eq, PQ.Heap.contains, decide_eq_true_eq] at hready
  have hlen : 0 < (s.readyHeap kind).len := by
    have hle := (hheap.consistent.items_pos h hready).1
    omega
  rw [readyHeap] at hlen
  cases hl : s.ready.lookup kind with
  | none => simp [hl, PQ.Heap.empty] at hlen
  | some q =>
    rw [hl] at hlen
    apply hnone
    unfold anyReady
    rcases hkind with rfl | hkind
    · exact List.any_eq_true.mpr ⟨_, AList.mem_lookup_iff.mp hl, decide_eq_true hlen⟩
    · rw [if_neg (by simp [List.ne_nil_of_mem hkind])]
      exact List.any_eq_true.mpr ⟨kind, hkind, by simpa [hl] using hlen⟩

/-- The bell rings, or no node becomes ready. -/
structure Rings (s s' : Scope) : Prop where
  le : s.doorbell ≤ s'.doorbell
  quiet : s'.doorbell = s.doorbell →
    ∀ kind h, s'.readyOf kind h = true → s.readyOf kind h = true

namespace Rings

theorem of_recs (hbell : s'.doorbell = s.doorbell) (hrecs : s'.recs = s.recs) : Rings s s' :=
  ⟨hbell.ge, fun _ kind h hh => by rwa [readyOf, inPhase, ← hrecs]⟩

/-- One record changes, and its node is ready only if it was. -/
theorem of_update {h : ℕ} {r : NodeRec} (hbell : s'.doorbell = s.doorbell)
    (hrecs : s'.recs = update s.recs h r)
    (hr : r.alive = true → r.phase = .ready → r.alive = (s.recs h).alive ∧
      r.phase = (s.recs h).phase ∧ r.kind = (s.recs h).kind) : Rings s s' := by
  refine ⟨hbell.ge, fun _ kind k hk => ?_⟩
  rw [readyOf_update hrecs] at hk
  split at hk
  · next heq =>
    simp only [Bool.and_eq_true, decide_eq_true_eq] at hk
    obtain ⟨halive, hphase, hkind⟩ := hr hk.1.1 hk.1.2
    simpa [readyOf, inPhase, heq, ← halive, ← hphase, ← hkind, and_assoc] using hk
  · exact hk

theorem trans {s₁ : Scope} (h₁ : Rings s s₁) (h₂ : Rings s₁ s') : Rings s s' := by
  have hle₁ := h₁.le
  have hle₂ := h₂.le
  refine ⟨hle₁.trans hle₂, fun heq kind h hh => ?_⟩
  exact h₁.quiet (by omega) kind h (h₂.quiet (by omega) kind h hh)

end Rings

/-- The two transitions into the ready set ring. -/
theorem Step.rings (hi : s.Inv) (hstep : Step s s') : Rings s s' := by
  cases hstep with
  | refresh | configure | sealing | rerank | renew => exact .of_recs rfl rfl
  | create spec now _ _ =>
    rw [create_eq]
    exact .of_update rfl rfl (by simp [newRec])
  | link u v _ _ _ _ _ =>
    rw [linkEdge_eq]
    exact .of_update rfl rfl fun _ _ => ⟨rfl, rfl, rfl⟩
  | unlink u v =>
    exact unlinkEdge_cases s (.of_recs rfl rfl) fun _ _ =>
      .of_update rfl rfl fun _ _ => ⟨rfl, rfl, rfl⟩
  | delete h _ _ _ _ =>
    rw [deleteNode_eq]
    exact .of_update rfl rfl (by simp)
  | discard h _ _ _ =>
    rw [deleteNode_eq]
    exact .of_update (by simp [unqueue, removeReady]) rfl (by simp)
  | collect h _ _ _ =>
    rw [hi.mirrored.detachPreds_eq_severed, deleteNode_eq]
    exact .of_update rfl rfl (by simp)
  | finish it now _ _ _ =>
    exact .of_update (by simp [Scope.finish, removeReady]) (s.finish_recs it now)
      (by simp [finishedRec])
  | mark w u _ =>
    exact markSatisfied_cases s _ _ (.of_recs rfl rfl) fun _ _ =>
      .of_update rfl rfl fun _ _ => ⟨rfl, rfl, rfl⟩
  | makeReady | promote =>
    constructor <;> simp [Scope.promote, Scope.makeReady, pushReady]
  | makeBlocked h _ _ _ =>
    exact .of_update (by simp [Scope.makeBlocked, removeReady]) (s.makeBlocked_recs h) (by simp)
  | retry h reason msg now delay _ _ =>
    exact .of_update (by simp [Scope.retry, dropLease, schedule, removeReady])
      (s.retry_recs h reason msg now delay) (by simp [retriedRec])
  | annotate h result worker _ => exact .of_update rfl rfl fun _ _ => ⟨rfl, rfl, rfl⟩

theorem recordAt_rings (h : ℕ) (kind : EventKind) (fromStatus : Status) (t : Int) :
    Rings s (s.recordAt h kind fromStatus t).2 := by
  obtain ⟨log, start, heq⟩ := s.recordAt_eq h kind fromStatus t
  rw [heq]
  exact .of_update rfl rfl fun _ _ => ⟨rfl, rfl, rfl⟩

theorem Grants.rings (hg : Grants s ls es s') : Rings s s' := by
  induction hg with
  | nil => exact .of_recs rfl rfl
  | snoc h kind worker now leaseFor t _ _ ih =>
    refine (ih.trans ?_).trans (recordAt_rings h _ _ t)
    exact .of_update (by simp [grant, popKind]) (grant_recs _ h kind worker now leaseFor)
      (by simp [grantedRec])

theorem Moves.rings (hi : s.Inv) (hm : Moves s ls s') : Rings s s' := by
  obtain ⟨es, s₀, es', hpath, -, hg⟩ := hm
  refine Rings.trans ?_ hg.rings
  clear hg
  induction hpath with
  | nil => exact .of_recs rfl rfl
  | step hpath hstep ih => exact ih.trans (hstep.rings (hi.path hpath))
  | emit h kind fromStatus t _ _ ih => exact ih.trans (recordAt_rings h kind fromStatus t)

end Scope

/-- A call of `WaitForWork` that sleeps on a bell. -/
structure Waiter where
  scope : String
  kinds : List String
  bell : ℕ

/-- A store and the calls that wait on it. -/
structure Lounge where
  store : Store
  parked : List Waiter := []

namespace Lounge

/-- The critical sections of operations and of waiters. -/
inductive Action
  | call (op : Op) (name : String) (htarget : op.target = some name)
  | close
  /-- `WaitForWork` looks for work in a scope that it has opened. -/
  | check (scope : String) (kinds : List String)
  /-- The bell, the context or the store ends a call. -/
  | leave (i : ℕ)

def act (w : Lounge) : Action → Prog Lounge
  | .call op _ _ => do
    let (_, st) ← op.exec w.store
    pure { w with store := st }
  | .close => pure { w with store := { w.store with closed := true } }
  | .check scope kinds =>
    match w.store.scopes.lookup scope with
    | none => pure w
    | some s =>
      if s.anyReady kinds then pure w
      else pure { w with parked := w.parked ++ [⟨scope, kinds, s.doorbell⟩] }
  | .leave i => pure { w with parked := w.parked.eraseIdx i }

def run : List Action → Lounge → Prog Lounge
  | [], w => pure w
  | a :: as, w => do
    let w ← w.act a
    run as w

/-- The bell has rung, or there is nothing for the waiter. -/
def Served (x : Waiter) (s : Scope) : Prop :=
  x.bell ≤ s.doorbell ∧ (x.bell = s.doorbell → s.Barren x.kinds)

theorem Served.rings {x : Waiter} (hx : Served x s) (hr : s.Rings s') : Served x s' := by
  have hle := hr.le
  have hle' := hx.1
  refine ⟨hle'.trans hle, fun heq kind h hh => ?_⟩
  exact hx.2 (by omega) kind h (hr.quiet (by omega) kind h hh)

/-- What holds between critical sections. -/
structure Inv (w : Lounge) : Prop where
  sound : ∀ name s, w.store.scopes.lookup name = some s → s.Sound name
  served : ∀ x ∈ w.parked, ∃ s, w.store.scopes.lookup x.scope = some s ∧ Served x s

theorem Inv.act {w : Lounge} (hw : w.Inv) (a : Action) : (w.act a).All Inv := by
  cases a with
  | call op name htarget =>
    rw [Lounge.act, Prog.all_bind]
    apply Op.exec_cases (C := fun p => p.All _) htarget
    · exact fun _ _ => hw
    intro s hs _
    have hsound := hs.sound hw.sound
    refine Store.all_onScope ((body_moves hsound.inv op).mono fun y hm => ⟨?_, ?_⟩)
    · intro n t hl
      by_cases hn : n = name
      · subst hn
        obtain rfl := Option.mem_unique (AList.lookup_insert _) hl
        exact hsound.moves hm
      · rw [Store.setScope, AList.lookup_insert_ne hn] at hl
        exact hw.sound n t hl
    · intro x hx
      obtain ⟨t, hl, hserved⟩ := hw.served x hx
      by_cases hn : x.scope = name
      · subst hn
        refine ⟨y.2, AList.lookup_insert _, Served.rings ?_ (hm.rings hsound.inv)⟩
        simp only [Store.Finds, hl, Option.some.injEq, reduceCtorEq, false_and, or_false] at hs
        exact hs ▸ hserved
      · exact ⟨t, (AList.lookup_insert_ne hn).trans hl, hserved⟩
  | close => exact ⟨hw.sound, hw.served⟩
  | check scope kinds =>
    rw [Lounge.act]
    split
    · exact hw
    · next s hl =>
      split
      · exact hw
      refine ⟨hw.sound, List.forall_mem_append.mpr ⟨hw.served, List.forall_mem_singleton.mpr ?_⟩⟩
      have hq := (hw.sound scope s hl).inv.queued
      exact ⟨s, hl, le_rfl, fun _ => Scope.barren_of_anyReady hq ‹_›⟩
  | leave i => exact ⟨hw.sound, fun x hx => hw.served x (List.mem_of_mem_eraseIdx hx)⟩

/-- In every interleaving of operations and waiters, a waiter whose bell has not rung has
no ready node of its kinds. -/
theorem no_lost_wakeup (as : List Action) (defaults : ScopeConfig) (logCap : ℕ) :
    (run as { store := Store.new defaults logCap }).All fun w => ∀ x ∈ w.parked,
      ∃ s, w.store.scopes.lookup x.scope = some s ∧
        x.bell ≤ s.doorbell ∧ (x.bell = s.doorbell → s.Barren x.kinds) := by
  have hrun : ∀ w : Lounge, w.Inv → (run as w).All Inv := by
    induction as with
    | nil => exact fun _ hw => hw
    | cons a as ih => exact fun w hw => (hw.act a).bind ih
  exact (hrun _ ⟨by simp [Store.new], by simp⟩).mono fun _ hw => hw.served

end Lounge
end DagWorker.Memory
