import DagWorker.Memory.Removal
import DagWorker.Memory.Restoring
import DagWorker.Support.Ring

/-!
# Runs of the store

One operation of the store is one operation of a single scope, a replacement of
the store by a restored one, or nothing.  `StoreStep` says so, and induction over
a run then asks what one scope operation preserves and what a copy inherits.
-/

namespace DagWorker.Memory

open Function

variable {s s' : Scope} {α : Type} {st st' : Store} {r : StepRecord} {es : List Effect}
  {ls : List Lease} {logCap : ℕ} {defaults : ScopeConfig} {steps : List StepRecord}
variable {f : α → Out}

/-! ## One step -/

/-- The named scope as an operation finds it: existing, or newly created. -/
def Store.Finds (st : Store) (name : String) (s : Scope) : Prop :=
  st.scopes.lookup name = some s ∨
    st.scopes.lookup name = none ∧ s = Scope.newScope name st.defaults st.logCap

/-- The effects an operation returned. -/
def Out.announced : Out → List Effect
  | .effects r => r.effects
  | .claim (.ok res) => res.effects
  | .complete (.ok res) => res.effects
  | .sweep (.ok res) => res.effects
  | _ => []

/-- An answer that granted, accepted and announced nothing. -/
structure Out.Idle (out : Out) : Prop where
  leases : out.leases = []
  announced : out.announced = []
  complete : ∀ res, out ≠ .complete (.ok res)
  extend : ∀ t, out ≠ .extend (.ok t)

namespace Op

/-- The scope an operation works on. -/
def target : Op → Option String
  | .setScopeConfig name _ => some name
  | .sealScope name => some name
  | .openScope name => some name
  | .addNodes name _ => some name
  | .addEdges name _ => some name
  | .removeEdges name _ => some name
  | .removeNode name _ _ => some name
  | .cancel name _ => some name
  | .cancelScope name => some name
  | .claim req => some req.scope
  | .complete req => some req.lease.scope
  | .extend req => some req.lease.scope
  | .sweep name _ => some name
  | .collectTerminal name _ _ => some name
  | .restore _ _ => none
  | .close => none

/-- Turn the result of a scope operation into an answer. -/
def lift {α : Type} (f : α → Out) (p : Prog (α × Scope)) : Prog (Out × Scope) := do
  let (a, s) ← p
  pure (f a, s)

/-- What an operation does to the scope it works on. -/
def body (s : Scope) : Op → Prog (Out × Scope)
  | .setScopeConfig _ cfg => pure (.unit (.ok ()), { s with cfg := cfg })
  | .sealScope _ => pure (.unit (.ok ()), s.sealed)
  | .openScope _ => pure (.unit (.ok ()), s)
  | .addNodes _ specs => lift .effects (s.addNodes specs)
  | .addEdges _ edges => lift .effects (s.addEdges edges)
  | .removeEdges _ edges => lift .effects (s.removeEdges edges)
  | .removeNode _ id policy => lift .effects (s.removeNode id policy)
  | .cancel _ ids => lift .effects (s.cancel ids)
  | .cancelScope _ => lift .effects s.cancelScope
  | .claim req => lift (fun res => .claim (.ok res)) (s.claim req)
  | .complete req => lift .complete (s.complete req)
  | .extend req => lift .extend (s.extend req)
  | .sweep _ limit => lift (fun res => .sweep (.ok res)) (s.sweep limit)
  | .collectTerminal _ cutoff limit =>
    lift (fun res => .collect (.ok res)) (s.collectTerminal cutoff limit)
  | .restore _ _ => pure (.unit (.ok ()), s)
  | .close => pure (.unit (.ok ()), s)

/-- The answer of an operation that fails. -/
def refused (e : Err) : Op → Out
  | .claim _ => .claim (.error e)
  | .complete _ => .complete (.error e)
  | .extend _ => .extend (.error e)
  | .sweep _ _ => .sweep (.error e)
  | .collectTerminal _ _ _ => .collect (.error e)
  | .addNodes _ _ | .addEdges _ _ | .removeEdges _ _ | .removeNode _ _ _ | .cancel _ _
  | .cancelScope _ => .effects (Store.failed e)
  | _ => .unit (.error e)

/-- The answer to a request that needs no scope. -/
def early : Op → Option Out
  | .addNodes _ specs => if specs.isEmpty then some (.effects {}) else none
  | .addEdges _ edges | .removeEdges _ edges =>
    if edges.isEmpty then some (.effects {}) else none
  | .cancel _ ids => if ids.isEmpty then some (.effects {}) else none
  | .complete req =>
    if req.lease.valid = false then some (.complete (.error Store.malformedLease)) else none
  | .extend req =>
    if req.lease.valid = false then some (.extend (.error Store.malformedLease)) else none
  | _ => none

/-- The answer where the scope is absent, unless it is created. -/
def absent : Op → Option Out
  | .setScopeConfig _ _ | .sealScope _ | .openScope _ | .addNodes _ _ => none
  | .cancelScope _ => some (.effects {})
  | .claim _ => some (.claim (.ok {}))
  | .sweep _ _ => some (.sweep (.ok {}))
  | .collectTerminal _ _ _ => some (.collect (.ok (0, false)))
  | op => some (op.refused (.bare .notFound))

end Op

/-- Work on the named scope; where it is absent, it is created if there is no answer. -/
def Store.locate (st : Store) (name : String) (closed : α) (absent : Option α)
    (F : Scope → Prog (α × Scope)) : Prog (α × Store) :=
  if st.closed then pure (closed, st)
  else match st.scopes.lookup name, absent with
    | some s, _ => st.onScope name s F
    | none, some a => pure (a, st)
    | none, none => st.onScope name (Scope.newScope name st.defaults st.logCap) F

namespace Op

section Locate

variable {name : String} {op : Op} {out : Out} {fail : Err → α} {F : Scope → Prog (α × Scope)}

theorem outcome_onScope :
    outcome f (st.onScope name s F) = st.onScope name s fun s => lift f (F s) := by
  rw [outcome, Store.onScope, Store.onScope, lift, Prog.bind_assoc, Prog.bind_assoc]
  rfl

theorem outcome_optional {a : α} : outcome f (st.optional name fail a F) =
    st.locate name (f (fail (.bare .closed))) (some (f a)) fun s => lift f (F s) := by
  unfold Store.optional Store.locate
  split
  · rfl
  · cases st.scopes.lookup name with
    | none => rfl
    | some s => exact outcome_onScope

theorem outcome_creating : outcome f (st.creating name fail F) =
    st.locate name (f (fail (.bare .closed))) none fun s => lift f (F s) := by
  unfold Store.creating Store.locate
  split
  · rfl
  · cases st.scopes.lookup name <;> exact outcome_onScope

theorem lift_lift {β : Type} {g : β → α} {p : Prog (β × Scope)} :
    lift f (do
      let (b, s) ← p
      pure (g b, s)) = lift (fun b => f (g b)) p := by
  rw [lift, lift, Prog.bind_assoc]
  rfl

/-- Every operation on a scope looks for it and runs its body there. -/
theorem exec_eq (htarget : op.target = some name) :
    op.exec st = match op.early with
      | some out => pure (out, st)
      | none => st.locate name (op.refused (.bare .closed)) op.absent fun s => op.body s := by
  cases op with
  | setScopeConfig | sealScope | openScope =>
    cases htarget
    exact outcome_creating
  | removeNode | cancelScope =>
    cases htarget
    exact outcome_optional
  | claim | sweep | collectTerminal =>
    cases htarget
    refine outcome_optional.trans ?_
    simp only [lift_lift]
    rfl
  | addNodes | addEdges | removeEdges | cancel | complete | extend =>
    cases htarget
    simp only [exec, early, Store.addNodes, Store.addEdges, Store.removeEdges, Store.cancel,
      Store.complete, Store.extend]
    split
    · rfl
    · first | exact outcome_creating | exact outcome_optional
  | restore | close => cases htarget

theorem idle_refused (e : Err) : (op.refused e).Idle := by
  cases op <;> exact ⟨rfl, rfl, by simp [refused], by simp [refused]⟩

theorem idle_early (h : op.early = some out) : out.Idle := by
  cases op with
  | addNodes | addEdges | removeEdges | cancel | complete | extend =>
    obtain ⟨-, ⟨⟩⟩ := Option.ite_none_right_eq_some.mp h
    exact ⟨rfl, rfl, by simp, by simp⟩
  | _ => cases h

theorem idle_absent (h : op.absent = some out) : out.Idle := by
  cases op <;> cases h <;> exact ⟨rfl, rfl, by simp [refused], by simp [refused]⟩

/-- An operation on a scope gives an answer without a change, or runs its body. -/
theorem exec_cases {C : Prog (Out × Store) → Prop} (htarget : op.target = some name)
    (hidle : ∀ out : Out, out.Idle → C (pure (out, st)))
    (hscope : ∀ s, st.Finds name s → (op.absent.isSome → st.scopes.lookup name = some s) →
      C (st.onScope name s fun s => op.body s)) : C (op.exec st) := by
  rw [exec_eq htarget]
  split
  · exact hidle _ (idle_early ‹_›)
  unfold Store.locate
  split
  · exact hidle _ (idle_refused _)
  split
  · exact hscope _ (.inl ‹_›) fun _ => ‹_›
  · exact hidle _ (idle_absent ‹_›)
  · next hnone habsent =>
      exact hscope _ (.inr ⟨hnone, rfl⟩) fun h => by simp [habsent] at h

end Locate

end Op

/-- What one operation can do to a store. -/
inductive StoreStep (st : Store) (op : Op) (out : Out) : Store → Prop
  | idle {st' : Store} : st'.scopes = st.scopes → st'.logCap = st.logCap → out.Idle →
      StoreStep st op out st'
  | scope {name : String} {s s' : Scope} : op.target = some name → st.Finds name s →
      Prog.Yields (op.body s) (out, s') → StoreStep st op out (st.setScope name s')
  | restore {defaults : ScopeConfig} {logCap : ℕ} {st' : Store} :
      out.Idle → Store.restore st.snapshot defaults logCap = .ok st' → StoreStep st op out st'

section Lift

variable {α : Type} {st : Store} {name : String} {fail : Err → α} {absent : α}
  {f : Scope → Prog (α × Scope)} {P : α × Store → Prop}

theorem Store.all_onScope
    (hrun : (f s).All fun x => P (x.1, st.setScope name x.2)) : (st.onScope name s f).All P := by
  rw [Store.onScope, Prog.all_bind]
  exact hrun

section

variable (hclosed : P (fail (.bare .closed), st))
include hclosed

theorem Store.all_creating
    (hrun : ∀ s, st.Finds name s → (f s).All fun x => P (x.1, st.setScope name x.2)) :
    (st.creating name fail f).All P := by
  unfold Store.creating
  split
  · exact hclosed
  · split
    · exact all_onScope (hrun _ (.inl ‹_›))
    · exact all_onScope (hrun _ (.inr ⟨‹_›, rfl⟩))

theorem Store.all_existing (hmissing : P (fail (.bare .notFound), st))
    (hrun : ∀ s, st.Finds name s → (f s).All fun x => P (x.1, st.setScope name x.2)) :
    (st.existing name fail f).All P := by
  unfold Store.existing
  split
  · exact hclosed
  · split
    · exact all_onScope (hrun _ (.inl ‹_›))
    · exact hmissing

end

end Lift

theorem all_outcome {p : Prog (α × Store)} {P : Out × Store → Prop} :
    (Op.outcome f p).All P ↔ p.All fun x => P (f x.1, x.2) := by
  rw [Op.outcome, Prog.all_bind]
  rfl

/-- An operation does nothing, works on one scope, or restores. -/
theorem exec_storeStep (st : Store) (op : Op) :
    (op.exec st).All fun x => StoreStep st op x.1 x.2 := by
  cases htarget : op.target with
  | none =>
    cases op with
    | restore defaults logCap =>
      rw [Op.exec]
      split
      · rename_i st' hst
        exact StoreStep.restore ⟨rfl, rfl, by simp, by simp⟩ hst
      · exact StoreStep.idle rfl rfl ⟨rfl, rfl, by simp, by simp⟩
    | close => exact StoreStep.idle rfl rfl ⟨rfl, rfl, by simp, by simp⟩
    | _ => cases htarget
  | some name =>
    apply Op.exec_cases (C := fun p => p.All _) htarget
    · exact fun out hidle => StoreStep.idle rfl rfl hidle
    · intro s hs _
      exact Store.all_onScope (Prog.all_iff_yields.mpr fun _ hy => StoreStep.scope htarget hs hy)

theorem Valid.storeStep (hv : r.Valid exec) :
    StoreStep r.before r.call r.reply r.after :=
  (exec_storeStep r.before r.call).of_yields hv

/-! ## Scope operations -/

namespace Scope

/-- What every scope operation is: elementary transitions, and then, for `Claim`,
grants. -/
def Moves (s : Scope) (leases : List Lease) (s' : Scope) : Prop :=
  ∃ es s₀ es', Path s es s₀ ∧ (s.Flagged → s₀.Flagged) ∧ Grants s₀ leases es' s'

theorem Moves.inv (hm : Moves s ls s') (hi : s.Inv) : s'.Inv := by
  obtain ⟨es, s₀, es', hpath, -, hg⟩ := hm
  exact (hg.inv (hi.path hpath)).1

theorem Moves.flagged (hm : Moves s ls s') (hi : s.Inv)
    (hf : s.Flagged) : s'.Flagged := by
  obtain ⟨es, s₀, es', hpath, hflag, hg⟩ := hm
  exact (hg.inv (hi.path hpath)).2.flagged (hflag hf)

end Scope

theorem Op.all_lift {p : Prog (α × Scope)} {P : Out × Scope → Prop} :
    (Op.lift f p).All P ↔ p.All fun x => P (f x.1, x.2) := by
  rw [Op.lift, Prog.all_bind]
  rfl

open Scope

/-- The calls that leave no blocked node unsettled. -/
def Op.Settling (out : Out) : Op → Prop
  | .removeEdges _ _ => out.err = none
  | .removeNode _ _ policy => Defined policy
  | _ => True

/-- The calls that keep the rules of scheduled and claimed nodes satisfied. -/
def Op.Keeps (s : Scope) : Op → Prop
  | .addNodes _ specs => s.KeepsHeld (specs.flatMap specEdges)
  | .addEdges _ edges => s.KeepsHeld edges
  | .removeEdges _ edges => s.KeepsHeldWithout edges
  | .removeNode _ id policy => s.KeepsHeldRemoved id policy
  | _ => True

/-- The identifiers under which an operation may create nodes. -/
def Op.added : Op → List NodeID
  | .addNodes _ specs => specs.map (·.id)
  | _ => []

/-- What one operation does to its scope. -/
structure Performs (op : Op) (s : Scope) (x : Out × Scope) : Prop where
  moves : ∃ es s₀ es', x.1.announced = es ++ es' ∧ Path s es s₀ ∧ (s.Flagged → s₀.Flagged) ∧
    Grants s₀ x.1.leases es' x.2
  chapter : Chapter op.added s x.1.announced x.2
  settled : op.Settling x.1 → ∀ v, RuleOpen (s.recs v) → RuleOpen (x.2.recs v)
  heldOK : op.Keeps s → s.Flagged → ∀ v, RuleMet (s.recs v) → RuleMet (x.2.recs v)

namespace Performs

variable {op : Op} {x : Out × Scope}

theorem of_path (hleases : x.1.leases = []) (hpath : Path s x.1.announced x.2)
    (hflag : s.Flagged → x.2.Flagged) (hch : Chapter op.added s x.1.announced x.2)
    (hset : op.Settling x.1 → ∀ v, RuleOpen (s.recs v) → RuleOpen (x.2.recs v))
    (hheld : op.Keeps s → s.Flagged → ∀ v, RuleMet (s.recs v) → RuleMet (x.2.recs v)) :
    Performs op s x :=
  ⟨⟨_, x.2, [], (List.append_nil _).symm, hpath, hflag, hleases ▸ Grants.nil⟩, hch, hset, hheld⟩

theorem of_tale (hleases : x.1.leases = []) (h : Tale s x.1.announced x.2) : Performs op s x :=
  of_path hleases h.path h.flagged (.plain h.annals) (fun _ => h.settled) fun _ _ => h.heldOK

theorem of_config (hleases : x.1.leases = []) (hann : x.1.announced = []) (hstep : Step s x.2)
    (hrecs : x.2.recs = s.recs) (hpred : x.2.pred = s.pred) : Performs op s x := by
  refine of_path hleases (hann ▸ Path.single hstep) ?_ ?_ ?_ ?_
  · simp only [Flagged, hrecs, hpred]
    exact fun h => h
  · rw [hann]
    exact .plain (.of_silent (.of_recs hrecs))
  · rw [hrecs]
    exact fun _ _ h => h
  · rw [hrecs]
    exact fun _ _ _ h => h

end Performs

/-- The steps of every operation, followed once. -/
theorem body_performs (hi : s.Inv) (op : Op) : (op.body s).All (Performs op s) := by
  cases op with
  | setScopeConfig name cfg => exact .of_config rfl rfl (Step.configure cfg) rfl rfl
  | sealScope name => exact .of_config rfl rfl Step.sealing rfl rfl
  | openScope | restore | close => exact .of_tale rfl (.refl s)
  | addNodes name specs =>
    rw [Op.body, Op.all_lift]
    exact (addNodes_revises hi specs).mono fun r ⟨hrev, hheld, hch, _⟩ =>
      .of_path rfl hrev.path hrev.flagged hch (fun _ => hrev.settled) fun hk hf => hheld hf hk
  | addEdges name edges =>
    rw [Op.body, Op.all_lift]
    exact (addEdges_revises hi edges).mono fun r ⟨hrev, hheld, ha, _⟩ =>
      .of_path rfl hrev.path hrev.flagged (.plain ha) (fun _ => hrev.settled) fun hk hf =>
        hheld hf hk
  | removeEdges name edges =>
    rw [Op.body, Op.all_lift]
    exact (removeEdges_spec hi edges).mono fun r ⟨hpath, hflag, hrev, hheld, ha⟩ =>
      .of_path rfl hpath hflag (.plain ha) (fun herr => (hrev herr).settled) fun hk hf =>
        hheld hf hk
  | removeNode name id policy =>
    rw [Op.body, Op.all_lift]
    exact (removeNode_removes hi id policy).mono fun r ⟨hrem, ha⟩ =>
      .of_path rfl hrem.path hrem.flagged (.plain ha) hrem.settled
        fun hk hf => hrem.heldOK hf hk
  | cancel name ids =>
    rw [Op.body, Op.all_lift]
    exact (cancel_tale hi ids).mono fun r h => .of_tale rfl h
  | cancelScope name =>
    rw [Op.body, Op.all_lift]
    exact (cancelScope_tale hi).mono fun r h => .of_tale rfl h
  | claim req =>
    rw [Op.body, Op.all_lift]
    refine (claim_grants hi req).mono ?_
    rintro r ⟨es₀, s₀, es, heff, hev, hg⟩
    have hresp := hev.toRespects.trans (hg.inv (hi.path hev.path)).2
    refine ⟨⟨es₀, s₀, es, heff, hev.path, hev.flagged, hg⟩, .plain ?_, fun _ => hresp.settled,
      fun _ _ => hresp.heldOK⟩
    have ha := hev.annals.trans (hg.annals (hi.path hev.path))
    rwa [← heff] at ha
  | complete req =>
    rw [Op.body, Op.all_lift]
    refine (complete_completed hi req).mono ?_
    rintro ⟨e | res, s'⟩ ⟨-, h⟩
    · exact .of_tale rfl h
    · exact .of_tale rfl h
  | extend req =>
    rw [Op.body, Op.all_lift]
    exact (extend_tale hi req).mono fun r h => .of_tale rfl h.1
  | sweep name limit =>
    rw [Op.body, Op.all_lift]
    exact (sweep_tale hi limit).mono fun r h => .of_tale rfl h
  | collectTerminal name cutoff limit =>
    rw [Op.body, Op.all_lift]
    exact (collectTerminal_tale hi cutoff limit).mono fun r h => .of_tale rfl h

theorem body_moves (hi : s.Inv) (op : Op) : (op.body s).All fun x => s.Moves x.1.leases x.2 :=
  (body_performs hi op).mono fun _ h => by
    obtain ⟨es, s₀, es', -, hpath, hflag, hg⟩ := h.moves
    exact ⟨es, s₀, es', hpath, hflag, hg⟩

namespace Scope

variable {s s' : Scope}

/-- The scope's event ring. -/
def ring (s : Scope) : Ring Event :=
  { items := s.log, start := s.logStart, cap := s.logCap }

/-- A change that leaves the log alone. -/
structure SameLog (s s' : Scope) : Prop where
  name : s'.name = s.name
  cursor : s'.cursor = s.cursor
  ring : s'.ring = s.ring

theorem detachPreds_sameLog (v : ℕ) (es : List PredEdge) (s : Scope) :
    SameLog s (detachPreds v es s) := by
  induction es generalizing s with
  | nil => exact ⟨rfl, rfl, rfl⟩
  | cons e es ih =>
    obtain ⟨hname, hcursor, hring⟩ := ih (s.detachSucc e.source v)
    exact ⟨hname, hcursor, hring⟩

theorem Step.sameLog {s s' : Scope} (hstep : Step s s') : SameLog s s' := by
  cases hstep with
  | refresh | configure | sealing | rerank | link | annotate | renew => exact ⟨rfl, rfl, rfl⟩
  | create spec now _ _ =>
    rw [create_eq]
    exact ⟨rfl, rfl, rfl⟩
  | unlink => exact unlinkEdge_cases s ⟨rfl, rfl, rfl⟩ fun _ _ => ⟨rfl, rfl, rfl⟩
  | delete h _ _ _ _ =>
    rw [deleteNode_eq]
    exact ⟨rfl, rfl, rfl⟩
  | discard h _ _ _ => constructor <;> simp [deleteNode_eq, unqueue, removeReady, ring]
  | collect h _ _ _ =>
    obtain ⟨hname, hcursor, hring⟩ := detachPreds_sameLog h (s.pred h) s
    rw [deleteNode_eq]
    exact ⟨hname, hcursor, hring⟩
  | finish it now _ _ _ => constructor <;> simp [Scope.finish, removeReady, ring]
  | mark => exact markSatisfied_cases s _ _ ⟨rfl, rfl, rfl⟩ fun _ _ => ⟨rfl, rfl, rfl⟩
  | makeReady h _ _ _ => constructor <;> simp [Scope.makeReady, pushReady, ring]
  | promote h _ => constructor <;> simp [Scope.promote, Scope.makeReady, pushReady, ring]
  | makeBlocked h _ _ _ => constructor <;> simp [Scope.makeBlocked, removeReady, ring]
  | retry h reason msg now delay _ _ =>
    constructor <;> simp [Scope.retry, dropLease, schedule, removeReady, ring]

theorem Path.name (hpath : Path s es s') : s'.name = s.name := by
  apply hpath.preserves (P := fun t => t.name = s.name)
  · intro a b hname hstep
    exact hstep.sameLog.name.trans hname
  · intro a h kind fromStatus t hname _
    exact (congrArg Graph.name (recordAt_graph a h kind fromStatus t)).trans hname
  · rfl

theorem Moves.name (hm : Moves s ls s') : s'.name = s.name := by
  obtain ⟨es, s₀, es', hpath, -, hg⟩ := hm
  exact (congrArg Graph.name hg.graph).trans hpath.name

/-- What holds of every scope between operations. -/
structure Sound (name : String) (s : Scope) : Prop where
  inv : s.Inv
  name_eq : s.name = name
  flagged : s.Flagged

theorem Sound.moves {name : String} (hs : s.Sound name) (hm : Moves s ls s') :
    s'.Sound name :=
  ⟨hm.inv hs.inv, hm.name.trans hs.name_eq, hm.flagged hs.inv hs.flagged⟩

theorem Sound.newScope (name : String) (cfg : ScopeConfig) (logCap : ℕ) :
    (Scope.newScope name cfg logCap).Sound name :=
  ⟨Inv.newScope name cfg logCap, rfl, by simp [Flagged, Scope.newScope]⟩

theorem Sound.copies {name : String} {hs : List ℕ} (h : s.Sound name) (hc : Copies hs s s') :
    s'.Sound name :=
  ⟨hc.inv h.inv, hc.name.trans h.name_eq, hc.flagged h.flagged⟩

end Scope

theorem Store.Finds.sound {name : String} (hs : st.Finds name s)
    (hsound : ∀ n t, st.scopes.lookup n = some t → t.Sound n) : s.Sound name := by
  rcases hs with hl | ⟨-, rfl⟩
  · exact hsound name s hl
  · exact Scope.Sound.newScope _ _ _

/-! ## Restored stores -/

section Restore

/-- The scope `Restore` builds from one that satisfies the invariant. -/
def Scope.restored (s : Scope) (logCap : ℕ) : Scope :=
  Scope.restoreIndexes s.sortedHandles.length (s.unindexed logCap)

theorem restoreScopes_lookup {st₀ : Store} {names : List String}
    (hinv : ∀ name s, st₀.scopes.lookup name = some s → s.Inv ∧ s.name = name)
    (hok : Store.restoreScopes logCap
      (names.filterMap fun name => (st₀.scopes.lookup name).map Scope.snapshotScope) st =
        .ok st') :
    ∀ name, st'.scopes.lookup name =
      if name ∈ names ∧ (st₀.scopes.lookup name).isSome then
        (st₀.scopes.lookup name).map fun s => s.restored logCap
      else st.scopes.lookup name := by
  induction names generalizing st with
  | nil =>
    simp only [List.filterMap_nil, Store.restoreScopes, Except.ok.injEq] at hok
    simp [hok]
  | cons n names ih =>
    intro name
    cases hl : st₀.scopes.lookup n with
    | none =>
      rw [List.filterMap_cons_none (by simp [hl])] at hok
      rw [ih hok name]
      by_cases hn : name = n
      · subst hn
        simp [hl]
      · simp [hn]
    | some s =>
      obtain ⟨hi, hname⟩ := hinv n s hl
      rw [List.filterMap_cons_some (b := s.snapshotScope) (by simp [hl]),
        Store.restoreScopes] at hok
      split at hok
      · cases hok
      rw [Scope.restoreScope_eq hi] at hok
      have hss : s.snapshotScope.name = n := hname
      rw [ih hok name, hss]
      by_cases hn : name = n
      · subst hn
        simp [hl, Store.setScope, Scope.restored]
      · simp [hn, Store.setScope]

/-- A restored store holds copies of the scopes and nothing else. -/
theorem restore_lookup
    (hinv : ∀ name s, st.scopes.lookup name = some s → s.Inv ∧ s.name = name)
    (hok : Store.restore st.snapshot defaults logCap = .ok st') (name : String) :
    st'.scopes.lookup name = (st.scopes.lookup name).map fun s =>
      s.restored (Store.new defaults logCap).logCap := by
  rw [restoreScopes_lookup hinv hok name]
  cases hl : st.scopes.lookup name with
  | none => simp [Store.new]
  | some s =>
    have hmem : name ∈ st.scopes.keys.insertionSort (· ≤ ·) := by
      rw [(List.perm_insertionSort _ _).mem_iff, ← AList.mem_keys, ← AList.lookup_isSome, hl]
      rfl
    rw [if_pos ⟨hmem, rfl⟩]

end Restore

/-! ## Induction over runs -/

/-- A property of named scopes that new scopes have, that every operation of the
run preserves, and that copies inherit, holds of every scope at the end. -/
theorem Run.scopes_induction
    {P : String → Scope → Prop} {C : StepRecord → Prop}
    (hrun : Run (Store.new defaults logCap) steps st) (hC : ∀ r ∈ steps, C r)
    (hinv : ∀ name s, P name s → s.Inv ∧ s.name = name)
    (hnew : ∀ name cfg logCap, P name (Scope.newScope name cfg logCap))
    (hbody : ∀ (r : StepRecord) (name : String) (s s' : Scope), C r → r.call.target = some name →
      r.before.Finds name s → P name s → Prog.Yields (r.call.body s) (r.reply, s') → P name s')
    (hcopy : ∀ name hs s s', P name s → Scope.Copies hs s s' → P name s') :
    ∀ name s, st.scopes.lookup name = some s → P name s := by
  induction hrun with
  | nil =>
    intro name s hl
    simp [Store.new] at hl
  | @snoc steps r _ hv ih =>
    have ih := ih fun q hq => hC q (List.mem_append_left _ hq)
    have hCr := hC r (List.mem_append_right _ (List.mem_singleton.mpr rfl))
    intro name s hl
    generalize hafter : r.after = st' at hl
    have hstep := Valid.storeStep hv
    rw [hafter] at hstep
    cases hstep with
    | idle hsame _ _ => exact ih name s (by rwa [← hsame])
    | @scope n s₀ s₁ htarget hfinds hy =>
      have hP : P n s₀ := by
        rcases hfinds with hl₀ | ⟨-, rfl⟩
        · exact ih n s₀ hl₀
        · exact hnew _ _ _
      by_cases hn : name = n
      · subst hn
        simp only [Store.setScope, AList.lookup_insert, Option.some.injEq] at hl
        subst hl
        exact hbody r name s₀ s₁ hCr htarget hfinds hP hy
      · rw [Store.setScope, AList.lookup_insert_ne hn] at hl
        exact ih name s hl
    | restore _ hok =>
      rw [restore_lookup (fun n t ht => hinv n t (ih n t ht)) hok] at hl
      obtain ⟨s₀, hl₀, rfl⟩ := Option.map_eq_some_iff.mp hl
      have hP := ih name s₀ hl₀
      exact hcopy name _ s₀ _ hP (Scope.restored_copies (hinv name s₀ hP).1 _)

theorem Run.sound
    (hrun : Run (Store.new defaults logCap) steps st) :
    ∀ name s, st.scopes.lookup name = some s → s.Sound name :=
  hrun.scopes_induction (P := fun name s => s.Sound name) (C := fun _ => True)
    (fun _ _ => trivial) (fun _ _ h => ⟨h.inv, h.name_eq⟩) Scope.Sound.newScope
    (fun r _ _ _ _ _ _ hs hy => hs.moves ((body_moves hs.inv r.call).of_yields hy))
    (fun _ _ _ _ h hc => h.copies hc)

theorem Reachable.sound (hr : Reachable st) :
    ∀ name s, st.scopes.lookup name = some s → s.Sound name := by
  obtain ⟨defaults, logCap, steps, hrun⟩ := hr
  exact hrun.sound

theorem Reachable.exec {op : Op} {out : Out} (h : Reachable st)
    (hy : Prog.Yields (op.exec st) (out, st')) : Reachable st' := by
  obtain ⟨defaults, logCap, steps, hrun⟩ := h
  have hstep : Run (Store.new defaults logCap) (steps ++ [⟨st, op, out, st'⟩]) st' :=
    Trace.Run.snoc (r := ⟨st, op, out, st'⟩) hrun hy
  exact ⟨defaults, logCap, _, hstep⟩

end DagWorker.Memory
