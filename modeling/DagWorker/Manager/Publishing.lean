import DagWorker.Manager.Subscription
import DagWorker.Memory.Histories
import DagWorker.Support.Actions

/-!
# Publishing to in-process subscribers

A Manager lets the store change a scope and then publishes the effects the store returned.
Between the two, and between the offers of one publish, other calls may do the same.  This
module says under which schedules the events of a subscription arrive in order.
-/

namespace DagWorker.Manager

open Memory (heardOf naming)

variable {ef e : Effect} {i : ℕ}

/-! ## Calls and their publishes -/

/-- A publish under way. -/
structure Publish where
  scope : String
  /-- The effects still to be offered. -/
  effects : List Effect
  /-- Whether the subscription was registered when the publish looked, once it has. -/
  offered : Option Bool := none

/-- The store, the publishes under way and one subscription. -/
structure Hub where
  store : Memory.Store
  /-- The calls so far; no code reads them. -/
  steps : List Memory.StepRecord := []
  publishes : List Publish := []
  sub : Subscription
  registered : Bool := true
  received : List Delivery := []

/-- What happens between the store operations of calls. -/
inductive Move
  /-- `subsFor`. -/
  | look (i : ℕ)
  /-- `offer` of the next effect. -/
  | offer (i : ℕ)
  /-- `publish` returns. -/
  | finish (i : ℕ)
  | subscribe
  | drop
  | close (err : Option SubErr)
  /-- The consumer receives an event. -/
  | receive

namespace Hub

/-- The subscription after the next effect of a publish. -/
def offerTo (h : Hub) (p : Publish) (ef : Effect) : Subscription :=
  if p.offered = some true ∧ h.sub.opts.wants ⟨p.scope, ef⟩ = true then
    (h.sub.offer (.first ⟨p.scope, ef⟩)).1
  else h.sub

/-- After the store operation of a call, which returned `out`. -/
def called (h : Hub) (op : Memory.Op) (out : Memory.Out) (st' : Memory.Store) : Hub :=
  { h with
    store := st'
    steps := h.steps ++ [⟨h.store, op, out, st'⟩]
    publishes := h.publishes ++
      op.target.toList.map fun scope => { scope := scope, effects := out.announced } }

def act (h : Hub) : Move → Option Hub
  | .look i => do
    let p ← h.publishes[i]?
    if p.offered = none then
      pure { h with publishes := h.publishes.set i { p with offered := some h.registered } }
    else none
  | .offer i => do
    let p ← h.publishes[i]?
    match p.offered, p.effects with
    | some _, ef :: rest =>
      -- a subscription that overflows is left out
      if h.sub.done = true ∨ h.sub.ch.length < h.sub.size then
        pure { h with
          publishes := h.publishes.set i { p with effects := rest }
          sub := h.offerTo p ef }
      else none
    | _, _ => none
  | .finish i => do
    let p ← h.publishes[i]?
    if p.effects = [] then pure { h with publishes := h.publishes.eraseIdx i } else none
  | .subscribe => some { h with registered := true }
  | .drop => some { h with registered := false }
  | .close err => some { h with sub := h.sub.closeLocked err }
  | .receive =>
    match h.sub.ch with
    | x :: ch => some { h with sub := { h.sub with ch := ch }, received := h.received ++ [x] }
    | [] => none

/-- The effect to be offered comes before everything that is still to be published in its
scope. -/
def inTurn (h : Hub) : Move → Bool
  | .offer i =>
    match h.publishes[i]? with
    | some p =>
      p.effects.head?.all fun ef =>
        (h.publishes.eraseIdx i).all fun q =>
          q.scope ≠ p.scope || q.effects.all fun e => ef.cursor < e.cursor
    | none => true
  | _ => true

def new (defaults : ScopeConfig) (logCap : ℕ) (sub : Subscription) (registered : Bool) : Hub where
  store := Memory.Store.new defaults logCap
  sub := sub
  registered := registered

/-- A step of the hub, under a condition on its moves.  A call reads any clock and ranges
over its maps in any order. -/
inductive Step (ok : Hub → Move → Bool) (h : Hub) : Hub → Prop
  | call {op : Memory.Op} {out : Memory.Out} {st' : Memory.Store} :
      Prog.Yields (op.exec h.store) (out, st') → Step ok h (h.called op out st')
  | act {h' : Hub} : Actions.Takes act ok h h' → Step ok h h'

def Runs (ok : Hub → Move → Bool) : Hub → Hub → Prop := Relation.ReflTransGen (Step ok)

/-- The effects of a scope still to be published. -/
def pendingOf (scope : String) (ps : List Publish) : List Effect :=
  (ps.filter fun p => p.scope = scope).flatMap Publish.effects

/-- The effects of a scope among some deliveries. -/
def effectsOf (scope : String) (xs : List Delivery) : List Effect :=
  ((xs.map Delivery.event).filter fun e => e.scope = scope).map Event.effect

/-! ## Publishing in turn -/

structure Inv (defaults : ScopeConfig) (logCap : ℕ) (h : Hub) : Prop where
  run : Memory.Run (Memory.Store.new defaults logCap) h.steps h.store
  sorted : ∀ p ∈ h.publishes, p.effects.Pairwise fun a b => a.cursor < b.cursor
  /-- A first part of the scope's effects is published, and what was delivered is from
  there. -/
  split : ∀ scope, ∃ published unpublished, heardOf scope h.steps = published ++ unpublished ∧
    unpublished.Perm (pendingOf scope h.publishes) ∧
    (effectsOf scope (h.received ++ h.sub.ch)).Sublist published

/-- The least entry of a sorted list is its first. -/
theorem exists_eq_cons_of_least {es : List Effect}
    (hsorted : es.Pairwise fun a b => a.cursor < b.cursor) (hmem : ef ∈ es)
    (hleast : ∀ e ∈ es, e = ef ∨ ef.cursor < e.cursor) : ∃ rest, es = ef :: rest := by
  cases es with
  | nil => cases hmem
  | cons e rest =>
    refine ⟨rest, ?_⟩
    rcases hleast e (.head _) with rfl | hlt
    · rfl
    rcases List.mem_cons.mp hmem with rfl | hrest
    · rfl
    · have hgt := List.rel_of_pairwise_cons hsorted hrest
      omega

variable {defaults : ScopeConfig} {logCap : ℕ} {h h' : Hub} {scope : String}

theorem pendingOf_append (scope : String) (ps qs : List Publish) :
    pendingOf scope (ps ++ qs) = pendingOf scope ps ++ pendingOf scope qs := by
  simp [pendingOf]

theorem pendingOf_cons (scope : String) (p : Publish) (ps : List Publish) :
    pendingOf scope (p :: ps) =
      (if p.scope = scope then p.effects else []) ++ pendingOf scope ps := by
  by_cases hp : p.scope = scope
  · simp [pendingOf, hp]
  · simp [pendingOf, hp]

theorem mem_pendingOf {scope : String} {ps : List Publish} :
    e ∈ pendingOf scope ps ↔ ∃ p ∈ ps, p.scope = scope ∧ e ∈ p.effects := by
  simp [pendingOf, and_assoc]

theorem effectsOf_append (scope : String) (xs ys : List Delivery) :
    effectsOf scope (xs ++ ys) = effectsOf scope xs ++ effectsOf scope ys := by
  simp [effectsOf]

theorem heardOf_sorted {steps : List Memory.StepRecord} {st : Memory.Store}
    (hrun : Memory.Run (Memory.Store.new defaults logCap) steps st) (scope : String) :
    (heardOf scope steps).Pairwise fun a b => a.cursor < b.cursor := by
  rw [← List.pairwise_map (f := Effect.cursor), hrun.stamps]
  exact List.pairwise_lt_range'

section

variable (hinv : h.Inv defaults logCap)
include hinv

/-- A change of the publishes that leaves the effects still to come as they are. -/
theorem Inv.rearrange {ps : List Publish}
    (hsorted : ∀ p ∈ ps, p.effects.Pairwise fun a b => a.cursor < b.cursor)
    (hpending : ∀ scope, pendingOf scope ps = pendingOf scope h.publishes) :
    Inv defaults logCap { h with publishes := ps } := by
  refine ⟨hinv.run, hsorted, fun scope => ?_⟩
  rw [hpending]
  exact hinv.split scope

/-- A change of the subscription that leaves its events as they are. -/
theorem Inv.resubscribe {sub : Subscription} {received : List Delivery} {registered : Bool}
    (hsame : received ++ sub.ch = h.received ++ h.sub.ch) :
    Inv defaults logCap { h with sub := sub, received := received, registered := registered } := by
  refine ⟨hinv.run, hinv.sorted, fun scope => ?_⟩
  rw [hsame]
  exact hinv.split scope

theorem Inv.call {op : Memory.Op} {out : Memory.Out} {st' : Memory.Store}
    (hy : Prog.Yields (op.exec h.store) (out, st')) :
    (h.called op out st').Inv defaults logCap := by
  have hsteps := Trace.Run.snoc (r := ⟨h.store, op, out, st'⟩) hinv.run hy
  have hheard : ∀ scope, heardOf scope (h.steps ++ [⟨h.store, op, out, st'⟩]) =
      heardOf scope h.steps ++ pendingOf scope
        (op.target.toList.map fun scope => { scope := scope, effects := out.announced }) := by
    intro scope
    rw [Memory.heardOf_snoc, Memory.StepRecord.heard]
    cases ht : op.target with
    | none => rfl
    | some name =>
      by_cases hname : name = scope
      · simp [pendingOf, hname]
      · simp [pendingOf, hname]
  refine ⟨hsteps, ?_, fun scope => ?_⟩
  · intro p hp
    rcases List.mem_append.mp hp with hp | hp
    · exact hinv.sorted p hp
    obtain ⟨name, hname, rfl⟩ := List.mem_map.mp hp
    have hsorted := heardOf_sorted hsteps name
    rw [Memory.heardOf_snoc, Memory.StepRecord.heard,
      if_pos (Option.mem_toList.mp hname)] at hsorted
    exact (List.pairwise_append.mp hsorted).2.1
  · dsimp only [called]
    rw [hheard, pendingOf_append]
    obtain ⟨published, unpublished, heq, hperm, hsub⟩ := hinv.split scope
    refine ⟨published, unpublished ++ _, ?_, hperm.append_right _, hsub⟩
    rw [heq, List.append_assoc]

theorem Inv.look (hact : h.act (.look i) = some h') : h'.Inv defaults logCap := by
  simp only [act, Option.bind_eq_bind, Option.bind_eq_some_iff, Option.pure_def,
    Option.ite_none_right_eq_some, Option.some.injEq] at hact
  obtain ⟨p, hp, -, rfl⟩ := hact
  obtain ⟨pre, post, heq, hset, -⟩ := Actions.exists_of_getElem? hp
  have hsorted := hinv.sorted
  rw [heq] at hsorted
  apply hinv.rearrange
  · intro q hq
    rw [hset] at hq
    rcases List.mem_append.mp hq with hq | hq
    · exact hsorted q (List.mem_append_left _ hq)
    · rcases List.mem_cons.mp hq with rfl | hq
      · exact hsorted p (by simp)
      · exact hsorted q (by simp [hq])
  · intro scope
    rw [hset, heq, pendingOf_append, pendingOf_append, pendingOf_cons, pendingOf_cons]

theorem Inv.finish (hact : h.act (.finish i) = some h') : h'.Inv defaults logCap := by
  simp only [act, Option.bind_eq_bind, Option.bind_eq_some_iff, Option.pure_def,
    Option.ite_none_right_eq_some, Option.some.injEq] at hact
  obtain ⟨p, hp, hnil, rfl⟩ := hact
  obtain ⟨pre, post, heq, -, herase⟩ := Actions.exists_of_getElem? hp
  apply hinv.rearrange
  · intro q hq
    exact hinv.sorted q (List.mem_of_mem_eraseIdx hq)
  · intro scope
    rw [herase, heq, pendingOf_append, pendingOf_append, pendingOf_cons, hnil, ite_self,
      List.nil_append]

theorem Inv.receive (hact : h.act .receive = some h') : h'.Inv defaults logCap := by
  simp only [act] at hact
  split at hact
  case h_1 x ch hch =>
      cases hact
      apply hinv.resubscribe
      rw [hch]
      simp
  case h_2 => cases hact

end

/-- An offer to a subscription with room adds the event at the end, or nothing. -/
theorem offerTo_ch (hroom : h.sub.done = true ∨ h.sub.ch.length < h.sub.size) (p : Publish)
    (ef : Effect) :
    (h.offerTo p ef).ch = h.sub.ch ∨
      ∃ gap, (h.offerTo p ef).ch = h.sub.ch ++ [⟨⟨p.scope, ef⟩, gap⟩] := by
  unfold offerTo
  split
  · cases hdone : h.sub.done with
    | true =>
      left
      rw [Subscription.offer_first_of_done hdone]
    | false =>
      right
      have hlt := hroom.resolve_left (by simp [hdone])
      exact ⟨h.sub.gap, by rw [Subscription.offer_first_of_room hdone hlt]⟩
  · exact .inl rfl

theorem offer_cases (hact : h.act (.offer i) = some h') :
    ∃ p ef rest, h.publishes[i]? = some p ∧ p.effects = ef :: rest ∧
      (h.sub.done = true ∨ h.sub.ch.length < h.sub.size) ∧
      h' = { h with
        publishes := h.publishes.set i { p with effects := rest }, sub := h.offerTo p ef } := by
  obtain ⟨p, hp, hact⟩ := Option.bind_eq_some_iff.mp hact
  split at hact
  case h_1 looked ef rest _ hef =>
      rw [Option.ite_none_right_eq_some] at hact
      obtain ⟨hroom, heq⟩ := hact
      exact ⟨p, ef, rest, hp, hef, hroom, (Option.some.inj heq).symm⟩
  case h_2 => cases hact

/-- In turn, the effect is before the others of its scope. -/
theorem inTurn_offer {p : Publish} {rest : List Effect} (hp : h.publishes[i]? = some p)
    (hef : p.effects = ef :: rest) (hturn : h.inTurn (.offer i) = true) {q : Publish}
    (hq : q ∈ h.publishes.eraseIdx i) (hscope : q.scope = p.scope) (he : e ∈ q.effects) :
    ef.cursor < e.cursor := by
  simp only [inTurn, hp, hef, List.head?_cons, Option.all_some, List.all_eq_true, Bool.or_eq_true,
    decide_eq_true_eq] at hturn
  rcases hturn q hq with hne | hall
  · exact absurd hscope hne
  · exact hall e he

theorem Inv.offer (hinv : h.Inv defaults logCap) (hact : h.act (.offer i) = some h')
    (hturn : h.inTurn (.offer i) = true) : h'.Inv defaults logCap := by
  obtain ⟨p, ef, rest, hp, hef, hroom, rfl⟩ := offer_cases hact
  have hbefore := fun q e => inTurn_offer (q := q) (e := e) hp hef hturn
  obtain ⟨pre, post, heq, hset, herase⟩ := Actions.exists_of_getElem? hp
  rw [herase] at hbefore
  have hsorted := hinv.sorted
  rw [heq] at hsorted
  have hown := hsorted p (by simp)
  rw [hef] at hown
  refine ⟨hinv.run, ?_, fun scope => ?_⟩
  · intro q hq
    rw [hset] at hq
    rcases List.mem_append.mp hq with hq | hq
    · exact hsorted q (List.mem_append_left _ hq)
    · rcases List.mem_cons.mp hq with rfl | hq
      · exact hown.of_cons
      · exact hsorted q (by simp [hq])
  · obtain ⟨published, unpublished, hsplit, hperm, hsub⟩ := hinv.split scope
    rw [heq, pendingOf_append, pendingOf_cons, hef] at hperm
    rw [hset, pendingOf_append, pendingOf_cons]
    by_cases hscope : p.scope = scope
    · rw [if_pos hscope] at hperm ⊢
      -- the effect is the least of those unpublished, so it is the next of its scope
      have hleast : ∀ e ∈ unpublished, e = ef ∨ ef.cursor < e.cursor := by
        intro e he
        have hmem := hperm.mem_iff.mp he
        simp only [List.mem_append, List.mem_cons, mem_pendingOf] at hmem
        rcases hmem with ⟨q, hq, hqs, hqe⟩ | (rfl | hrest) | ⟨q, hq, hqs, hqe⟩
        · exact .inr (hbefore q e (by simp [hq]) (hqs.trans hscope.symm) hqe)
        · exact .inl rfl
        · exact .inr (List.rel_of_pairwise_cons hown hrest)
        · exact .inr (hbefore q e (by simp [hq]) (hqs.trans hscope.symm) hqe)
      have hall := heardOf_sorted hinv.run scope
      rw [hsplit] at hall
      have hmem : ef ∈ unpublished := hperm.mem_iff.mpr (by simp)
      obtain ⟨later, rfl⟩ := exists_eq_cons_of_least (List.pairwise_append.mp hall).2.1 hmem hleast
      refine ⟨published ++ [ef], later, ?_, ?_, ?_⟩
      · rw [hsplit, List.append_assoc, List.singleton_append]
      · exact (hperm.trans List.perm_middle).cons_inv
      rcases offerTo_ch hroom p ef with hch | ⟨gap, hch⟩
      · rw [hch]
        exact hsub.trans (List.sublist_append_left _ _)
      · rw [hch, ← List.append_assoc, effectsOf_append]
        apply hsub.append
        simp [effectsOf, hscope]
    · rw [if_neg hscope] at hperm ⊢
      refine ⟨published, unpublished, hsplit, hperm, ?_⟩
      rcases offerTo_ch hroom p ef with hch | ⟨gap, hch⟩
      · rw [hch]
        exact hsub
      · rw [hch, ← List.append_assoc, effectsOf_append]
        simpa [effectsOf, hscope] using hsub

theorem Inv.act (hinv : h.Inv defaults logCap) {m : Move} (hact : h.act m = some h')
    (hturn : h.inTurn m = true) : h'.Inv defaults logCap := by
  cases m with
  | look i => exact hinv.look hact
  | offer i => exact hinv.offer hact hturn
  | finish i => exact hinv.finish hact
  | subscribe | drop =>
    cases hact
    exact hinv.resubscribe rfl
  | close err =>
    cases hact
    apply hinv.resubscribe
    rw [Subscription.closeLocked_ch]
  | receive => exact hinv.receive hact

theorem inv_new (cfg : Config) (opts : SubscribeOptions) (registered : Bool) :
    (new defaults logCap (.new cfg opts) registered).Inv defaults logCap := by
  refine ⟨.nil, ?_, fun scope => ⟨[], [], rfl, .refl _, .refl _⟩⟩
  intro p hp
  cases hp

theorem Inv.runs (hinv : h.Inv defaults logCap) (hrun : Runs inTurn h h') :
    h'.Inv defaults logCap := by
  induction hrun with
  | refl => exact hinv
  | tail _ hstep ih =>
    cases hstep with
    | call hy => exact ih.call hy
    | act hact =>
      obtain ⟨m, hact, hturn⟩ := hact
      exact ih.act hact hturn

/-- What was received in a scope is part of what its calls returned, in their order. -/
theorem Inv.sublist (hinv : h.Inv defaults logCap) (scope : String) :
    (effectsOf scope h.received).Sublist (heardOf scope h.steps) := by
  obtain ⟨published, unpublished, hsplit, -, hsub⟩ := hinv.split scope
  rw [hsplit]
  rw [effectsOf_append] at hsub
  exact ((List.sublist_append_left _ _).trans hsub).trans (List.sublist_append_left _ _)

/-! ## The order of the events -/

theorem wellTold_sorted {life : List Effect} (h : Memory.WellTold life) :
    life.Pairwise fun a b => a.seq < b.seq := by
  rw [← List.pairwise_map (f := Effect.seq), h.seqs]
  exact List.pairwise_lt_range'

/-- When every effect is published in its turn, a subscription that does not overflow
receives the events of a scope with growing cursors, and those of a node that is added once
with growing numbers. -/
theorem received_in_order (cfg : Config) (opts : SubscribeOptions) (registered : Bool)
    (hrun : Runs inTurn (new defaults logCap (.new cfg opts) registered) h) (scope : String) :
    (effectsOf scope h.received).Pairwise (fun a b => a.cursor < b.cursor) ∧
      ∀ id, Memory.AddedOnce scope id h.steps →
        (naming id (effectsOf scope h.received)).Pairwise fun a b => a.seq < b.seq := by
  have hinv := (inv_new cfg opts registered).runs hrun
  have hsub := hinv.sublist scope
  refine ⟨(heardOf_sorted hinv.run scope).sublist hsub, fun id honce => ?_⟩
  have hnumbers : (naming id (heardOf scope h.steps)).Pairwise fun a b => a.seq < b.seq := by
    rcases hinv.run.life_of_addedOnce honce with ⟨hnone, -⟩ | ⟨htold, -⟩
    · rw [hnone]
      exact .nil
    · exact wellTold_sorted htold
  exact hnumbers.sublist (hsub.filter _)

/-- The hub after some calls with the given readings. -/
def afterCalls : List Memory.Call → Hub → Option Hub
  | [], h => some h
  | c :: calls, h => do
    let (out, st') ← (c.input.exec h.store).run c.clock c.jitters
    afterCalls calls (h.called c.input out st')

variable {ok : Hub → Move → Bool}

theorem runs_of_afterCalls {calls : List Memory.Call} (hcalls : afterCalls calls h = some h') :
    Runs ok h h' := by
  induction calls generalizing h with
  | nil =>
    cases hcalls
    exact .refl
  | cons c calls ih =>
    obtain ⟨⟨out, st'⟩, hrun, hrest⟩ := Option.bind_eq_some_iff.mp hcalls
    exact .head (.call (Prog.yields_of_run hrun)) (ih hrest)

theorem runs_of_takes (htakes : Relation.ReflTransGen (Actions.Takes act ok) h h') :
    Runs ok h h' :=
  Relation.ReflTransGen.mono (fun _ _ => Step.act) h h' htakes

/-- One call adds a node, another one claims it. -/
def addAndClaim : List Memory.Call :=
  [{ input := .addNodes "jobs" [{ id := "a" }], clock := [10, 11, 12] },
   { input := .claim { scope := "jobs" }, clock := [20, 21] }]

/-- The calls publish in the order of their store operations. -/
def inOrder : List Move :=
  [.look 1, .look 0, .offer 0, .offer 0, .offer 1, .finish 0, .finish 0, .receive, .receive,
    .receive]

/-- The claim publishes first. -/
def overtaken : List Move :=
  [.look 1, .offer 1, .look 0, .offer 0, .offer 0, .receive, .receive, .receive]

/-- The cursors and numbers of the events received in `jobs`. -/
def numbers (h : Hub) : List (ℕ × ℕ) :=
  (effectsOf "jobs" h.received).map fun e => (e.cursor, e.seq)

theorem inOrder_received : ∃ h, Runs inTurn (new {} 0 (.new {} {}) true) h ∧
    h.numbers = [(1, 1), (2, 2), (3, 3)] ∧
    (effectsOf "jobs" h.received).Pairwise (fun a b => a.cursor < b.cursor) ∧
    (naming "a" (effectsOf "jobs" h.received)).Pairwise fun a b => a.seq < b.seq := by
  obtain ⟨h₁, hcalls, hp⟩ := (Option.any_eq_true _ _).mp
    (show (afterCalls addAndClaim (new {} 0 (.new {} {}) true)).any (fun h =>
      Actions.heeds act inTurn inOrder h && (Actions.drive act inOrder h).any fun h : Hub =>
        decide (h.numbers = [(1, 1), (2, 2), (3, 3)] ∧ Memory.AddedOnce "jobs" "a" h.steps)) =
      true by decide +kernel)
  rw [Bool.and_eq_true] at hp
  obtain ⟨h, hdrive, hend⟩ := (Option.any_eq_true _ _).mp hp.2
  obtain ⟨hnumbers, honce⟩ := of_decide_eq_true hend
  have hrun : Runs inTurn (new {} 0 (.new {} {}) true) h :=
    (runs_of_afterCalls hcalls).trans (runs_of_takes (Actions.steps_of_drive hp.1 hdrive))
  obtain ⟨hcursors, hseqs⟩ := received_in_order {} {} true hrun "jobs"
  exact ⟨h, hrun, hnumbers, hcursors, hseqs "a" honce⟩

/-- The claim's event arrives before those of the node it is about. -/
theorem overtaken_received : ∃ h, Runs (fun _ _ => true) (new {} 0 (.new {} {}) true) h ∧
    h.numbers = [(3, 3), (1, 1), (2, 2)] ∧
    ¬(effectsOf "jobs" h.received).Pairwise fun a b => a.cursor < b.cursor := by
  obtain ⟨h₁, hcalls, hp⟩ := (Option.any_eq_true _ _).mp
    (show (afterCalls addAndClaim (new {} 0 (.new {} {}) true)).any (fun h =>
      (Actions.drive act overtaken h).any fun h : Hub =>
        decide (h.numbers = [(3, 3), (1, 1), (2, 2)] ∧
          ¬(effectsOf "jobs" h.received).Pairwise fun a b => a.cursor < b.cursor)) = true by
      decide +kernel)
  obtain ⟨h, hdrive, hend⟩ := (Option.any_eq_true _ _).mp hp
  exact ⟨h, (runs_of_afterCalls hcalls).trans
    (runs_of_takes (Actions.steps_of_drive_free hdrive)), of_decide_eq_true hend⟩

end Hub
end DagWorker.Manager
