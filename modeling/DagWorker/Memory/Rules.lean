import DagWorker.Memory.Representation

/-!
# Trigger rules over whole runs

A blocked node waits for something, and a held node's rule is satisfied, as long
as the operations settle what they touch.  `AddNodes`, `AddEdges`, `RemoveEdges`
and `RemoveNode` do not always: what they have to leave alone is stated on the
scope they find.
-/

namespace DagWorker.Memory

open Function Scope

variable {s : Scope} {defaults : ScopeConfig} {steps : List StepRecord} {r : StepRecord}

/-! ## One operation -/

/-- What one operation does to the rules of the nodes. -/
structure Obeys (op : Op) (s : Scope) (x : Out × Scope) : Prop where
  settled : op.Settling x.1 → s.SettledBut ∅ → x.2.SettledBut ∅
  heldOK : op.Keeps s → s.HeldBut ∅ → x.2.HeldBut ∅

theorem body_obeys (hi : s.Inv) (hf : s.Flagged) (op : Op) : (op.body s).All (Obeys op s) :=
  (body_performs hi op).mono fun _ h =>
    ⟨fun hset => .of_forall (h.settled hset), fun hk => .of_forall (h.heldOK hk hf)⟩

/-! ## No stuck graph -/

theorem Run.settled {logCap : ℕ} {st : Store} (hrun : Run (Store.new defaults logCap) steps st)
    (hsettling : ∀ r ∈ steps, r.call.Settling r.reply) :
    ∀ name s, st.scopes.lookup name = some s → s.Sound name ∧ s.SettledBut ∅ := by
  refine hrun.scopes_induction (P := fun name s => s.Sound name ∧ s.SettledBut ∅)
    (C := fun r => r.call.Settling r.reply) hsettling ?_ ?_ ?_ ?_
  · exact fun _ _ h => ⟨h.1.inv, h.1.name_eq⟩
  · intro name cfg cap
    exact ⟨Sound.newScope name cfg cap, by simp [SettledBut, Scope.newScope]⟩
  · rintro r name s s' hC - - ⟨hs, hset⟩ hy
    exact ⟨hs.moves ((body_moves hs.inv r.call).of_yields hy),
      ((body_obeys hs.inv hs.flagged r.call).of_yields hy).settled hC hset⟩
  · rintro name hs s s' ⟨h, hset⟩ hc
    exact ⟨h.copies hc, hc.settled hset⟩

/-- A blocked node whose rule is undecided has a predecessor that has not
terminated. -/
theorem exists_waiting (hi : s.Inv) (hf : s.Flagged) {v : ℕ} (hund : Undecided (s.recs v)) :
    ∃ u ∈ s.sources v, (s.recs u).status.terminal = false := by
  have hpos := DepCounts.unsatisfied_pos_of_undecided (hi.known v) hund.1 hund.2
  rw [(edgesExact_of_inv hi hf).unsatisfied_eq, List.countP_pos_iff] at hpos
  obtain ⟨u, hu, hterm⟩ := hpos
  exact ⟨u, hu, by simpa using hterm⟩

/-- Walking back along predecessors that have not terminated ends at a node that is
not blocked: the ranks decrease. -/
theorem exists_unblocked (hi : s.Inv) (hf : s.Flagged) (hset : s.SettledBut ∅) {v : ℕ}
    (hv : s.Alive v) (hterm : (s.recs v).status.terminal = false) :
    ∃ w, s.Alive w ∧ ((s.recs w).phase = .ready ∨ (s.recs w).phase = .scheduled ∨
      (s.recs w).phase = .claimed) := by
  induction hn : s.ord v using Nat.strong_induction_on generalizing v with
  | h n ih =>
    cases hp : (s.recs v).phase with
    | blocked =>
      obtain ⟨u, hu, hut⟩ := exists_waiting hi hf (hset v hv hp (Set.notMem_empty v))
      have hlt := hi.ranked.edge u v ((hi.mirrored.mem_succ u v).mpr hu)
      exact ih (s.ord u) (hn ▸ hlt) (hi.mirrored.alive_source hu) hut rfl
    | scheduled => exact ⟨v, hv, .inr (.inl hp)⟩
    | ready => exact ⟨v, hv, .inl hp⟩
    | claimed => exact ⟨v, hv, .inr (.inr hp)⟩
    | done =>
      rw [(hi.terminal_iff v).mpr hp] at hterm
      cases hterm

/-- If `RemoveEdges` never fails and `RemoveNode` is given a defined policy, every
blocked node waits for a predecessor, and a scope with work left has a node that is
not blocked. -/
theorem run_never_stuck {defaults : ScopeConfig} {logCap : ℕ} {steps : List StepRecord}
    {st : Store} (hrun : Run (Store.new defaults logCap) steps st)
    (hedges : ∀ r ∈ steps, ∀ name edges, r.call = .removeEdges name edges → r.reply.err = none)
    (hnodes : ∀ r ∈ steps, ∀ name id policy, r.call = .removeNode name id policy →
      policy = .reject ∨ policy = .detach ∨ policy = .fail)
    {name : String} {s : Scope} (hl : st.scopes.lookup name = some s) :
    (∀ v, s.Alive v → (s.recs v).phase = .blocked →
      (∃ u ∈ s.sources v, (s.recs u).status.terminal = false) ∧
        (s.recs v).deps.ready (s.recs v).trigger = false ∧
        (s.recs v).deps.unsatisfiable (s.recs v).trigger = false) ∧
      ((∃ v, s.Alive v ∧ (s.recs v).status.terminal = false) →
        ∃ w, s.Alive w ∧ ((s.recs w).phase = .ready ∨ (s.recs w).phase = .scheduled ∨
          (s.recs w).phase = .claimed)) := by
  have hsettling : ∀ r ∈ steps, r.call.Settling r.reply := by
    intro r hr
    cases hop : r.call with
    | removeEdges n es => exact hedges r hr n es hop
    | removeNode n id policy =>
      rcases hnodes r hr n id policy hop with rfl | rfl | rfl <;> intro k <;> simp
    | _ => trivial
  obtain ⟨hs, hset⟩ := hrun.settled hsettling name s hl
  constructor
  · intro v hv hp
    have hund := hset v hv hp (Set.notMem_empty v)
    exact ⟨exists_waiting hs.inv hs.flagged hund, hund.1, hund.2⟩
  · rintro ⟨v, hv, hterm⟩
    exact exists_unblocked hs.inv hs.flagged hset hv hterm

/-- Three nodes, of which one loses its edge and is removed. -/
def trimCalls : List Call :=
  [{ input := .addNodes "jobs" [{ id := "a" }, { id := "b", deps := ["a"] },
      { id := "c", deps := ["b"] }], clock := [10, 11, 12, 13, 14] },
   { input := .removeEdges "jobs" [{ fromID := "b", toID := "c" }], clock := [20, 21, 22] },
   { input := .removeNode "jobs" "c" .detach, clock := [30, 31] }]

/-- The step meets the assumptions on `RemoveEdges` and `RemoveNode`. -/
def StepRecord.trims (r : StepRecord) : Bool :=
  match r.call with
  | .removeEdges _ _ => r.reply.err.isNone
  | .removeNode _ _ policy => policy = .reject ∨ policy = .detach ∨ policy = .fail
  | _ => true

/-- After the trimming the middle node still waits for the first one. -/
theorem trim_never_stuck : ∃ steps st s, Run (Store.new {} 0) steps st ∧
    (∀ r ∈ steps, ∀ name edges, r.call = .removeEdges name edges → r.reply.err = none) ∧
    (∀ r ∈ steps, ∀ name id policy, r.call = .removeNode name id policy →
      policy = .reject ∨ policy = .detach ∨ policy = .fail) ∧
    st.scopes.lookup "jobs" = some s ∧ s.Alive 1 ∧ (s.recs 1).phase = .blocked ∧
    ∃ u ∈ s.sources 1, (s.recs u).status.terminal = false := by
  obtain ⟨steps, st, hrun, hp⟩ := Trace.exists_run_of_execute exec trimCalls (Store.new {} 0)
    (p := fun steps st => steps.all StepRecord.trims &&
      (st.scopes.lookup "jobs").any fun s => s.Alive 1 ∧ (s.recs 1).phase = .blocked)
    (by decide +kernel)
  rw [Bool.and_eq_true, List.all_eq_true] at hp
  have hedges : ∀ r ∈ steps, ∀ name edges, r.call = .removeEdges name edges →
      r.reply.err = none := by
    intro r hr name edges hop
    have := hp.1 r hr
    simpa [StepRecord.trims, hop] using this
  have hnodes : ∀ r ∈ steps, ∀ name id policy, r.call = .removeNode name id policy →
      policy = .reject ∨ policy = .detach ∨ policy = .fail := by
    intro r hr name id policy hop
    have := hp.1 r hr
    simpa [StepRecord.trims, hop] using this
  cases hl : st.scopes.lookup "jobs" with
  | none => simp [hl] at hp
  | some s =>
    obtain ⟨hv, hb⟩ : s.Alive 1 ∧ (s.recs 1).phase = .blocked := by simpa [hl] using hp.2
    exact ⟨steps, st, s, hrun, hedges, hnodes, hl, hv, hb,
      ((run_never_stuck hrun hedges hnodes hl).1 1 hv hb).1⟩

/-! ## Claimable nodes -/

/-- The step finds its scope in a state in which the call keeps the rules. -/
def StepRecord.Keeps (r : StepRecord) : Prop :=
  ∀ name s, r.call.target = some name → r.before.Finds name s → r.call.Keeps s

theorem Run.held {logCap : ℕ} {st : Store} (hrun : Run (Store.new defaults logCap) steps st)
    (hkeeps : ∀ r ∈ steps, r.Keeps) :
    ∀ name s, st.scopes.lookup name = some s → s.Sound name ∧ s.HeldBut ∅ := by
  refine hrun.scopes_induction (P := fun name s => s.Sound name ∧ s.HeldBut ∅)
    (C := StepRecord.Keeps) hkeeps ?_ ?_ ?_ ?_
  · exact fun _ _ h => ⟨h.1.inv, h.1.name_eq⟩
  · intro name cfg cap
    exact ⟨Sound.newScope name cfg cap, by simp [HeldBut, Scope.newScope]⟩
  · rintro r name s s' hC htarget hfinds ⟨hs, hheld⟩ hy
    exact ⟨hs.moves ((body_moves hs.inv r.call).of_yields hy),
      ((body_obeys hs.inv hs.flagged r.call).of_yields hy).heldOK (hC name s htarget hfinds) hheld⟩
  · rintro name hs s s' ⟨h, hheld⟩ hc
    exact ⟨h.copies hc, hc.heldOK hheld⟩

/-- The node of a lease is claimed in the store the step leaves. -/
theorem Valid.leased (hv : r.Valid exec)
    (hsound : ∀ n t, r.before.scopes.lookup n = some t → t.Sound n) :
    ∀ l ∈ r.reply.leases, ∃ s h, r.after.scopes.lookup l.scope = some s ∧
      s.lookup l.nodeID = some h ∧ s.Alive h ∧ (s.recs h).phase = .claimed := by
  intro l hl
  have hstep := Valid.storeStep hv
  generalize r.after = st' at hstep
  cases hstep with
  | idle _ _ hidle => simp [hidle.leases] at hl
  | restore hidle _ => simp [hidle.leases] at hl
  | @scope m s s' _ hfinds hy =>
    have hs := hfinds.sound hsound
    obtain ⟨es, s₀, es', hpath, -, hg⟩ := (body_moves hs.inv r.call).of_yields hy
    have hname : l.scope = m :=
      (hg.scope l hl).trans (hpath.name.trans hs.name_eq)
    obtain ⟨h, hlook, hh, hphase⟩ := hg.claimed (hs.inv.path hpath) l hl
    exact ⟨s', h, by rw [hname]; exact AList.lookup_insert _, hlook, hh, hphase⟩

/-- In a run whose edits keep the rules of scheduled and claimed nodes satisfied,
every claimable node and every leased node has its rule satisfied. -/
theorem run_rules_satisfied {defaults : ScopeConfig} {logCap : ℕ} {steps : List StepRecord}
    {st : Store} (hrun : Run (Store.new defaults logCap) steps st)
    (hkeeps : ∀ r ∈ steps, r.Keeps) :
    (∀ name s, st.scopes.lookup name = some s → ∀ v, s.Alive v →
      (s.recs v).phase = .ready → (s.recs v).deps.ready (s.recs v).trigger = true) ∧
      ∀ r ∈ steps, ∀ l ∈ r.reply.leases, ∃ s h, r.after.scopes.lookup l.scope = some s ∧
        s.lookup l.nodeID = some h ∧ (s.recs h).phase = .claimed ∧
          (s.recs h).deps.ready (s.recs h).trigger = true := by
  constructor
  · intro name s hl v hv hp
    exact (hrun.held hkeeps name s hl).2 v hv (by rw [hp]; rfl) fun _ => Set.notMem_empty v
  intro r hr l hl
  obtain ⟨pre, post, rfl, hpre, hv⟩ := hrun.prefix_of_mem hr
  obtain ⟨s, h, hls, hlook, hh, hp⟩ := Valid.leased hv (Run.sound hpre) l hl
  have hbefore : ∀ q ∈ pre ++ [r], StepRecord.Keeps q := fun q hq =>
    hkeeps q (List.append_cons pre r post ▸ List.mem_append_left _ hq)
  have hheld := Run.held (Trace.Run.snoc hpre hv) hbefore _ s hls
  exact ⟨s, h, hls, hlook, hp,
    hheld.2 h hh (by rw [hp]; rfl) fun hready => by rw [hp] at hready; cases hready⟩

/-- The step edits no graph that has nodes. -/
def StepRecord.spares (r : StepRecord) : Bool :=
  match r.call with
  | .addNodes name _ => (r.before.scopes.lookup name).isNone
  | .addEdges _ _ => false
  | .removeEdges _ _ => false
  | .removeNode _ _ _ => false
  | _ => true

theorem StepRecord.keeps_of_spares (h : r.spares = true) : r.Keeps := by
  intro name s htarget hfinds
  unfold spares at h
  cases hop : r.call with
  | addNodes n specs =>
    rw [hop] at h htarget
    cases htarget
    rcases hfinds with hl | ⟨-, rfl⟩
    · simp [hl] at h
    · intro v hv
      simp [Alive, Scope.newScope] at hv
  | addEdges | removeEdges | removeNode => simp [hop] at h
  | _ => trivial

/-- The chain is claimed with its rules satisfied. -/
theorem chain_rules_satisfied : ∃ steps st, Run (Store.new {} 0) steps st ∧
    (∀ r ∈ steps, r.Keeps) ∧ (∃ r ∈ steps, ∃ l ∈ r.reply.leases, l.nodeID = "a") ∧
    ∀ r ∈ steps, ∀ l ∈ r.reply.leases, ∃ s h, r.after.scopes.lookup l.scope = some s ∧
      s.lookup l.nodeID = some h ∧ (s.recs h).phase = .claimed ∧
        (s.recs h).deps.ready (s.recs h).trigger = true := by
  obtain ⟨steps, st, hrun, hp⟩ := Trace.exists_run_of_execute exec chainCalls (Store.new {} 0)
    (p := fun steps _ => steps.all StepRecord.spares &&
      steps.any fun r => r.reply.leases.any fun l => l.nodeID = "a")
    (by decide +kernel)
  rw [Bool.and_eq_true, List.all_eq_true] at hp
  have hkeeps : ∀ r ∈ steps, StepRecord.Keeps r := fun r hr => StepRecord.keeps_of_spares (hp.1 r hr)
  exact ⟨steps, st, hrun, hkeeps, by simpa [List.any_eq_true] using hp.2,
    (run_rules_satisfied hrun hkeeps).2⟩

/-- A node whose attempt fails gains a predecessor while it waits for the next
attempt. -/
def backoffCalls : List Call :=
  [{ input := .addNodes "jobs" [{ id := "a", retry := { maxAttempts := 2 } }], clock := [1, 2, 3] },
   { input := .addNodes "jobs" [{ id := "b" }], clock := [4, 5, 6] },
   { input := .claim { scope := "jobs" }, clock := [7, 8] },
   { input := .complete { lease := { scope := "jobs", nodeID := "a", epoch := 1 }, success := false },
     clock := [9, 10, 11], jitters := [0] },
   { input := .addEdges "jobs" [{ fromID := "b", toID := "a" }], clock := [12, 13, 14] },
   { input := .sweep "jobs" 10, clock := [9000000000000, 9000000000001, 9000000000002] }]

/-- The node is claimable although its predecessor has not terminated. -/
theorem backoff_ready_unsatisfied : ∃ steps st s, Run (Store.new {} 0) steps st ∧
    st.scopes.lookup "jobs" = some s ∧ s.Alive 0 ∧ (s.recs 0).id = "a" ∧
    (s.recs 0).phase = .ready ∧ (s.recs 0).deps.unsatisfied = 1 ∧
    (s.recs 0).deps.ready (s.recs 0).trigger = false := by
  obtain ⟨steps, st, hrun, hp⟩ := Trace.exists_run_of_execute exec backoffCalls (Store.new {} 0)
    (p := fun _ st => (st.scopes.lookup "jobs").any fun s => s.Alive 0 ∧ (s.recs 0).id = "a" ∧
      (s.recs 0).phase = .ready ∧ (s.recs 0).deps.unsatisfied = 1 ∧
      (s.recs 0).deps.ready (s.recs 0).trigger = false)
    (by decide +kernel)
  cases hl : st.scopes.lookup "jobs" with
  | none => simp [hl] at hp
  | some s =>
    rw [hl, Option.any_some] at hp
    exact ⟨steps, st, s, hrun, hl, of_decide_eq_true hp⟩

end DagWorker.Memory
