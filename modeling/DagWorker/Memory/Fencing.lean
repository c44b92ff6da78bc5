import DagWorker.Memory.Epochs

/-!
# Fencing

The leases granted and completed over a whole run, and what they say about the
scope at its end: the epochs granted for an identifier increase, and an epoch that
has been completed is over.
-/

namespace DagWorker.Memory

variable {s s' : Scope} {name : String} {r : StepRecord} {steps : List StepRecord} {st : Store}
variable {ls : List Lease} {lease : Lease}

/-! ## The history of a scope -/

/-- The leases granted on a scope, as identifiers with epochs, in order. -/
def grantsOf (name : String) (steps : List StepRecord) : List (NodeID × ℕ) :=
  ((steps.flatMap fun r => r.reply.leases).filter fun l => l.scope = name).map
    fun l => (l.nodeID, l.epoch)

/-- The lease that a successful `Complete` on a scope presented. -/
def StepRecord.completed (name : String) (r : StepRecord) : List (NodeID × ℕ) :=
  match r.call, r.reply with
  | .complete req, .complete (.ok _) =>
    if req.lease.scope = name then [(req.lease.nodeID, req.lease.epoch)] else []
  | _, _ => []

def completionsOf (name : String) (steps : List StepRecord) : List (NodeID × ℕ) :=
  steps.flatMap (StepRecord.completed name)

/-- A step that granted a lease on the scope. -/
def StepRecord.grantsOn (name : String) (r : StepRecord) : Bool :=
  r.reply.leases.any fun l => l.scope = name

/-- The epochs granted for an identifier of a scope, in order. -/
def epochsOf (name : String) (id : NodeID) (steps : List StepRecord) : List ℕ :=
  ((grantsOf name steps).filter fun g => g.1 = id).map Prod.snd

section Lists

variable {name : String} {steps : List StepRecord} {r : StepRecord}

theorem grantsOf_snoc : grantsOf name (steps ++ [r]) = grantsOf name steps ++
    (r.reply.leases.filter fun l => l.scope = name).map fun l => (l.nodeID, l.epoch) := by
  simp [grantsOf]

theorem completionsOf_snoc :
    completionsOf name (steps ++ [r]) = completionsOf name steps ++ r.completed name := by
  simp [completionsOf]

theorem completed_of_idle (hidle : r.reply.Idle) : r.completed name = [] := by
  unfold StepRecord.completed
  split
  · exact absurd ‹_› (hidle.complete _)
  · rfl

/-- A completion counts for the scope the operation works on. -/
theorem completed_cases (name : String) (r : StepRecord) : r.completed name = [] ∨
    ∃ req res, r.call = .complete req ∧ r.reply = .complete (.ok res) ∧ req.lease.scope = name ∧
      r.completed name = [(req.lease.nodeID, req.lease.epoch)] := by
  unfold StepRecord.completed
  split
  · split
    · exact .inr ⟨_, _, ‹_›, ‹_›, ‹_›, rfl⟩
    · exact .inl rfl
  · exact .inl rfl

end Lists

/-- What the leases granted and completed on a scope so far, in `n` calls, say
about its state. -/
structure History (n : ℕ) (gs cs : List (NodeID × ℕ)) (s : Scope) : Prop where
  bounded : s.EpochsLe n
  granted : ∀ g ∈ gs, g.2 ≤ s.epochOf g.1
  spent : ∀ c ∈ cs, s.Spent c.1 c.2
  increasing : gs.Pairwise fun a b => a.1 = b.1 → a.2 < b.2
  once : cs.Nodup

namespace History

variable {n : ℕ} {gs cs : List (NodeID × ℕ)} {s s' : Scope}

theorem newScope (name : String) (cfg : ScopeConfig) (logCap : ℕ) :
    History 0 [] [] (Scope.newScope name cfg logCap) :=
  ⟨⟨by simp [Scope.newScope], by simp [Scope.newScope]⟩, by simp, by simp, List.Pairwise.nil,
    List.nodup_nil⟩

theorem fenced (h : History n gs cs s) (hf : s.Fenced s') : History n gs cs s' :=
  ⟨hf.bounded n h.bounded, fun g hg => (h.granted g hg).trans (hf.epochOf_le g.1),
    fun c hc => hf.spent (h.spent c hc), h.increasing, h.once⟩

theorem grants (h : History n gs cs s) (hg : s.GrantsOnce ls s') :
    History (n + 1) (gs ++ ls.map fun l => (l.nodeID, l.epoch)) cs s' := by
  refine ⟨hg.bounded h.bounded, ?_, fun c hc => hg.spent (h.spent c hc), ?_, h.once⟩
  · intro g hmem
    rcases List.mem_append.mp hmem with hmem | hmem
    · exact (h.granted g hmem).trans (hg.epochOf_le g.1)
    · obtain ⟨l, hl, rfl⟩ := List.mem_map.mp hmem
      exact (hg.epochOf_lease hl).2.ge
  · refine List.pairwise_append.mpr ⟨h.increasing, ?_, ?_⟩
    · -- within one call an identifier is granted once
      rw [List.pairwise_map]
      have hnd := hg.nodup
      rw [List.Nodup, List.pairwise_map] at hnd
      exact hnd.imp fun hne heq => absurd heq hne
    · intro a ha b hb hab
      obtain ⟨l, hl, rfl⟩ := List.mem_map.mp hb
      have hle := h.granted a ha
      rw [hab] at hle
      exact hle.trans_lt (hg.epochOf_lease hl).1

/-- A success of `Complete` is the first for its lease. -/
theorem complete (h : History n gs cs s) {k : ℕ} (hf : s.Fenced s')
    (hlook : s.lookup lease.nodeID = some k) (hheld : s.holdsLease k lease = true)
    (hindex : s'.index = s.index) (hphase : (s'.recs k).phase ≠ .claimed) :
    History n gs (cs ++ [(lease.nodeID, lease.epoch)]) s' := by
  obtain ⟨hclaimed, hepoch⟩ := Scope.phase_of_holdsLease hheld
  have h' := h.fenced hf
  refine ⟨h'.bounded, h'.granted, ?_, h'.increasing, ?_⟩
  · intro c hc
    rcases List.mem_append.mp hc with hc | hc
    · exact h'.spent c hc
    rw [List.mem_singleton.mp hc]
    refine ⟨?_, fun k' hl hp => ?_⟩
    · have hle := hf.epochOf_le lease.nodeID
      rwa [Scope.epochOf_of_some hlook, hepoch] at hle
    · rw [Scope.lookup, hindex, ← Scope.lookup, hlook, Option.some.injEq] at hl
      exact absurd hp (hl ▸ hphase)
  · refine List.nodup_append.mpr ⟨h.once, List.nodup_singleton _, ?_⟩
    rintro c hc d hd rfl
    rw [List.mem_singleton] at hd
    subst hd
    have hlt := (h.spent _ hc).2 k hlook hclaimed
    rw [hepoch] at hlt
    exact lt_irrefl _ hlt

end History

theorem Scope.Grants.eq_of_nil {es : List Effect} (hg : s.Grants ls es s') (hls : ls = []) :
    s' = s := by
  cases hg with
  | nil => rfl
  | snoc h kind worker now leaseFor t _ _ => simp at hls

/-- One operation extends the history of the scope it works on. -/
theorem History.body {n : ℕ} {gs cs : List (NodeID × ℕ)}
    (h : History n gs cs s) (hs : s.Sound name)
    (hy : Prog.Yields (r.call.body s) (r.reply, s'))
    (hfew : r.grantsOn name = true → n + 1 < 2 ^ 64) :
    History (n + if r.grantsOn name then 1 else 0)
      (gs ++ (r.reply.leases.filter fun l => l.scope = name).map fun l => (l.nodeID, l.epoch))
      (cs ++ r.completed name) s' := by
  rcases completed_cases name r with hc | ⟨req, res, hop, hout, -, hc⟩
  · rw [hc, List.append_nil]
    obtain ⟨es, s₀, es', hpath, -, hg⟩ := (body_moves hs.inv r.call).of_yields hy
    have h₀ := h.fenced (hpath.fenced hs.inv)
    by_cases hls : r.reply.leases = []
    · have hgr : r.grantsOn name = false := by simp [StepRecord.grantsOn, hls]
      have heq : s' = s₀ := hg.eq_of_nil hls
      rw [heq]
      simpa [hls, hgr] using h₀
    · -- every lease of the answer names this scope
      have hnames : s₀.name = name := hpath.name.trans hs.name_eq
      have hscope : ∀ l ∈ r.reply.leases, l.scope = name :=
        fun l hl => (hg.scope l hl).trans hnames
      have hgr : r.grantsOn name = true := by
        obtain ⟨l, hl⟩ := List.exists_mem_of_ne_nil _ hls
        exact List.any_eq_true.mpr ⟨l, hl, by simpa using hscope l hl⟩
      have honce := hg.once (hs.inv.path hpath) h₀.bounded (hfew hgr)
      rw [List.filter_eq_self.mpr (by simpa using hscope), if_pos hgr]
      exact h₀.grants honce
  · have hcompleted : (r.call.body s).All fun x =>
        ∃ a, x.1 = .complete a ∧ Scope.Completed s req.lease (a, x.2) := by
      rw [hop, Op.body, Op.all_lift]
      exact (Scope.complete_completed hs.inv req).mono fun x hx => ⟨x.1, rfl, hx.1⟩
    obtain ⟨a, ha, es, hev, hok⟩ := hcompleted.of_yields hy
    rw [hout] at ha
    cases ha
    obtain ⟨-, k, hlook, hheld, hindex, hphase⟩ := hok res rfl
    have hgr : r.grantsOn name = false := by simp [StepRecord.grantsOn, hout, Out.leases]
    rw [hc]
    simpa [hout, Out.leases, hgr] using
      h.complete (hev.path.fenced hs.inv) hlook hheld hindex hphase

/-- What the run so far says about the scope, if it exists. -/
structure Recorded (name : String) (steps : List StepRecord) (st : Store) : Prop where
  absent : st.scopes.lookup name = none →
    grantsOf name steps = [] ∧ completionsOf name steps = [] ∧
      steps.countP (StepRecord.grantsOn name) = 0
  present : ∀ s, st.scopes.lookup name = some s →
    History (steps.countP (StepRecord.grantsOn name)) (grantsOf name steps)
      (completionsOf name steps) s

/-- The scope an operation finds has the history of the run. -/
theorem Recorded.found
    (h : Recorded name steps st) (hs : st.Finds name s) :
    History (steps.countP (StepRecord.grantsOn name)) (grantsOf name steps)
      (completionsOf name steps) s := by
  rcases hs with hl | ⟨hl, rfl⟩
  · exact h.present s hl
  · obtain ⟨hg, hc, hn⟩ := h.absent hl
    rw [hg, hc, hn]
    exact History.newScope _ _ _

/-- A step that grants and completes nothing on the scope. -/
theorem Recorded.quiet {st' : Store}
    (h : Recorded name steps st)
    (hleases : ∀ l ∈ r.reply.leases, l.scope ≠ name) (hcomp : r.completed name = [])
    (hnone : st'.scopes.lookup name = none → st.scopes.lookup name = none)
    (hsome : ∀ s', st'.scopes.lookup name = some s' →
      ∃ s, st.scopes.lookup name = some s ∧ s.Fenced s') :
    Recorded name (steps ++ [r]) st' := by
  have hfilter : (r.reply.leases.filter fun l => l.scope = name) = [] :=
    List.filter_eq_nil_iff.mpr fun l hmem => by simpa using hleases l hmem
  have hgr : r.grantsOn name = false := by
    simpa [StepRecord.grantsOn, List.any_eq_false] using hleases
  have hcount : (steps ++ [r]).countP (StepRecord.grantsOn name) =
      steps.countP (StepRecord.grantsOn name) := by simp [hgr]
  constructor
  · intro hl
    simpa [grantsOf_snoc, completionsOf_snoc, hfilter, hcomp, hgr] using h.absent (hnone hl)
  intro s' hl
  obtain ⟨s, hls, hf⟩ := hsome s' hl
  rw [grantsOf_snoc, completionsOf_snoc, hfilter, hcomp, hcount, List.map_nil,
    List.append_nil, List.append_nil]
  exact (h.present s hls).fenced hf

/-- An operation on another scope grants and completes nothing on this one. -/
theorem quiet_of_other {m : String} (hm : name ≠ m)
    (htarget : r.call.target = some m) (hs : s.Sound m)
    (hy : Prog.Yields (r.call.body s) (r.reply, s')) :
    (∀ l ∈ r.reply.leases, l.scope ≠ name) ∧ r.completed name = [] := by
  constructor
  · obtain ⟨es, s₀, es', hpath, -, hg⟩ := (body_moves hs.inv r.call).of_yields hy
    intro l hl heq
    refine hm (heq.symm.trans ((hg.scope l hl).trans ?_))
    exact hpath.name.trans hs.name_eq
  · rcases completed_cases name r with hc | ⟨req, res, hop, -, hscope, -⟩
    · exact hc
    · rw [hop, Op.target, Option.some.injEq, hscope] at htarget
      exact absurd htarget hm

/-- Induction over the run: each step extends the history of the scope it works
on and leaves the other scopes alone. -/
theorem Run.recorded {defaults : ScopeConfig} {logCap : ℕ}
    (hrun : Run (Store.new defaults logCap) steps st)
    (hfew : steps.countP (StepRecord.grantsOn name) < 2 ^ 64) : Recorded name steps st := by
  induction hrun with
  | nil => exact ⟨fun _ => ⟨rfl, rfl, rfl⟩, by simp [Store.new]⟩
  | @snoc steps r hrun hv ih =>
    rw [List.countP_append, List.countP_singleton] at hfew
    have ih := ih (by omega)
    have hsound := Run.sound hrun
    generalize hafter : r.after = st'
    have hstep := Valid.storeStep hv
    rw [hafter] at hstep
    cases hstep with
    | idle hsame _ hidle =>
      exact ih.quiet (by simp [hidle.leases]) (completed_of_idle hidle)
        (fun hl => hsame ▸ hl) fun s hl => ⟨s, hsame ▸ hl, Scope.Fenced.refl s⟩
    | @scope m s₀ s₁ htarget hfinds hy =>
      have hs₀ := hfinds.sound hsound
      by_cases hm : name = m
      · subst hm
        have hbody := (ih.found hfinds).body hs₀ hy fun hgr => by
          rw [hgr] at hfew
          simpa using hfew
        refine ⟨fun hl => by simp [Store.setScope] at hl, fun s hl => ?_⟩
        simp only [Store.setScope, AList.lookup_insert, Option.some.injEq] at hl
        subst hl
        rwa [grantsOf_snoc, completionsOf_snoc, List.countP_append, List.countP_singleton]
      · have hlook : (r.before.setScope m s₁).scopes.lookup name =
            r.before.scopes.lookup name := AList.lookup_insert_ne hm
        obtain ⟨hleases, hcomp⟩ := quiet_of_other hm htarget hs₀ hy
        exact ih.quiet hleases hcomp (fun hl => hlook ▸ hl)
          fun s hl => ⟨s, hlook ▸ hl, Scope.Fenced.refl s⟩
    | restore hidle hok =>
      have hlook := restore_lookup (fun n t ht => ⟨(hsound n t ht).inv,
        (hsound n t ht).name_eq⟩) hok name
      refine ih.quiet (by simp [hidle.leases]) (completed_of_idle hidle) (fun hl => ?_)
        fun s hl => ?_
      · rwa [hlook, Option.map_eq_none_iff] at hl
      rw [hlook] at hl
      obtain ⟨s₀, hl₀, rfl⟩ := Option.map_eq_some_iff.mp hl
      have hi := (hsound name s₀ hl₀).inv
      exact ⟨s₀, hl₀, Scope.Fenced.copies hi (Scope.restored_copies hi _)⟩

/-! ## Presenting a lease -/

def Scope.ClaimedAt (s : Scope) (id : NodeID) (e : ℕ) : Prop :=
  ∃ h, s.lookup id = some h ∧ (s.recs h).phase = .claimed ∧ (s.recs h).epoch = e

/-- An operation that answers only the holder of a lease. -/
theorem claimedAt_of_body (hv : r.Valid exec)
    (hsound : ∀ n t, r.before.scopes.lookup n = some t → t.Sound n)
    (htarget : r.call.target = some lease.scope) (hbusy : ¬ r.reply.Idle)
    (hbody : ∀ s : Scope, s.Inv → (r.call.body s).All fun x => x.1 = r.reply →
      ∃ h, s.lookup lease.nodeID = some h ∧ s.holdsLease h lease = true) :
    ∃ s, r.before.scopes.lookup lease.scope = some s ∧ s.ClaimedAt lease.nodeID lease.epoch := by
  have hstep := Valid.storeStep hv
  generalize r.after = st' at hstep
  cases hstep with
  | idle _ _ hidle => exact absurd hidle hbusy
  | restore hidle _ => exact absurd hidle hbusy
  | @scope m s s' htarget' hfinds hy =>
    obtain rfl := Option.mem_unique htarget htarget'
    obtain ⟨h, hlook, hheld⟩ := (hbody s (hfinds.sound hsound).inv).of_yields hy rfl
    obtain ⟨hphase, hepoch⟩ := Scope.phase_of_holdsLease hheld
    rcases hfinds with hl | ⟨-, rfl⟩
    · exact ⟨s, hl, h, hlook, hphase, hepoch⟩
    · simp [Scope.lookup, Scope.newScope] at hlook

theorem claimedAt_of_complete (hv : r.Valid exec)
    (hsound : ∀ n t, r.before.scopes.lookup n = some t → t.Sound n) {req : CompleteRequest}
    {res : CompleteResult} (hop : r.call = .complete req) (hout : r.reply = .complete (.ok res)) :
    ∃ s, r.before.scopes.lookup req.lease.scope = some s ∧
      s.ClaimedAt req.lease.nodeID req.lease.epoch := by
  refine claimedAt_of_body hv hsound (by rw [hop]; rfl)
    (fun hidle => hidle.complete res hout) fun s hi => ?_
  rw [hop, Op.body, Op.all_lift]
  refine (Scope.complete_completed hi req).mono ?_
  rintro x ⟨⟨es, -, hok⟩, -⟩ hx
  rw [hout, Out.complete.injEq] at hx
  obtain ⟨-, h, hlook, hheld, -⟩ := hok res hx
  exact ⟨h, hlook, hheld⟩

theorem claimedAt_of_extend (hv : r.Valid exec)
    (hsound : ∀ n t, r.before.scopes.lookup n = some t → t.Sound n) {req : ExtendRequest}
    {t : Int} (hop : r.call = .extend req) (hout : r.reply = .extend (.ok t)) :
    ∃ s, r.before.scopes.lookup req.lease.scope = some s ∧
      s.ClaimedAt req.lease.nodeID req.lease.epoch := by
  refine claimedAt_of_body hv hsound (by rw [hop]; rfl)
    (fun hidle => hidle.extend t hout) fun s hi => ?_
  rw [hop, Op.body, Op.all_lift]
  refine (Scope.extend_tale hi req).mono ?_
  rintro x ⟨-, hok⟩ hx
  rw [hout, Out.extend.injEq] at hx
  exact hok t hx

/-! ## Whole runs -/

theorem Recorded.lists
    (h : Recorded name steps st) :
    ((grantsOf name steps).Pairwise fun a b => a.1 = b.1 → a.2 < b.2) ∧
      (completionsOf name steps).Nodup := by
  cases hl : st.scopes.lookup name with
  | none =>
    obtain ⟨hg, hc, -⟩ := h.absent hl
    rw [hg, hc]
    exact ⟨List.Pairwise.nil, List.nodup_nil⟩
  | some s => exact ⟨(h.present s hl).increasing, (h.present s hl).once⟩

/-- Over a whole run the epochs granted for an identifier increase, so that no
lease is granted twice; only its holder can complete or extend a lease, and it is
completed at most once. -/
theorem run_fencing {defaults : ScopeConfig} {logCap : ℕ} {steps : List StepRecord}
    {st : Store} (hrun : Run (Store.new defaults logCap) steps st) (name : String)
    (hfew : steps.countP (StepRecord.grantsOn name) < 2 ^ 64) :
    (∀ id, (epochsOf name id steps).Pairwise (· < ·)) ∧
      (grantsOf name steps).Nodup ∧
      (∀ r ∈ steps, ∀ req res, r.call = .complete req → r.reply = .complete (.ok res) →
        ∃ s, r.before.scopes.lookup req.lease.scope = some s ∧
          s.ClaimedAt req.lease.nodeID req.lease.epoch) ∧
      (∀ r ∈ steps, ∀ req t, r.call = .extend req → r.reply = .extend (.ok t) →
        ∃ s, r.before.scopes.lookup req.lease.scope = some s ∧
          s.ClaimedAt req.lease.nodeID req.lease.epoch) ∧
      (completionsOf name steps).Nodup := by
  obtain ⟨hincr, honce⟩ := (hrun.recorded hfew).lists
  refine ⟨fun id => ?_, ?_, fun r hr req res hop hout => ?_, fun r hr req t hop hout => ?_, honce⟩
  · rw [epochsOf, List.pairwise_map]
    refine ((hincr.filter _).imp_of_mem ?_)
    intro a b ha hb hab
    have ha := (List.mem_filter.mp ha).2
    have hb := (List.mem_filter.mp hb).2
    simp only [decide_eq_true_eq] at ha hb
    exact hab (ha.trans hb.symm)
  · refine hincr.imp fun {a b} hab heq => ?_
    have hlt := hab (congrArg Prod.fst heq)
    rw [heq] at hlt
    exact lt_irrefl _ hlt
  · obtain ⟨pre, post, -, hpre, hv⟩ := hrun.prefix_of_mem hr
    exact claimedAt_of_complete hv (Run.sound hpre) hop hout
  · obtain ⟨pre, post, -, hpre, hv⟩ := hrun.prefix_of_mem hr
    exact claimedAt_of_extend hv (Run.sound hpre) hop hout

/-- A node that is completed, removed, created again and claimed again. -/
def recreateCalls : List Call :=
  [{ input := .addNodes "jobs" [{ id := "a" }], clock := [10, 11, 12] },
   { input := .claim { scope := "jobs" }, clock := [20, 21] },
   { input := .complete { lease := { scope := "jobs", nodeID := "a", epoch := 1 }, success := true },
     clock := [30, 31, 32] },
   { input := .removeNode "jobs" "a" .reject, clock := [40, 41] },
   { input := .addNodes "jobs" [{ id := "a" }], clock := [50, 51, 52] },
   { input := .claim { scope := "jobs" }, clock := [60, 61] }]

/-- The second lease of the node has the second epoch. -/
theorem recreate_fencing : ∃ steps st, Run (Store.new {} 0) steps st ∧
    steps.countP (StepRecord.grantsOn "jobs") < 2 ^ 64 ∧
    epochsOf "jobs" "a" steps = [1, 2] ∧ completionsOf "jobs" steps = [("a", 1)] ∧
    (epochsOf "jobs" "a" steps).Pairwise (· < ·) := by
  obtain ⟨steps, st, hrun, hp⟩ := Trace.exists_run_of_execute exec recreateCalls (Store.new {} 0)
    (p := fun steps _ => steps.countP (StepRecord.grantsOn "jobs") < 2 ^ 64 ∧
      epochsOf "jobs" "a" steps = [1, 2] ∧ completionsOf "jobs" steps = [("a", 1)])
    (by decide +kernel)
  obtain ⟨hfew, hepochs, hcomp⟩ := of_decide_eq_true hp
  exact ⟨steps, st, hrun, hfew, hepochs, hcomp, (run_fencing hrun "jobs" hfew).1 "a"⟩

end DagWorker.Memory
