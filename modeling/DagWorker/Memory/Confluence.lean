import DagWorker.Memory.Net

/-!
# The order of the successor lists

`terminate` visits the successors of a node in the order of a slice.  A node can be queued
more than once on the way, and the first entry decides how it ends.  The result is the same
in whatever order the slices are visited.  It is so for cyclic graphs too, although no store
holds one.
-/

namespace DagWorker.Memory.Scope

open Function
open DagWorker.Graph (Cell Net Verdict)
open DepCounts (Outcome)

/-! ## The tally of the net -/

section Tally

variable {s : Scope}

theorem edgeOutcome_eq_unsatisfied (b : Bool) (r : NodeRec) :
    edgeOutcome b r = .unsatisfied ↔ b = false := by
  cases b with
  | false => simp
  | true => simp [Outcome.ofTerminal_ne_unsatisfied]

/-- The identifiers of the sources of the open edges into a node. -/
def openSources (s : Scope) (w : ℕ) : List NodeID :=
  ((s.pred w).filter fun e => e.satisfied = false).map fun e => (s.recs e.source).id

theorem Laid.openSources_nodup (hl : s.Laid) (w : ℕ) : (s.openSources w).Nodup := by
  have hnd : ((s.pred w).filter fun e => e.satisfied = false).Nodup :=
    ((hl.mirrored.sources_nodup w).of_map _).filter _
  refine hnd.map_on ?_
  intro e he e' he' hid
  have hsrc : ∀ {e : PredEdge}, e ∈ s.pred w → s.Alive e.source := fun h =>
    hl.mirrored.alive_source (List.mem_map.mpr ⟨_, h, rfl⟩)
  have hmem := List.mem_of_mem_filter he
  have hmem' := List.mem_of_mem_filter he'
  apply List.inj_on_of_nodup_map (hl.mirrored.sources_nodup w) hmem hmem'
  exact hl.indexed.id_inj (hsrc hmem) (hsrc hmem') hid

theorem Laid.mem_openSources (hl : s.Laid) {w : ℕ} (hw : s.Alive w) (a : NodeID) :
    a ∈ s.openSources w ↔ s.net.edge a (s.recs w).id = some false := by
  rw [hl.edge_iff]
  simp only [openSources, List.mem_map, List.mem_filter, decide_eq_true_eq]
  constructor
  · rintro ⟨⟨u, b⟩, ⟨hmem, rfl⟩, rfl⟩
    have hu : s.Alive u := hl.mirrored.alive_source (List.mem_map.mpr ⟨_, hmem, rfl⟩)
    exact ⟨u, w, hl.indexed.lookup_id hu, hl.indexed.lookup_id hw, hmem⟩
  rintro ⟨u, w', hu, hw', hmem⟩
  obtain rfl : w = w' := by
    rw [hl.indexed.lookup_id hw] at hw'
    exact Option.some.inj hw'
  exact ⟨⟨u, false⟩, ⟨hmem, rfl⟩, hl.indexed.id_of_lookup hu⟩

/-- The tallies of a scope are tallies of its net. -/
theorem Laid.net_tallied (hl : s.Laid) (ht : s.Tallied) : s.net.Tallied where
  finite := by
    apply ((List.range s.size).map fun h => (s.recs h).id).toFinset.finite_toSet.subset
    intro id hid
    obtain ⟨c, hc⟩ := Option.isSome_iff_exists.mp hid
    obtain ⟨h, hh, rfl, -⟩ := hl.exists_of_cell hc
    simp only [List.coe_toFinset, Set.mem_ofPred_eq, List.mem_map, List.mem_range]
    exact ⟨h, hl.indexed.lt_size h hh, rfl⟩
  ends := by
    intro a b x hedge
    obtain ⟨u, w, hu, hw, -⟩ := (hl.edge_iff a b x).mp hedge
    simp [net, hu, hw]
  unsatisfied_eq := by
    intro id c hc
    obtain ⟨h, hh, rfl, rfl⟩ := hl.exists_of_cell hc
    have hset : {a | s.net.edge a (s.recs h).id = some false} = (s.openSources h).toFinset := by
      simp [hl.mem_openSources hh]
    have hcount := ht.count_eq h .unsatisfied
    rw [tally] at hcount
    simp only [edgeOutcome_eq_unsatisfied] at hcount
    rw [hset, Set.ncard_coe_finset, List.toFinset_card_of_nodup (hl.openSources_nodup h),
      openSources, List.length_map, ← List.countP_eq_length_filter]
    exact hcount

/-- No other node has lost its rule already. -/
def CalmBut (s : Scope) (root : ℕ) : Prop :=
  ∀ h, s.Alive h → h ≠ root → (s.recs h).phase = .blocked ∨ (s.recs h).phase = .ready →
    (s.recs h).deps.unsatisfiable (s.recs h).trigger = false

theorem Laid.net_calm (hl : s.Laid) {root : ℕ} (hcalm : s.CalmBut root) :
    s.net.Calm (s.recs root).id := by
  intro id c hc hne hdoomed
  obtain ⟨h, hh, rfl, rfl⟩ := hl.exists_of_cell hc
  have hroot : h ≠ root := fun heq => hne (by rw [heq])
  have hlost : (s.recs h).deps.unsatisfiable (s.recs h).trigger = true := hdoomed.2
  rw [hcalm h hh hroot hdoomed.1] at hlost
  cases hlost

end Tally

/-! ## Confluence -/

theorem Laid.reorder {s : Scope} (hl : s.Laid) {succ : ℕ → List ℕ}
    (hperm : ∀ h, (succ h).Perm (s.succ h)) : { s with succ := succ }.Laid where
  indexed := hl.indexed.congr rfl rfl rfl rfl
  mirrored := by
    refine ⟨?_, hl.mirrored.dead_pred, ?_, hl.mirrored.sources_nodup, ?_⟩
    · intro h hh
      have hnil := hperm h
      rw [hl.mirrored.dead_succ h hh] at hnil
      exact hnil.eq_nil
    · intro h
      exact (hperm h).nodup_iff.mpr (hl.mirrored.succ_nodup h)
    · intro u v
      rw [(hperm u).mem_iff]
      exact hl.mirrored.mem_succ u v

/-- The counters of the net and the two flags are all there is to the statistics. -/
theorem stats_eq {s s' : Scope} (hnet : s'.net = s.net)
    (hflags : s'.stats.isSealed = s.stats.isSealed ∧ s'.stats.complete = s.stats.complete) :
    s'.stats = s.stats := by
  have hcount : ∀ b, s'.net.count b = s.net.count b := fun b => by rw [hnet]
  have htotal : s'.net.total = s.net.total := by rw [hnet]
  have h₁ := hcount .blocked
  have h₂ := hcount .scheduled
  have h₃ := hcount .ready
  have h₄ := hcount .inProgress
  have h₅ := hcount .succeeded
  have h₆ := hcount .failed
  simp only [net, counterOf, counter] at h₁ h₂ h₃ h₄ h₅ h₆ htotal
  cases hs : s.stats
  cases hs' : s'.stats
  simp_all

/-- Two scopes that say the same of a node say so in its record. -/
theorem recs_eq {s s' : Scope} (hl : s.Laid) (hl' : s'.Laid) (hnet : s'.net = s.net) {h : ℕ}
    (hh : s.Alive h) (hh' : s'.Alive h) (hid : (s'.recs h).id = (s.recs h).id) :
    cellOf (s'.recs h) = cellOf (s.recs h) := by
  have hcell := hl'.cell hh'
  rw [hid, hnet, hl.cell hh] at hcell
  exact (Option.some.inj hcell).symm

/-- **The cascade is confluent.**  From a scope whose tallies are right and in which no node
but the root has lost its rule, every terminal outcome of the root leads to the same nodes
and the same statistics, in whatever order the successor lists are visited. -/
theorem terminate_confluent {s : Scope} (hl : s.Laid) (ht : s.Tallied) {succ : ℕ → List ℕ}
    (hperm : ∀ h, (succ h).Perm (s.succ h)) {root : ℕ} (hroot : s.Alive root)
    (hopen : (s.recs root).phase ≠ .done) (hcalm : s.CalmBut root) (status : Status)
    (reason : Reason) (msg : String) (out out' : List Effect) :
    (s.terminate root status reason msg out).All fun r =>
      ({ s with succ := succ }.terminate root status reason msg out').All
        fun r' : Scope × List Effect =>
        r'.1.stats = r.1.stats ∧
        ∀ h, s.Alive h →
          (r'.1.recs h).phase = (r.1.recs h).phase ∧
          (r'.1.recs h).status = (r.1.recs h).status ∧
          (r'.1.recs h).reason = (r.1.recs h).reason ∧
          (r'.1.recs h).message = (r.1.recs h).message ∧
          (r'.1.recs h).deps = (r.1.recs h).deps := by
  refine (terminate_net hl hroot).mono ?_
  rintro r ⟨hk, hd⟩
  refine (terminate_net (hl.reorder hperm) hroot).mono ?_
  rintro r' ⟨hk', hd'⟩
  have hnet : r'.1.net = r.1.net :=
    hd'.unique (hl.net_tallied ht) (hl.net_calm hcalm) (hl.cell hroot) hopen hd
  constructor
  · apply stats_eq hnet
    exact ⟨hk'.flags.1.trans hk.flags.1.symm, hk'.flags.2.trans hk.flags.2.symm⟩
  intro h hh
  have hh₁ : r.1.Alive h := (hk.cascades.alive h).trans hh
  have hh₂ : r'.1.Alive h := (hk'.cascades.alive h).trans hh
  have hid : (r'.1.recs h).id = (r.1.recs h).id :=
    (hk'.cascades.id h).trans (hk.cascades.id h).symm
  have hcell := recs_eq hk.laid hk'.laid hnet hh₁ hh₂ hid
  exact ⟨congrArg Cell.phase hcell, congrArg Cell.status hcell, congrArg Cell.reason hcell,
    congrArg Cell.message hcell, congrArg Cell.deps hcell⟩

/-! ## A fork -/

/-- A node that is ready, and two that wait for it. -/
def fork : Scope :=
  { name := "jobs"
    cfg := {}
    logCap := 8
    size := 3
    index := ((∅ : GoMap NodeID ℕ).insert "a" 0).insert "b" 1 |>.insert "c" 2
    recs := fun h =>
      if h = 0 then { id := "a", phase := .ready, alive := true }
      else if h = 1 then { id := "b", deps := { unsatisfied := 1 }, alive := true }
      else if h = 2 then { id := "c", deps := { unsatisfied := 1 }, alive := true }
      else {}
    succ := fun h => if h = 0 then [1, 2] else []
    pred := fun h => if h = 1 ∨ h = 2 then [⟨0, false⟩] else []
    stats := { total := 3, blocked := 2, ready := 1 } }

theorem fork_alive (h : ℕ) : fork.Alive h ↔ h = 0 ∨ h = 1 ∨ h = 2 := by
  by_cases h₀ : h = 0
  · simp [Alive, fork, h₀]
  · by_cases h₁ : h = 1
    · simp [Alive, fork, h₁]
    · by_cases h₂ : h = 2 <;> simp [Alive, fork, h₀, h₁, h₂]

theorem fork_lookup (id : NodeID) :
    fork.lookup id =
      if id = "c" then some 2 else if id = "b" then some 1 else if id = "a" then some 0
      else none := by
  by_cases hc : id = "c"
  · subst hc
    rfl
  by_cases hb : id = "b"
  · subst hb
    rfl
  by_cases ha : id = "a"
  · subst ha
    rfl
  · simp [lookup, fork, AList.lookup_insert_ne, ha, hb, hc, -AList.insert_empty]

theorem fork_laid : fork.Laid where
  indexed := by
    constructor
    case lookup_iff =>
      intro id h
      rw [fork_alive, fork_lookup]
      constructor
      · intro hl
        split_ifs at hl with hc hb ha <;> simp at hl <;> subst hl <;> simp_all [fork]
      · rintro ⟨rfl | rfl | rfl, rfl⟩ <;> simp [fork]
    case free_nodup =>
      exact List.nodup_nil
    case mem_free =>
      intro h
      rw [fork_alive]
      simp [fork]
      omega
    case lt_size =>
      intro h hh
      rw [fork_alive] at hh
      simp [fork]
      omega
    case dead =>
      intro h hh
      rw [fork_alive] at hh
      simp only [not_or] at hh
      simp [fork, hh]
  mirrored := by
    constructor
    case dead_succ =>
      intro h hh
      rw [fork_alive, not_or] at hh
      simp [fork, hh.1]
    case dead_pred =>
      intro h hh
      rw [fork_alive, not_or] at hh
      simp [fork, hh.2]
    case succ_nodup =>
      intro h
      by_cases h₀ : h = 0 <;> simp [fork, h₀]
    case sources_nodup =>
      intro h
      by_cases h₁ : h = 1 ∨ h = 2 <;> simp [sources, fork, h₁]
    case mem_succ =>
      intro u v
      by_cases hu : u = 0 <;> by_cases hv : v = 1 ∨ v = 2 <;> simp [sources, fork, hu, hv]

theorem fork_tallied : fork.Tallied where
  satisfied_done v e he hs := by
    by_cases hv : v = 1 ∨ v = 2
    · simp only [fork, if_pos hv, List.mem_singleton] at he
      subst he
      cases hs
    · simp [fork, hv] at he
  count_eq v o := by
    by_cases h₁ : v = 1
    · subst h₁
      cases o <;> rfl
    by_cases h₂ : v = 2
    · subst h₂
      cases o <;> rfl
    have hdeps : (fork.recs v).deps = {} := by
      by_cases h₀ : v = 0 <;> simp [fork, h₀, h₁, h₂]
    have hpred : fork.pred v = [] := by simp [fork, h₁, h₂]
    rw [hdeps, tally, hpred]
    cases o <;> rfl
  suppressed_eq := rfl

theorem fork_calm : fork.CalmBut 0 := by
  intro h hh hne hphase
  rcases (fork_alive h).mp hh with rfl | rfl | rfl
  · exact absurd rfl hne
  · rfl
  · rfl

/-- The failure of a fork reaches both branches, whichever is told first. -/
theorem fork_confluent :
    ∃ r r' : Scope × List Effect,
      (fork.terminate 0 .error .workerError "boom" []).Yields r ∧
      ({ fork with succ := fun h => if h = 0 then [2, 1] else [] }.terminate 0 .error
        .workerError "boom" []).Yields r' ∧
      r.1.stats.failed = 3 ∧ r'.1.stats = r.1.stats ∧
      (r.1.recs 2).reason = .upstreamFailed ∧ (r'.1.recs 2).reason = (r.1.recs 2).reason := by
  have hrun : ((fork.terminate 0 .error .workerError "boom" []).run
      [1, 2, 3, 4, 5, 6, 7, 8] []).any fun r =>
        r.1.stats.failed = 3 ∧ (r.1.recs 2).reason = .upstreamFailed := by
    decide +kernel
  obtain ⟨r, hr, hfacts⟩ := (Option.any_eq_true _ _).mp hrun
  obtain ⟨hfailed, hreason⟩ := of_decide_eq_true hfacts
  obtain ⟨r', hr'⟩ := Prog.exists_yields
    ({ fork with succ := fun h => if h = 0 then [2, 1] else [] }.terminate 0 .error
      .workerError "boom" [])
  have hperm : ∀ h, (if h = 0 then [2, 1] else [] : List ℕ).Perm (fork.succ h) := by
    intro h
    by_cases h₀ : h = 0
    · simpa [fork, h₀] using List.Perm.swap 1 2 []
    · simp [fork, h₀]
  have hall := terminate_confluent fork_laid fork_tallied hperm rfl (by decide) fork_calm
    .error .workerError "boom" [] []
  have hagree := (hall.of_yields (Prog.yields_of_run hr)).of_yields hr'
  exact ⟨r, r', Prog.yields_of_run hr, hr', hfailed, hagree.1, hreason,
    (hagree.2 2 rfl).2.2.1⟩

end DagWorker.Memory.Scope
