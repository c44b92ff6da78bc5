import DagWorker.Postgres.Cascade
import Mathlib.Data.List.Induction

/-!
# Settling from a snapshot

`settleTouched` reads all rows at once and reads a row again only after some settle has
reached another node.  Until then only rows that a failing node told about its failure can
have changed, so the tallies have a closed form in the rows read at first.  From it follows
when the snapshot decides differently from a fresh read.
-/

namespace DagWorker.Postgres.Engine

variable {w : ℕ}

/-! ## Tallies under failures -/

/-- The outcomes a failing node reports. -/
def Adverse (o : DepCounts.Outcome) : Prop := o = .failed ∨ o = .skipped

theorem adverse_ofTerminal (reason : Reason) : Adverse (.ofTerminal .error reason) := by
  by_cases h : reason = .skipped <;> simp [Adverse, DepCounts.Outcome.ofTerminal, h]

section Rules

variable {d : DepCounts} {t : TriggerRule} {o : DepCounts.Outcome}

theorem decr_unsatisfied (d : DepCounts) :
    d.decr .unsatisfied = { d with unsatisfied := d.unsatisfied - 1 } := by
  obtain ⟨u, s, k, f⟩ := d
  cases u <;> simp [DepCounts.decr, DepCounts.count, DepCounts.setCount]

theorem resolve_failed (d : DepCounts) : resolve d .failed =
    { d with unsatisfied := d.unsatisfied - 1, failed := d.failed + 1 } := by
  rw [resolve, decr_unsatisfied]
  rfl

theorem resolve_skipped (d : DepCounts) : resolve d .skipped =
    { d with unsatisfied := d.unsatisfied - 1, skipped := d.skipped + 1 } := by
  rw [resolve, decr_unsatisfied]
  rfl

theorem unsatisfied_resolve (ho : Adverse o) :
    (resolve d o).unsatisfied = d.unsatisfied - 1 := by
  rcases ho with rfl | rfl
  · rw [resolve_failed]
  · rw [resolve_skipped]

/-- An unsatisfiable rule stays so. -/
theorem unsatisfiable_resolve (ho : Adverse o) (h : d.unsatisfiable t = true) :
    (resolve d o).unsatisfiable t = true := by
  rcases ho with rfl | rfl
  · rw [resolve_failed]
    cases t <;> simp_all [DepCounts.unsatisfiable]
  · rw [resolve_skipped]
    cases t <;> simp_all [DepCounts.unsatisfiable]
    omega

/-- A satisfied rule stays so or becomes unsatisfiable. -/
theorem ready_resolve (ho : Adverse o) (h : d.ready t = true)
    (hunsat : (resolve d o).unsatisfiable t = false) : (resolve d o).ready t = true := by
  rcases ho with rfl | rfl
  · rw [resolve_failed] at hunsat ⊢
    cases t <;> simp_all [DepCounts.unsatisfiable, DepCounts.ready]
  · rw [resolve_skipped] at hunsat ⊢
    cases t <;> simp_all [DepCounts.unsatisfiable, DepCounts.ready]

end Rules

/-! ## Closed forms in the rows read at first -/

/-- Settling the row terminates it. -/
def failing (r : NodeRow) : Bool :=
  decide (Listening r) && r.deps.unsatisfiable r.trigger

/-- The phase settling the row leads to. -/
def settledPhase (r : NodeRow) : Phase :=
  if ¬ Listening r then r.phase
  else if r.deps.unsatisfiable r.trigger then .done
  else if r.deps.ready r.trigger then .ready
  else .blocked

/-- Node `u` fails when it is settled, and `w` waits for it. -/
def hits (e : Engine) (u w : ℕ) : Bool :=
  (e.rows.lookup u).any failing && decide (e.edges.lookup (u, w) = some false)

/-- What `u` reports to its successors when it fails. -/
def reportOf (e : Engine) (u : ℕ) : DepCounts.Outcome :=
  .ofTerminal .error (e.depsOf u).terminalReason

/-- The tally of `w`, once `d`, after the nodes `pre` have been settled and have
reached no other node. -/
def tallyAfter (e : Engine) (pre : List ℕ) (w : ℕ) (d : DepCounts) : DepCounts :=
  pre.foldl (fun d u => if e.hits u w then resolve d (e.reportOf u) else d) d

/-- The phase of `w`, whose row is `r`, after the nodes `pre` have been settled and
have reached no other node. -/
def phaseAfter (pre : List ℕ) (w : ℕ) (r : NodeRow) : Phase :=
  if w ∈ pre then settledPhase r else r.phase

/-- Settling `u` after `pre` reaches another node: it fails, and the rule of a
successor that waits for it becomes unsatisfiable, or satisfied while it is
blocked. -/
def Reaches (e : Engine) (pre : List ℕ) (u : ℕ) : Prop :=
  ∃ r, e.rows.lookup u = some r ∧ failing r = true ∧
    ∃ w s, w ≠ u ∧ e.edges.lookup (u, w) = some false ∧ e.rows.lookup w = some s ∧
      (phaseAfter pre w s = .blocked ∨ phaseAfter pre w s = .ready) ∧
        ((e.tallyAfter (pre ++ [u]) w s.deps).unsatisfiable s.trigger = true ∨
          (e.tallyAfter (pre ++ [u]) w s.deps).ready s.trigger = true ∧
            phaseAfter pre w s = .blocked)

/-- The snapshot of `v` is out of date after `pre`: a claimable node whose rule was
undecided has it satisfied by failures among `pre`. -/
def Misled (e : Engine) (pre : List ℕ) (v : ℕ) : Prop :=
  ∃ r, e.rows.lookup v = some r ∧ r.phase = .ready ∧
    r.deps.unsatisfiable r.trigger = false ∧ r.deps.ready r.trigger = false ∧
      (e.tallyAfter pre v r.deps).ready r.trigger = true

/-- Before a snapshot is out of date, some settle has reached another node. -/
def Faithful (e : Engine) (ids : List ℕ) : Prop :=
  ∀ pre v post, ids = pre ++ v :: post → e.Misled pre v →
    ∃ a u b, pre = a ++ u :: b ∧ e.Reaches a u

/-- What the unique key on node identifiers, the foreign key of the edges and the
statements that link and unlink them guarantee. -/
structure WellFormed (e : Engine) : Prop where
  nodeID_inj : ∀ u w r s, e.rows.lookup u = some r → e.rows.lookup w = some s →
    r.nodeID = s.nodeID → u = w
  targeted : e.Targeted
  unsatisfied_eq : ∀ v r, e.rows.lookup v = some r → r.deps.unsatisfied =
    (e.edges.keys.filter fun k => k.2 = v ∧ e.edges.lookup k = some false).length

/-! ## The state before another node is reached -/

section Snoc

variable {e : Engine} {pre : List ℕ} {u w : ℕ} {d : DepCounts}

theorem tallyAfter_snoc : e.tallyAfter (pre ++ [u]) w d =
    if e.hits u w then resolve (e.tallyAfter pre w d) (e.reportOf u)
    else e.tallyAfter pre w d := by
  rw [tallyAfter, List.foldl_append]
  rfl

theorem adverse_reportOf : Adverse (e.reportOf u) :=
  adverse_ofTerminal _

end Snoc

/-- The engine `e` after the nodes `pre` have been settled from `e₀` without
reaching another node. -/
structure Tracks (e₀ : Engine) (pre : List ℕ) (e : Engine) : Prop where
  row : ∀ x r₀, e₀.rows.lookup x = some r₀ → ∃ r, e.rows.lookup x = some r ∧
    r.nodeID = r₀.nodeID ∧ r.trigger = r₀.trigger ∧ r.deps = e₀.tallyAfter pre x r₀.deps ∧
    r.phase = phaseAfter pre x r₀ ∧ (x ∉ pre → r = { r₀ with deps := r.deps })
  absent : ∀ x, e₀.rows.lookup x = none → e.rows.lookup x = none
  edge : ∀ u w, e.edges.lookup (u, w) =
    if u ∈ pre ∧ e₀.hits u w = true then some true else e₀.edges.lookup (u, w)
  -- a row that was told something has not reacted to it
  calm : ∀ x r₀, x ∉ pre → e₀.rows.lookup x = some r₀ → Listening r₀ →
    e₀.tallyAfter pre x r₀.deps = r₀.deps ∨
      (r₀.deps.unsatisfiable r₀.trigger = false ∧
        (e₀.tallyAfter pre x r₀.deps).unsatisfiable r₀.trigger = false ∧
        (r₀.deps.ready r₀.trigger = true →
          (e₀.tallyAfter pre x r₀.deps).ready r₀.trigger = true) ∧
        (r₀.phase = .blocked → (e₀.tallyAfter pre x r₀.deps).ready r₀.trigger = false))

theorem Tracks.refl (e : Engine) : Tracks e [] e where
  row := fun x r hr => ⟨r, hr, rfl, rfl, rfl, by simp [phaseAfter], fun _ => rfl⟩
  absent := fun _ h => h
  edge := by simp
  calm := fun _ _ _ _ _ => .inl rfl

/-- `settle` looks at the tally only through the two tests and the reason of a
failure. -/
theorem settle_congr {e : Engine} {srv : Server} {id : ℕ} {n : NodeRow} {d : DepCounts}
    (h : Listening n → n.deps.unsatisfiable n.trigger = false ∧
      d.unsatisfiable n.trigger = false ∧ d.ready n.trigger = n.deps.ready n.trigger) :
    e.settle srv id { n with deps := d } = e.settle srv id n := by
  by_cases hl : Listening n
  · obtain ⟨hu, hu', hr⟩ := h hl
    simp only [settle, hu, hu', hr, Bool.false_eq_true, if_false]
    rfl
  · have hphase := not_or.mp hl
    rw [settle, settle, if_pos hphase, if_pos hphase]

section Step

variable {e₀ e : Engine} {pre : List ℕ} {v : ℕ} {r₀ r : NodeRow} {srv : Server}

/-- A row that was not settled yet differs from the snapshot in its tally. -/
theorem Tracks.row_eq (ht : Tracks e₀ pre e) (hv : v ∉ pre) (hr₀ : e₀.rows.lookup v = some r₀) :
    e.rows.lookup v = some { r₀ with deps := e₀.tallyAfter pre v r₀.deps } := by
  obtain ⟨r, hr, -, -, hdeps, -, hsame⟩ := ht.row v r₀ hr₀
  rw [hr, hsame hv, hdeps]

/-- The snapshot decides like a fresh read unless it is out of date. -/
theorem Tracks.settle_snapshot (ht : Tracks e₀ pre e) (hv : v ∉ pre)
    (hr₀ : e₀.rows.lookup v = some r₀) (hmis : ¬ e₀.Misled pre v) :
    e.settle srv v { r₀ with deps := e₀.tallyAfter pre v r₀.deps } = e.settle srv v r₀ := by
  by_cases heq : e₀.tallyAfter pre v r₀.deps = r₀.deps
  · rw [heq]
  refine settle_congr fun hl => ?_
  obtain ⟨hu, hu', hready, hblocked⟩ := (ht.calm v r₀ hv hr₀ hl).resolve_left heq
  refine ⟨hu, hu', ?_⟩
  rcases hl with hp | hp
  · -- blocked: satisfied before would be satisfied now, and the cascade would have seen it
    have hnow := hblocked hp
    rw [hnow, eq_comm, Bool.eq_false_iff]
    intro h
    rw [hready h] at hnow
    cases hnow
  · cases hb : r₀.deps.ready r₀.trigger with
    | true => exact hready hb
    | false =>
      rw [Bool.eq_false_iff]
      exact fun h => hmis ⟨r₀, hr₀, hp, hu, hb, h⟩

/-- A failing node has been told nothing. -/
theorem Tracks.tally_of_failing (ht : Tracks e₀ pre e) (hv : v ∉ pre)
    (hr₀ : e₀.rows.lookup v = some r₀) (hfail : failing r₀ = true) :
    e₀.tallyAfter pre v r₀.deps = r₀.deps := by
  rw [failing, Bool.and_eq_true, decide_eq_true_eq] at hfail
  refine (ht.calm v r₀ hv hr₀ hfail.1).resolve_right fun h => ?_
  rw [h.1] at hfail
  cases hfail.2

theorem hits_of_not_failing (hr₀ : e₀.rows.lookup v = some r₀) (hfail : failing r₀ = false) :
    e₀.hits v w = false := by
  simp [hits, hr₀, hfail]

theorem hits_of_failing (hr₀ : e₀.rows.lookup v = some r₀) (hfail : failing r₀ = true) :
    e₀.hits v w = true ↔ e₀.edges.lookup (v, w) = some false := by
  simp [hits, hr₀, hfail]

theorem phaseAfter_snoc_of_ne {x : ℕ} (hx : x ≠ v) :
    phaseAfter (pre ++ [v]) x r = phaseAfter pre x r := by
  simp [phaseAfter, hx]

/-- A settle that changes at most its own row. -/
theorem Tracks.own {e' : Engine} (ht : Tracks e₀ pre e) (hhits : ∀ w, e₀.hits v w = false)
    (hedges : e'.edges = e.edges) (hother : ∀ x, x ≠ v → e'.rows.lookup x = e.rows.lookup x)
    (hnone : e₀.rows.lookup v = none → e'.rows.lookup v = none)
    (hself : ∀ r₀, e₀.rows.lookup v = some r₀ → ∃ r', e'.rows.lookup v = some r' ∧
      r'.nodeID = r₀.nodeID ∧ r'.trigger = r₀.trigger ∧
      r'.deps = e₀.tallyAfter pre v r₀.deps ∧ r'.phase = settledPhase r₀) :
    Tracks e₀ (pre ++ [v]) e' := by
  have htally : ∀ x d, e₀.tallyAfter (pre ++ [v]) x d = e₀.tallyAfter pre x d := by
    intro x d
    rw [tallyAfter_snoc, hhits]
    rfl
  refine ⟨fun x s₀ hs₀ => ?_, fun x hx => ?_, fun u w => ?_, fun x s₀ hx hs₀ hl => ?_⟩
  · rw [htally]
    by_cases hxv : x = v
    · subst hxv
      obtain ⟨r', hr', hid, htrigger, hdeps, hphase⟩ := hself s₀ hs₀
      refine ⟨r', hr', hid, htrigger, hdeps, ?_, fun h => absurd (by simp) h⟩
      rw [hphase, phaseAfter, if_pos (by simp)]
    · obtain ⟨s, hs, hid, htrigger, hdeps, hphase, hsame⟩ := ht.row x s₀ hs₀
      refine ⟨s, (hother x hxv).trans hs, hid, htrigger, hdeps, ?_, fun h => hsame ?_⟩
      · rw [hphase, phaseAfter_snoc_of_ne hxv]
      · exact fun hm => h (List.mem_append_left _ hm)
  · by_cases hxv : x = v
    · exact hxv ▸ hnone (hxv ▸ hx)
    · exact (hother x hxv).trans (ht.absent x hx)
  · rw [hedges, ht.edge]
    by_cases huv : u = v
    · simp [huv, hhits]
    · simp [huv]
  · rw [htally]
    exact ht.calm x s₀ (fun hm => hx (List.mem_append_left _ hm)) hs₀ hl

/-- A node that does not fail is settled without reaching another. -/
theorem Tracks.settle_own (ht : Tracks e₀ pre e) (hv : v ∉ pre)
    (hr₀ : e₀.rows.lookup v = some r₀) (hfail : failing r₀ = false) :
    (∀ ef ∈ (e.settle srv v r₀).2, ef.nodeID = r₀.nodeID) ∧
      Tracks e₀ (pre ++ [v]) (e.settle srv v r₀).1 := by
  have hrow := ht.row_eq hv hr₀
  have hown : ∀ {e' : Engine} {r' : NodeRow}, e'.edges = e.edges →
      (∀ x, x ≠ v → e'.rows.lookup x = e.rows.lookup x) → e'.rows.lookup v = some r' →
      r'.nodeID = r₀.nodeID → r'.trigger = r₀.trigger →
      r'.deps = e₀.tallyAfter pre v r₀.deps → r'.phase = settledPhase r₀ →
      Tracks e₀ (pre ++ [v]) e' := by
    intro e' r' hedges hother hr' hid htrigger hdeps hphase
    refine ht.own (fun w => hits_of_not_failing hr₀ hfail) hedges hother (by simp [hr₀]) ?_
    intro s₀ hs₀
    rw [hr₀, Option.some.injEq] at hs₀
    exact hs₀ ▸ ⟨r', hr', hid, htrigger, hdeps, hphase⟩
  have hstay : r₀.phase = settledPhase r₀ → Tracks e₀ (pre ++ [v]) e := fun hphase =>
    hown rfl (fun _ _ => rfl) hrow rfl rfl rfl hphase
  by_cases hl : Listening r₀
  · have hunsat : r₀.deps.unsatisfiable r₀.trigger = false := by simpa [failing, hl] using hfail
    rw [settle, if_neg (not_quiet_of_listening hl), hunsat]
    simp only [Bool.false_eq_true, if_false]
    by_cases hready : r₀.deps.ready r₀.trigger = true
    · have hset : settledPhase r₀ = .ready := by simp [settledPhase, hl, hunsat, hready]
      rw [if_pos hready]
      by_cases hp : r₀.phase = .ready
      · rw [if_neg (not_not.mpr hp)]
        exact ⟨by simp, hstay (hp.trans hset.symm)⟩
      rw [if_pos hp]
      have hnew : (e.makeReady srv v r₀).2.rows.lookup v = some (readied (srv.fifo e.fifos)
          { r₀ with deps := e₀.tallyAfter pre v r₀.deps }) := by
        rw [makeReady_lookup, if_pos rfl, hrow]
        rfl
      exact ⟨by simp [makeReady_nodeID], hown (makeReady_edges e srv v r₀)
        (fun x hx => by rw [makeReady_lookup, if_neg hx]) hnew rfl rfl rfl hset.symm⟩
    · have hset : settledPhase r₀ = .blocked := by simp [settledPhase, hl, hunsat, hready]
      rw [if_neg hready]
      by_cases hp : r₀.phase = .blocked
      · rw [if_neg (not_not.mpr hp)]
        exact ⟨by simp, hstay (hp.trans hset.symm)⟩
      rw [if_pos hp]
      have hnew : (e.makeBlocked v r₀).rows.lookup v = some { r₀ with
          deps := e₀.tallyAfter pre v r₀.deps, phase := .blocked, status := .new } := by
        rw [makeBlocked_lookup, if_pos rfl, hrow]
        rfl
      exact ⟨by simp, hown (makeBlocked_edges e v r₀)
        (fun x hx => by rw [makeBlocked_lookup, if_neg hx]) hnew rfl rfl rfl hset.symm⟩
  · rw [settle, if_pos (not_or.mp hl)]
    exact ⟨by simp, hstay (by simp [settledPhase, hl])⟩

theorem phase_ne_done_of_failing (hfail : failing r₀ = true) : r₀.phase ≠ .done := by
  rw [failing, Bool.and_eq_true, decide_eq_true_eq] at hfail
  rcases hfail.1 with h | h <;> rw [h] <;> simp

theorem settle_of_failing (hfail : failing r₀ = true) :
    e.settle srv v r₀ = e.terminate srv v .error r₀.deps.terminalReason
      (terminalMessage r₀.deps.terminalReason) := by
  rw [failing, Bool.and_eq_true, decide_eq_true_eq] at hfail
  rw [settle, if_neg (not_quiet_of_listening hfail.1), if_pos hfail.2]

section

variable (ht : Tracks e₀ pre e)
include ht

/-- The tally of a successor once the failing node has told it. -/
theorem Tracks.told_deps {s₀ s : NodeRow} (hr₀ : e₀.rows.lookup v = some r₀)
    (hfail : failing r₀ = true) (hopen : e₀.edges.lookup (v, w) = some false)
    (hs₀ : e₀.rows.lookup w = some s₀) (hs : e.rows.lookup w = some s) :
    (told .error r₀.deps.terminalReason s).deps = e₀.tallyAfter (pre ++ [v]) w s₀.deps := by
  obtain ⟨s', hs', -, -, hdeps, -⟩ := ht.row w s₀ hs₀
  obtain rfl := Option.mem_unique hs hs'
  rw [tallyAfter_snoc, if_pos ((hits_of_failing hr₀ hfail).mpr hopen), told, hdeps, reportOf,
    depsOf, hr₀]

/-- A successor reacts to the failure exactly if the failure reaches it. -/
theorem Tracks.reaches_iff (hv : v ∉ pre) (hr₀ : e₀.rows.lookup v = some r₀)
    (hfail : failing r₀ = true) :
    e₀.Reaches pre v ↔ ∃ w s, w ≠ v ∧ e.rows.lookup w = some s ∧
      e.edges.lookup (v, w) = some false ∧ ¬ Quietly .error r₀.deps.terminalReason s := by
  have hedge : ∀ w, e.edges.lookup (v, w) = e₀.edges.lookup (v, w) := fun w => by
    rw [ht.edge, if_neg fun h => hv h.1]
  constructor
  · rintro ⟨r, hr, -, w, s₀, hne, hopen, hs₀, hphase, hreact⟩
    obtain ⟨s, hs, -, htrigger, -, hphase', -⟩ := ht.row w s₀ hs₀
    refine ⟨w, s, hne, hs, (hedge w).trans hopen, fun hquiet => ?_⟩
    obtain ⟨hunsat, hready⟩ := hquiet (by rw [Listening, hphase']; exact hphase)
    rw [ht.told_deps hr₀ hfail hopen hs₀ hs, htrigger] at hunsat hready
    rcases hreact with h | ⟨h, hp⟩
    · rw [h] at hunsat
      cases hunsat
    · have := hready h
      rw [hphase', hp] at this
      cases this
  · rintro ⟨w, s, hne, hs, hopen, hreact⟩
    rw [hedge] at hopen
    cases hs₀ : e₀.rows.lookup w with
    | none =>
      rw [ht.absent w hs₀] at hs
      cases hs
    | some s₀ =>
      obtain ⟨s', hs', -, htrigger, -, hphase, -⟩ := ht.row w s₀ hs₀
      obtain rfl := Option.mem_unique hs hs'
      rw [Quietly, Classical.not_imp, ht.told_deps hr₀ hfail hopen hs₀ hs, htrigger,
        Listening, hphase, not_and_or, Classical.not_imp, Bool.not_eq_false] at hreact
      obtain ⟨hlisten, hreact⟩ := hreact
      refine ⟨r₀, hr₀, hfail, w, s₀, hne, hopen, hs₀, hlisten, hreact.imp id fun h => ?_⟩
      exact ⟨h.1, hlisten.resolve_right h.2⟩

theorem Tracks.targeted (h₀ : e₀.Targeted) : e.Targeted := by
  intro u w b hl
  have hrow : (e₀.rows.lookup w).isSome := by
    rw [ht.edge] at hl
    split at hl
    · rename_i h
      rw [hits, Bool.and_eq_true, decide_eq_true_eq] at h
      exact h₀ u w false h.2.2
    · exact h₀ u w b hl
  obtain ⟨r, hr⟩ := Option.isSome_iff_exists.mp hrow
  obtain ⟨r', hr', -⟩ := ht.row w r hr
  rw [hr']
  rfl

/-- The failing node has told its successors, and none reacted. -/
theorem Tracks.ends {e' : Engine} (hv : v ∉ pre) (hr₀ : e₀.rows.lookup v = some r₀)
    (hfail : failing r₀ = true)
    (hquiet : ∀ x s, x ≠ v → e.rows.lookup x = some s → e.edges.lookup (v, x) = some false →
      Quietly .error r₀.deps.terminalReason s) (hends : Ends v .error r₀.deps.terminalReason e e')
    (hnone : ∀ x, e.rows.lookup x = none → e'.rows.lookup x = none) :
    Tracks e₀ (pre ++ [v]) e' := by
  have hedge : ∀ w, e.edges.lookup (v, w) = e₀.edges.lookup (v, w) := fun w => by
    rw [ht.edge, if_neg fun h => hv h.1]
  have hhits : ∀ w, e₀.hits v w = true ↔ e₀.edges.lookup (v, w) = some false :=
    fun w => hits_of_failing hr₀ hfail
  refine ⟨fun x s₀ hs₀ => ?_, fun x hx => hnone x (ht.absent x hx), fun u w => ?_,
    fun x s₀ hx hs₀ hl => ?_⟩
  · obtain ⟨s, hs, hid, htrigger, hdeps, hphase, hsame⟩ := ht.row x s₀ hs₀
    obtain ⟨s', hs', hid', htrigger', hdeps', hdone, hsame'⟩ := hends.row x s hs
    refine ⟨s', hs', hid'.trans hid, htrigger'.trans htrigger, ?_, ?_, fun hx => ?_⟩
    · rw [hdeps', hedge]
      by_cases hopen : e₀.edges.lookup (v, x) = some false
      · rw [if_pos hopen]
        exact ht.told_deps hr₀ hfail hopen hs₀ hs
      · rw [if_neg hopen, hdeps, tallyAfter_snoc, if_neg fun h => hopen ((hhits x).mp h)]
    · by_cases hxv : x = v
      · subst hxv
        obtain rfl := Option.mem_unique hr₀ hs₀
        rw [failing, Bool.and_eq_true, decide_eq_true_eq] at hfail
        rw [hdone rfl, phaseAfter, if_pos (by simp)]
        simp [settledPhase, hfail.1, hfail.2]
      · rw [hsame' hxv, phaseAfter_snoc_of_ne hxv]
        exact hphase
    · rw [List.mem_append, not_or, List.mem_singleton] at hx
      rw [hsame' hx.2, hsame hx.1]
  · rw [hends.edge, ht.edge]
    by_cases huv : u = v
    · subst huv
      by_cases hopen : e₀.edges.lookup (u, w) = some false
      · simp [hv, hopen, (hhits w).mpr hopen]
      have : e₀.hits u w = false := by
        rw [Bool.eq_false_iff]
        exact fun h => hopen ((hhits w).mp h)
      simp [hopen, this]
    · simp [huv]
  · rw [List.mem_append, not_or, List.mem_singleton] at hx
    by_cases hopen : e₀.edges.lookup (v, x) = some false
    · -- told just now, without reacting
      have hrow := ht.row_eq hx.1 hs₀
      obtain ⟨hunsat, hready⟩ := hquiet x _ hx.2 hrow ((hedge x).trans hopen) hl
      rw [ht.told_deps hr₀ hfail hopen hs₀ hrow] at hunsat hready
      have hsnoc : e₀.tallyAfter (pre ++ [v]) x s₀.deps =
          resolve (e₀.tallyAfter pre x s₀.deps) (e₀.reportOf v) := by
        rw [tallyAfter_snoc, if_pos ((hhits x).mpr hopen)]
      rw [hsnoc] at hunsat hready ⊢
      refine .inr ⟨?_, hunsat, fun h => ?_, fun hb => ?_⟩
      · rw [Bool.eq_false_iff]
        intro h
        rcases ht.calm x s₀ hx.1 hs₀ hl with heq | ⟨h', -⟩
        · rw [heq, unsatisfiable_resolve adverse_reportOf h] at hunsat
          cases hunsat
        · rw [h] at h'
          cases h'
      · refine ready_resolve adverse_reportOf ?_ hunsat
        rcases ht.calm x s₀ hx.1 hs₀ hl with heq | ⟨-, -, h', -⟩
        · rw [heq]
          exact h
        · exact h' h
      · rw [Bool.eq_false_iff]
        intro h
        have := hready h
        rw [show (s₀.phase = .ready) = (Phase.blocked = .ready) by rw [hb]] at this
        cases this
    · have hsnoc : e₀.tallyAfter (pre ++ [v]) x s₀.deps = e₀.tallyAfter pre x s₀.deps := by
        rw [tallyAfter_snoc, if_neg fun h => hopen ((hhits x).mp h)]
      rw [hsnoc]
      exact ht.calm x s₀ hx.1 hs₀ hl

end

/-- A settle that reaches no other node emits effects that name its own only; one that
does emits an effect that names the other. -/
theorem Tracks.settle_cases (hw : e₀.WellFormed) (ht : Tracks e₀ pre e) (hv : v ∉ pre)
    (hr₀ : e₀.rows.lookup v = some r₀) :
    (¬ e₀.Reaches pre v ∧ (∀ ef ∈ (e.settle srv v r₀).2, ef.nodeID = r₀.nodeID) ∧
        Tracks e₀ (pre ++ [v]) (e.settle srv v r₀).1) ∨
      (e₀.Reaches pre v ∧ ∃ ef ∈ (e.settle srv v r₀).2, ef.nodeID ≠ r₀.nodeID) := by
  cases hfail : failing r₀ with
  | false =>
    refine .inl ⟨?_, ht.settle_own hv hr₀ hfail⟩
    rintro ⟨r, hr, hfail', -⟩
    rw [hr₀, Option.some.injEq] at hr
    rw [hr, hfail'] at hfail
    cases hfail
  | true =>
    have hrow : e.rows.lookup v = some r₀ := by
      rw [ht.row_eq hv hr₀, ht.tally_of_failing hv hr₀ hfail]
    have hreach := ht.reaches_iff hv hr₀ hfail
    have hsome : ∀ x, ((e.settle srv v r₀).1.rows.lookup x).isSome = (e.rows.lookup x).isSome :=
      settle_isSome v r₀
    rw [settle_of_failing hfail] at hsome ⊢
    rcases terminate_cases (ht.targeted hw.targeted) hrow (phase_ne_done_of_failing hfail) with
      ⟨hquiet, e', ef, heq, hid, hends⟩ | ⟨x, s, hxv, hs, hopen, hreact, ef, hef, hid⟩
    · rw [heq] at hsome ⊢
      refine .inl ⟨fun h => ?_, by simpa using hid,
        ht.ends hv hr₀ hfail hquiet hends fun x hx => ?_⟩
      · obtain ⟨x, s, hx, hs, hopen, hreact⟩ := hreach.mp h
        exact hreact (hquiet x s hx hs hopen)
      · simpa [hx] using hsome x
    · refine .inr ⟨hreach.mpr ⟨x, s, hxv, hs, hopen, hreact⟩, ef, hef, fun heq => hxv ?_⟩
      cases hs₀ : e₀.rows.lookup x with
      | none =>
        rw [ht.absent x hs₀] at hs
        cases hs
      | some s₀ =>
        obtain ⟨s', hs', hid', -⟩ := ht.row x s₀ hs₀
        obtain rfl := Option.mem_unique hs hs'
        exact hw.nodeID_inj x v s₀ r₀ hs₀ hr₀ (hid'.symm.trans (hid.symm.trans heq))

theorem Tracks.pass (ht : Tracks e₀ pre e) (hr₀ : e₀.rows.lookup v = none) :
    Tracks e₀ (pre ++ [v]) e :=
  ht.own (fun w => by simp [hits, hr₀]) rfl (fun _ _ => rfl) (ht.absent v)
    fun r hr => by simp [hr₀] at hr

theorem tallyAfter_unsatisfied (e : Engine) (pre : List ℕ) (w : ℕ) (d : DepCounts) :
    (e.tallyAfter pre w d).unsatisfied = d.unsatisfied - pre.countP fun u => e.hits u w := by
  induction pre using List.reverseRecOn with
  | nil => simp [tallyAfter]
  | append_singleton pre u ih =>
    rw [tallyAfter_snoc, List.countP_append, List.countP_singleton]
    cases e.hits u w with
    | true =>
      rw [if_pos rfl, if_pos rfl, unsatisfied_resolve adverse_reportOf, ih]
      omega
    | false => simpa using ih

/-- Once its rule is satisfied by failures, nothing can reach the node any more. -/
theorem Tracks.closed_of_misled (hw : e₀.WellFormed) (ht : Tracks e₀ pre e) (hnd : pre.Nodup)
    (hmis : e₀.Misled pre v) : e.Closed v := by
  obtain ⟨r, hr, -, -, hnot, hready⟩ := hmis
  have halways : r.trigger ≠ .always := fun h => by simp [DepCounts.ready, h] at hnot
  have hzero := DepCounts.unsatisfied_eq_zero_of_ready hready halways
  rw [tallyAfter_unsatisfied, hw.unsatisfied_eq v r hr] at hzero
  intro u hopen
  rw [ht.edge] at hopen
  split at hopen
  · cases hopen
  rename_i hnew
  -- the edges that the failures closed, and this one, are all open at first
  have hnodup : ((u, v) :: (pre.filter fun u => e₀.hits u v).map fun u => (u, v)).Nodup := by
    rw [List.nodup_cons]
    refine ⟨fun hm => ?_, (hnd.filter _).map fun a b h => (Prod.mk.inj h).1⟩
    obtain ⟨u', hu', heq⟩ := List.mem_map.mp hm
    rw [(Prod.mk.inj heq).1, List.mem_filter] at hu'
    exact hnew hu'
  have hsub : ((u, v) :: (pre.filter fun u => e₀.hits u v).map fun u => (u, v)) ⊆
      e₀.edges.keys.filter fun k => k.2 = v ∧ e₀.edges.lookup k = some false := by
    have hmem : ∀ a, e₀.edges.lookup (a, v) = some false → (a, v) ∈
        e₀.edges.keys.filter fun k => k.2 = v ∧ e₀.edges.lookup k = some false := by
      intro a ha
      rw [List.mem_filter, ← AList.mem_keys, ← AList.lookup_isSome, ha]
      simp
    intro k hk
    rcases List.mem_cons.mp hk with rfl | hk
    · exact hmem u hopen
    · obtain ⟨a, ha, rfl⟩ := List.mem_map.mp hk
      rw [List.mem_filter, hits, Bool.and_eq_true, decide_eq_true_eq] at ha
      exact hmem a ha.2.2
  have hlen := (List.subperm_of_subset hnodup hsub).length_le
  rw [List.length_cons, List.length_map, ← List.countP_eq_length_filter] at hlen
  omega

end Step

end DagWorker.Postgres.Engine
