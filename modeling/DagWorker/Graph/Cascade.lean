import DagWorker.Graph.Net

/-!
# A cascade has one result

All nodes that fall in one cascade fall with the outcome of its root: a failure is passed
on as a failure and a skip as a skip, and a success makes no rule unsatisfiable.  The nodes
that fall are therefore a least fixed point, and so is what becomes of every other node.
-/

namespace DagWorker

variable {c c₀ : Cell}

/-! ## Tallies under one outcome -/

namespace DepCounts

/-- The tally after `k` more predecessors have resolved, all with one outcome. -/
def bump (d : DepCounts) (o : Outcome) : ℕ → DepCounts
  | 0 => d
  | k + 1 => ((d.bump o k).decr .unsatisfied).incr o

section Bump

variable {d : DepCounts} {o : Outcome} {t : TriggerRule} {k l : ℕ}

theorem bump_eq_resolved : d.bump o k = d.resolved (List.replicate k o) := by
  induction k with
  | zero => rfl
  | succ k ih =>
    rw [bump, ih, List.replicate_succ', resolved, resolved, List.foldl_append]
    rfl

section

variable (ho : o ≠ .unsatisfied)
include ho

theorem bump_eq (hk : k ≤ d.unsatisfied) : d.bump o k =
      { unsatisfied := d.unsatisfied - k
        succeeded := d.succeeded + if o = .succeeded then k else 0
        skipped := d.skipped + if o = .skipped then k else 0
        failed := d.failed + if o = .failed then k else 0 } := by
  have hfinal : Outcome.unsatisfied ∉ List.replicate k o :=
    fun h => ho (List.eq_of_mem_replicate h).symm
  rw [bump_eq_resolved, resolved_eq _ hfinal (by simpa using hk)]
  simp [List.count_replicate]

theorem unsatisfiable_bump_mono (hkl : k ≤ l) (hl : l ≤ d.unsatisfied)
    (h : (d.bump o k).unsatisfiable t = true) : (d.bump o l).unsatisfiable t = true := by
  rw [bump_eq ho (hkl.trans hl)] at h
  rw [bump_eq ho hl]
  cases t <;> cases o <;> simp_all [unsatisfiable] <;> omega

theorem ready_bump_mono (hkl : k < l) (hl : l ≤ d.unsatisfied) (h : (d.bump o k).ready t = true) :
    (d.bump o l).ready t = true := by
  by_cases ht : t = .always
  · simp [ready, ht]
  have hzero := unsatisfied_eq_zero_of_ready h ht
  rw [bump_eq ho (by omega)] at hzero
  simp only at hzero
  omega

end

/-- The reason a rule is lost for, when predecessors resolve with outcome `o`. -/
def lostReason : Outcome → Reason
  | .failed => .upstreamFailed
  | _ => .skipped

/-- A rule that is lost to predecessors of one outcome is lost for the reason that goes
with it, and a success is never that outcome.  A failure is the reason even of a rule that
was lost before. -/
theorem terminalReason_bump (ho : o ≠ .unsatisfied) (hk : k ≤ d.unsatisfied)
    (hpos : k ≠ 0) (hbefore : o = .failed ∨ d.unsatisfiable t = false)
    (h : (d.bump o k).unsatisfiable t = true) :
    (d.bump o k).terminalReason = lostReason o ∧
      Outcome.ofTerminal .error (lostReason o) = o := by
  rw [bump_eq ho hk] at h ⊢
  cases t <;> cases o <;>
    simp_all [unsatisfiable, terminalReason, lostReason, Outcome.ofTerminal, Nat.pos_iff_ne_zero]

end Bump
end DepCounts

namespace Graph

open Function
open DepCounts (Outcome lostReason)

/-! ## One node under one outcome -/

namespace Cell

variable (c) (o : Outcome) (k : ℕ)

/-- A node that has not terminated, after `k` of its predecessors have. -/
def after : Cell :=
  if k = 0 then c else { c with deps := c.deps.bump o k }.promote

theorem promote_eq : c.promote = c ∨ c.phase = .blocked ∧ c.promote = c.release := by
  by_cases h : c.phase = .blocked ∧ c.deps.ready c.trigger = true
  · exact .inr ⟨h.1, if_pos h⟩
  · exact .inl (if_neg h)

/-- What happens to a node before it terminates. -/
theorem after_eq : c.after o k = { c with deps := c.deps.bump o k } ∨
      c.phase = .blocked ∧ c.after o k = { c with deps := c.deps.bump o k }.release := by
  by_cases hk : k = 0
  · left
    simp [after, hk, DepCounts.bump]
  · simp only [after, if_neg hk]
    exact promote_eq _

theorem after_deps : (c.after o k).deps = c.deps.bump o k := by
  rcases c.after_eq o k with h | ⟨-, h⟩
  · rw [h]
  · rw [h]
    rfl

theorem after_trigger : (c.after o k).trigger = c.trigger := by
  rcases c.after_eq o k with h | ⟨-, h⟩
  · rw [h]
  · rw [h]
    rfl

theorem after_waits : (c.after o k).Waits ↔ c.Waits := by
  rcases c.after_eq o k with h | ⟨hb, h⟩
  · rw [h]
    exact Iff.rfl
  · rw [h]
    simp [Waits, release, hb]

theorem after_done : (c.after o k).phase = .done ↔ c.phase = .done := by
  rcases c.after_eq o k with h | ⟨hb, h⟩
  · rw [h]
  · rw [h]
    simp [release, hb]

/-- The verdict on a node replaces whatever it was before. -/
theorem after_finish (v : Verdict) :
    (c.after o k).finish v = { c with deps := c.deps.bump o k }.finish v := by
  rcases c.after_eq o k with h | ⟨-, h⟩
  · rw [h]
  · rw [h]
    rfl

theorem after_succ {c : Cell} {o : Outcome} {k : ℕ} (ho : o ≠ .unsatisfied)
    (hk : k + 1 ≤ c.deps.unsatisfied) : ((c.after o k).resolve o).promote = c.after o (k + 1) := by
  by_cases hzero : k = 0
  · simp [after, hzero, resolve, DepCounts.bump]
  by_cases hr : c.phase = .blocked ∧ (c.deps.bump o k).ready c.trigger = true
  · have hnext := DepCounts.ready_bump_mono ho (Nat.lt_succ_self k) hk hr.2
    simp only [DepCounts.bump] at hnext
    simp [after, hzero, promote, hr, hnext, release, resolve, DepCounts.bump]
  · simp only [after, hzero, promote, hr, resolve, DepCounts.bump, if_false]
    rfl

/-- A predecessor of a terminated node resolves. -/
theorem finish_after_succ (v : Verdict) :
    (((c.after o k).finish v).resolve o).promote = (c.after o (k + 1)).finish v := by
  rw [after_finish, after_finish]
  simp [promote, finish, resolve, DepCounts.bump]

end Cell

namespace Net

variable {N : Type}
variable {g : Net N}

/-- The invariant of the tallies as far as a cascade depends on it: a node counts its open
incoming edges. -/
structure Tallied (g : Net N) : Prop where
  finite : {n | (g.cell n).isSome}.Finite
  ends : ∀ {u w : N} {b : Bool}, g.edge u w = some b → (g.cell u).isSome ∧ (g.cell w).isSome
  unsatisfied_eq : ∀ {w : N} {c : Cell}, g.cell w = some c →
    c.deps.unsatisfied = {u | g.edge u w = some false}.ncard

/-- No node other than `root` has lost its rule already. -/
def Calm (g : Net N) (root : N) : Prop := ∀ w c, g.cell w = some c → w ≠ root → ¬c.Doomed

/-- The verdicts of a cascade from `root` with outcome `o` do not depend on what was lost
before it. -/
def Clear (g : Net N) (root : N) (o : Outcome) : Prop := o = .failed ∨ g.Calm root

theorem Clear.before {root w : N} {o : Outcome} (h : g.Clear root o) (hc : g.cell w = some c)
    (hw : w ≠ root) (hwaits : c.Waits) : o = .failed ∨ c.deps.unsatisfiable c.trigger = false := by
  refine h.imp id fun hcalm => ?_
  by_contra hbad
  exact hcalm w c hc hw ⟨hwaits, by simpa using hbad⟩

/-- The nodes that fall with `root`: those whose rule is lost once some of their
predecessors have fallen. -/
inductive Fallen (g : Net N) (root : N) (o : Outcome) : N → Prop
  | root : Fallen g root o root
  | step {w : N} {c : Cell} {us : Finset N} :
      g.cell w = some c → c.Waits → us.Nonempty → (∀ u ∈ us, Fallen g root o u) →
      (∀ u ∈ us, g.edge u w = some false) →
      (c.deps.bump o us.card).unsatisfiable c.trigger = true → Fallen g root o w

theorem Tallied.finite_open (ht : g.Tallied) (w : N) : {u | g.edge u w = some false}.Finite := by
  apply ht.finite.subset
  intro u hu
  exact (ht.ends hu).1

/-- A node has not been told by more predecessors than it waits for. -/
theorem Tallied.ncard_le (ht : g.Tallied) {w : N} (hc : g.cell w = some c) {us : Set N}
    (hus : ∀ u ∈ us, g.edge u w = some false) : us.ncard ≤ c.deps.unsatisfied := by
  rw [ht.unsatisfied_eq hc]
  exact Set.ncard_le_ncard hus (ht.finite_open w)

section Cascade

variable [DecidableEq N] (say : Reason → String) (g₀ : Net N) (root : N) (v : Verdict)
variable {M : N → Set N} {w u : N}

/-- The verdict every node that falls with `root` gets. -/
def verdictOn (w : N) : Verdict :=
  if w = root then v else ⟨.error, lostReason v.outcome, say (lostReason v.outcome)⟩

open Classical in
/-- The cell of a node when the nodes of `D` have terminated, and those of `M w` have told
it. -/
noncomputable def cellAt (D : Set N) (M : N → Set N) (w : N) : Option Cell :=
  (g₀.cell w).map fun c =>
    if w ∈ D then (c.after v.outcome (M w).ncard).finish (verdictOn say root v w)
    else c.after v.outcome (M w).ncard

/-- A cascade in progress: the nodes of `D` have terminated, the nodes of `M w` have told
`w` about it, and the pairs of `P` may still have to. -/
structure Progress (D : Set N) (M : N → Set N) (P : N → N → Prop) (q : List (N × Verdict))
    (g : Net N) : Prop where
  cell : ∀ w, g.cell w = cellAt say g₀ root v D M w
  edge : ∀ u w, u ∈ M w → g.edge u w = some true
  edge_old : ∀ u w, u ∉ M w → g.edge u w = g₀.edge u w
  told : ∀ u w, u ∈ M w → u ∈ D ∧ g₀.edge u w = some false
  all_told : ∀ u ∈ D, ∀ w, g₀.edge u w = some false → u ∈ M w ∨ P u w
  fallen : ∀ w ∈ D, Fallen g₀ root v.outcome w
  queued : ∀ x ∈ q, Fallen g₀ root v.outcome x.1 ∧ x.2 = verdictOn say root v x.1
  caught : ∀ w c, g₀.cell w = some c → c.Waits → (M w).Nonempty →
    (c.deps.bump v.outcome (M w).ncard).unsatisfiable c.trigger = true →
    w ∈ D ∨ w ∈ q.map Prod.fst
  first : root ∈ D ∨ root ∈ q.map Prod.fst ∧ D = ∅ ∧ ∀ x ∈ q, x.1 = root

variable {say g₀ root v}

theorem cellAt_congr {D D' : Set N} {M' : N → Set N} (hD : w ∈ D ↔ w ∈ D') (hM : M w = M' w) :
    cellAt say g₀ root v D M w = cellAt say g₀ root v D' M' w := by
  by_cases hw : w ∈ D
  · simp only [cellAt, if_pos hw, if_pos (hD.mp hw), hM]
  · simp only [cellAt, if_neg hw, if_neg (mt hD.mpr hw), hM]

theorem outcome_ne (v : Verdict) : v.outcome ≠ .unsatisfied :=
  DepCounts.Outcome.ofTerminal_ne_unsatisfied _ _

/-- The verdict on a node whose rule is lost to its fallen predecessors. -/
theorem lost_eq {k : ℕ} (hroot : w ≠ root) (hk : k ≤ c.deps.unsatisfied) (hpos : k ≠ 0)
    (hbefore : v.outcome = .failed ∨ c.deps.unsatisfiable c.trigger = false)
    (hlost : (c.deps.bump v.outcome k).unsatisfiable c.trigger = true) {c' : Cell}
    (hc' : c'.deps = c.deps.bump v.outcome k) :
    lost say c' = verdictOn say root v w ∧ (lost say c').outcome = v.outcome := by
  have hreason := DepCounts.terminalReason_bump (outcome_ne v) hk hpos hbefore hlost
  constructor
  · simp [lost, verdictOn, hroot, hc', hreason.1]
  have hverdict : lost say c' =
      ⟨.error, lostReason v.outcome, say (lostReason v.outcome)⟩ := by
    simp [lost, hc', hreason.1]
  rw [hverdict]
  exact hreason.2

/-- Whatever falls, falls with the outcome of the root. -/
theorem Fallen.outcome (h : Fallen g₀ root v.outcome w) (ht : g₀.Tallied)
    (hclear : g₀.Clear root v.outcome) : (verdictOn say root v w).outcome = v.outcome := by
  by_cases hw : w = root
  · simp [verdictOn, hw]
  cases h with
  | root => exact absurd rfl hw
  | @step _ c us hc hwaits hne hfallen hedge hlost =>
    have hk : us.card ≤ c.deps.unsatisfied := by
      rw [← Set.ncard_coe_finset]
      exact ht.ncard_le hc hedge
    have hverdict : lost say { c with deps := c.deps.bump v.outcome us.card } =
        verdictOn say root v w ∧ _ :=
      lost_eq hw hk hne.card_ne_zero (hclear.before hc hw hwaits) hlost rfl
    rw [← hverdict.1]
    exact hverdict.2

/-! ## The steps of a cascade -/

section Steps

variable {D : Set N} {M : N → Set N} {P : N → N → Prop} {q : List (N × Verdict)} {g : Net N}

section

variable (h : Progress say g₀ root v D M P q g)
include h

/-- The cell of a node in progress, in terms of the one it started with. -/
theorem Progress.find (hc : g.cell w = some c) : ∃ c₀, g₀.cell w = some c₀ ∧
      (w ∈ D ∧ c = (c₀.after v.outcome (M w).ncard).finish (verdictOn say root v w) ∨
        w ∉ D ∧ c = c₀.after v.outcome (M w).ncard) := by
  rw [h.cell w, cellAt, Option.map_eq_some_iff] at hc
  obtain ⟨c₀, hc₀, rfl⟩ := hc
  refine ⟨c₀, hc₀, ?_⟩
  by_cases hw : w ∈ D
  · exact .inl ⟨hw, if_pos hw⟩
  · exact .inr ⟨hw, if_neg hw⟩

theorem Progress.isSome (w : N) : (g.cell w).isSome = (g₀.cell w).isSome := by
  rw [h.cell w, cellAt, Option.isSome_map]

/-- A node that has not terminated is not among those that have. -/
theorem Progress.live (hc : g.cell w = some c) (hlive : c.phase ≠ .done) :
    w ∉ D ∧ ∃ c₀, g₀.cell w = some c₀ ∧ c = c₀.after v.outcome (M w).ncard := by
  obtain ⟨c₀, hc₀, ⟨-, rfl⟩ | ⟨hw, hceq⟩⟩ := h.find hc
  · exact absurd rfl hlive
  · exact ⟨hw, c₀, hc₀, hceq⟩

end

theorem progress_start (say : Reason → String) (g₀ : Net N) (root : N) (v : Verdict) :
    Progress say g₀ root v ∅ (fun _ => ∅) (fun _ _ => False) [(root, v)] g₀ where
  cell w := by simp [cellAt, Cell.after]
  edge u w hu := absurd hu (Set.notMem_empty u)
  edge_old u w _ := rfl
  told u w hu := absurd hu (Set.notMem_empty u)
  all_told u hu := absurd hu (Set.notMem_empty u)
  fallen w hw := absurd hw (Set.notMem_empty w)
  queued x hx := by
    rw [List.mem_singleton] at hx
    subst hx
    exact ⟨.root, by simp [verdictOn]⟩
  caught w c _ _ hne := by simp at hne
  first := by simp

/-- A pending termination of a node that is gone or done is dropped. -/
theorem Progress.skip {n : N} {x : Verdict} (hroot : g₀.cell root = some c₀)
    (hlive : c₀.phase ≠ .done) (h : Progress say g₀ root v D M P ((n, x) :: q) g)
    (hdone : ∀ c, g.cell n = some c → c.phase = .done) : Progress say g₀ root v D M P q g := by
  have hold : ∀ c, g₀.cell n = some c → n ∉ D → c.phase = .done := by
    intro c hc hn
    have hcell : g.cell n = some (c.after v.outcome (M n).ncard) := by
      simp [h.cell n, cellAt, hc, hn]
    exact (c.after_done _ _).mp (hdone _ hcell)
  refine { h with queued := ?_, caught := ?_, first := ?_ }
  · intro y hy
    exact h.queued y (.tail _ hy)
  · intro w c hc hwaits hne hlost
    rcases h.caught w c hc hwaits hne hlost with hw | hw
    · exact .inl hw
    rcases List.mem_cons.mp hw with rfl | hw
    · left
      by_contra hn
      exact Cell.not_done_of_waits hwaits (hold c hc hn)
    · exact .inr hw
  · rcases h.first with hD | ⟨-, hD, hall⟩
    · exact .inl hD
    exfalso
    have hn : n = root := hall (n, x) (List.mem_cons_self ..)
    subst hn
    exact hlive (hold c₀ hroot (by simp [hD]))

theorem Progress.finish {n : N} {x y : Verdict} {ws : List N}
    (h : Progress say g₀ root v D M (fun _ _ => False) ((n, x) :: q) g) (hc : g.cell n = some c)
    (hlive : c.phase ≠ .done) (hy : (n, y) ∈ (n, x) :: q)
    (hws : ∀ w, g.edge n w = some false → w ∈ ws) :
    Progress say g₀ root v (insert n D) M (fun a b => a = n ∧ b ∈ ws) q
      (g.put n c (c.finish y)) := by
  obtain ⟨hn, c₀, hc₀, hceq⟩ := h.live hc hlive
  obtain ⟨hfallen, hverdict⟩ := h.queued _ hy
  constructor
  case cell =>
    intro w
    by_cases hw : w = n
    · subst hw
      simp only at hverdict
      simp [cellAt, hc₀, hceq, hverdict]
    · rw [put_cell, update_of_ne hw, h.cell w]
      exact cellAt_congr (by simp [hw]) rfl
  case edge =>
    exact h.edge
  case edge_old =>
    exact h.edge_old
  case told =>
    intro u w hu
    exact ⟨Set.mem_insert_of_mem n (h.told u w hu).1, (h.told u w hu).2⟩
  case all_told =>
    intro u hu w hedge
    rcases hu with rfl | hu
    · right
      have hnot : u ∉ M w := fun hu => hn (h.told u w hu).1
      exact ⟨rfl, hws w (by rw [h.edge_old u w hnot, hedge])⟩
    · exact .inl ((h.all_told u hu w hedge).resolve_right id)
  case fallen =>
    intro w hw
    rcases hw with rfl | hw
    · exact hfallen
    · exact h.fallen w hw
  case queued =>
    intro y hy
    exact h.queued y (.tail _ hy)
  case caught =>
    intro w c hc hwaits hne hlost
    rcases h.caught w c hc hwaits hne hlost with hw | hw
    · exact .inl (Set.mem_insert_of_mem n hw)
    · rcases List.mem_cons.mp hw with rfl | hw
      · exact .inl (Set.mem_insert _ _)
      · exact .inr hw
  case first =>
    left
    rcases h.first with hD | ⟨-, -, hall⟩
    · exact Set.mem_insert_of_mem n hD
    · rw [← hall (n, x) (List.mem_cons_self ..)]
      exact Set.mem_insert n D

/-- The nodes that have told `w`, once `u` has too. -/
def tell (M : N → Set N) (u w : N) : N → Set N := update M w (insert u (M w))

theorem mem_tell {a b : N} : a ∈ tell M u w b ↔ a ∈ M b ∨ a = u ∧ b = w := by
  by_cases hb : b = w
  · subst hb
    simp [tell, or_comm]
  · simp [tell, hb]

section

variable (h : Progress say g₀ root v D M P q g)
include h

theorem Progress.ncard_tell (ht : g₀.Tallied) (hu : u ∉ M w) :
    (tell M u w w).ncard = (M w).ncard + 1 := by
  have hfinite : (M w).Finite :=
    (ht.finite_open w).subset fun a ha => (h.told a w ha).2
  rw [tell, update_self, Set.ncard_insert_of_notMem hu hfinite]

/-- Not more nodes tell `w` than it waits for. -/
theorem Progress.ncard_tell_le (ht : g₀.Tallied) (hc₀ : g₀.cell w = some c₀)
    (hedge : g₀.edge u w = some false) : (tell M u w w).ncard ≤ c₀.deps.unsatisfied := by
  apply ht.ncard_le hc₀
  intro a ha
  rcases mem_tell.mp ha with ha | ⟨rfl, -⟩
  · exact (h.told a w ha).2
  · exact hedge

/-- The successor that is told changes as the number of those who told it does. -/
theorem Progress.cell_tell (ht : g₀.Tallied) (hu : u ∉ M w) (hedge : g₀.edge u w = some false)
    (hc : g.cell w = some c) :
    some (c.resolve v.outcome).promote = cellAt say g₀ root v D (tell M u w) w := by
  obtain ⟨c₀, hc₀, ⟨hw, rfl⟩ | ⟨hw, rfl⟩⟩ := h.find hc
  · simp [cellAt, hc₀, hw, h.ncard_tell ht hu, Cell.finish_after_succ]
  · have hk := h.ncard_tell_le ht hc₀ hedge
    rw [h.ncard_tell ht hu] at hk
    simp [cellAt, hc₀, hw, h.ncard_tell ht hu, Cell.after_succ (outcome_ne v) hk]

/-- A successor whose rule is lost falls, and gets the verdict of those that fall. -/
theorem Progress.lost_tell (ht : g₀.Tallied) (hclear : g₀.Clear root v.outcome) (hu : u ∉ M w)
    (huD : u ∈ D) (hedge : g₀.edge u w = some false) (hc : g.cell w = some c)
    (hdoomed : (c.resolve v.outcome).Doomed) :
    Fallen g₀ root v.outcome w ∧ lost say (c.resolve v.outcome) = verdictOn say root v w := by
  have hlive : c.phase ≠ .done := Cell.not_done_of_waits hdoomed.1
  obtain ⟨hw, c₀, hc₀, rfl⟩ := h.live hc hlive
  have hwaits : c₀.Waits := (c₀.after_waits _ _).mp hdoomed.1
  have hk := h.ncard_tell_le ht hc₀ hedge
  have hdeps : ((c₀.after v.outcome (M w).ncard).resolve v.outcome).deps =
      c₀.deps.bump v.outcome (tell M u w w).ncard := by
    rw [h.ncard_tell ht hu, Cell.resolve, Cell.after_deps, DepCounts.bump]
  have hlost :
      (c₀.deps.bump v.outcome (tell M u w w).ncard).unsatisfiable c₀.trigger = true := by
    rw [← hdeps, ← c₀.after_trigger v.outcome (M w).ncard]
    exact hdoomed.2
  have hroot : w ≠ root := by
    rintro rfl
    rcases h.first with hD | ⟨-, hD, -⟩
    · exact hw hD
    · simp [hD] at huD
  have hpos : (tell M u w w).ncard ≠ 0 := by
    rw [h.ncard_tell ht hu]
    exact Nat.succ_ne_zero _
  have htold : ∀ a ∈ tell M u w w, a ∈ D ∧ g₀.edge a w = some false := by
    intro a ha
    rcases mem_tell.mp ha with ha | ⟨rfl, -⟩
    · exact h.told a w ha
    · exact ⟨huD, hedge⟩
  have hfinite : (tell M u w w).Finite :=
    (ht.finite_open w).subset fun a ha => (htold a ha).2
  constructor
  · have hne : hfinite.toFinset.Nonempty := ⟨u, by simp [mem_tell]⟩
    apply Fallen.step hc₀ hwaits hne
    · intro a ha
      exact h.fallen a (htold a (by simpa using ha)).1
    · intro a ha
      exact (htold a (by simpa using ha)).2
    · rwa [← Set.ncard_eq_toFinset_card _ hfinite]
  · exact (lost_eq hroot hk hpos (hclear.before hc₀ hroot hwaits) hlost hdeps).1

theorem Progress.visit (ht : g₀.Tallied) (hclear : g₀.Clear root v.outcome) (huD : u ∈ D) (w : N) :
    ∃ M', Progress say g₀ root v D M' (fun a b => P a b ∧ ¬(a = u ∧ b = w))
      (visit say u v.outcome (g, q) w).2 (visit say u v.outcome (g, q) w).1 := by
  rcases visit_cases say u v.outcome g q w with ⟨c, hopen, hc, heq⟩ | ⟨hclosed, heq⟩
  · have hu : u ∉ M w := by
      intro hu
      simp [h.edge u w hu] at hopen
    have hedge : g₀.edge u w = some false := by
      rw [← h.edge_old u w hu]
      exact hopen
    rw [heq]
    refine ⟨tell M u w, ?_⟩
    constructor
    case cell =>
      intro b
      by_cases hb : b = w
      · subst hb
        rw [flag_cell, put_cell, update_self]
        exact h.cell_tell ht hu hedge hc
      · rw [flag_cell, put_cell, update_of_ne hb, h.cell b]
        exact cellAt_congr Iff.rfl (by simp [tell, hb])
    case edge =>
      intro a b hab
      rw [flag_edge, put_edge]
      rcases mem_tell.mp hab with hab | hab
      · rw [h.edge a b hab, ite_self]
      · rw [if_pos hab]
    case edge_old =>
      intro a b hab
      rw [mem_tell, not_or] at hab
      rw [flag_edge, put_edge, if_neg hab.2]
      exact h.edge_old a b hab.1
    case told =>
      intro a b hab
      rcases mem_tell.mp hab with hab | ⟨rfl, rfl⟩
      · exact h.told a b hab
      · exact ⟨huD, hedge⟩
    case all_told =>
      intro a ha b hab
      by_cases heq : a = u ∧ b = w
      · exact .inl (mem_tell.mpr (.inr heq))
      · rcases h.all_told a ha b hab with hM | hP
        · exact .inl (mem_tell.mpr (.inl hM))
        · exact .inr ⟨hP, heq⟩
    case fallen =>
      exact h.fallen
    case queued =>
      intro x hx
      split at hx
      · next hdoomed =>
        rcases List.mem_append.mp hx with hx | hx
        · exact h.queued x hx
        · rw [List.mem_singleton] at hx
          subst hx
          exact h.lost_tell ht hclear hu huD hedge hc hdoomed
      · exact h.queued x hx
    case caught =>
      intro b c' hc' hwaits hne hlost
      by_cases hb : b = w
      · subst hb
        by_cases hbD : b ∈ D
        · exact .inl hbD
        right
        obtain ⟨c₀, hc₀, ⟨hin, -⟩ | ⟨-, rfl⟩⟩ := h.find hc
        · exact absurd hin hbD
        obtain rfl := Option.mem_unique hc₀ hc'
        have hdoomed : ((c₀.after v.outcome (M b).ncard).resolve v.outcome).Doomed := by
          constructor
          · exact (c₀.after_waits _ _).mpr hwaits
          · rw [h.ncard_tell ht hu] at hlost
            simp only [Cell.resolve, Cell.after_deps, Cell.after_trigger]
            exact hlost
        rw [if_pos hdoomed]
        simp
      · simp only [tell, update_of_ne hb] at hne hlost
        rcases h.caught b c' hc' hwaits hne hlost with hD | hq
        · exact .inl hD
        right
        split
        · rw [List.map_append]
          exact List.mem_append_left _ hq
        · exact hq
    case first =>
      rcases h.first with hD | ⟨-, hD, -⟩
      · exact .inl hD
      · simp [hD] at huD
  · rw [heq]
    refine ⟨M, { h with all_told := ?_ }⟩
    intro a ha b hab
    rcases h.all_told a ha b hab with hM | hP
    · exact .inl hM
    by_cases hpair : a = u ∧ b = w
    · obtain ⟨rfl, rfl⟩ := hpair
      left
      by_contra hM
      apply hclosed
      exact ⟨by rw [h.edge_old a b hM, hab], by rw [h.isSome]; exact (ht.ends hab).2⟩
    · exact .inr ⟨hP, hpair⟩

end

/-- A terminated node tells the nodes of a list, and then every successor has been told. -/
theorem Progress.fanOut (huD : u ∈ D) (ht : g₀.Tallied) (hclear : g₀.Clear root v.outcome)
    (ws : List N) (h : Progress say g₀ root v D M (fun a b => a = u ∧ b ∈ ws) q g) :
    ∃ M', Progress say g₀ root v D M' (fun _ _ => False)
      (fanOut say u v.outcome ws (g, q)).2 (fanOut say u v.outcome ws (g, q)).1 := by
  induction ws generalizing M q g with
  | nil =>
    refine ⟨M, { h with all_told := ?_ }⟩
    intro a ha b hab
    exact .inl ((h.all_told a ha b hab).resolve_right (by simp))
  | cons w ws ih =>
    obtain ⟨M', h'⟩ := h.visit ht hclear huD w
    apply ih (M := M')
    refine { h' with all_told := ?_ }
    intro a ha b hab
    rcases h'.all_told a ha b hab with hM | ⟨⟨rfl, hb⟩, hne⟩
    · exact .inl hM
    right
    refine ⟨rfl, (List.mem_cons.mp hb).resolve_left ?_⟩
    intro hbw
    exact hne ⟨rfl, hbw⟩

/-- The loop carries the invariant to the empty queue. -/
theorem Drains.progress (ht : g₀.Tallied) (hclear : g₀.Clear root v.outcome)
    (hroot : g₀.cell root = some c₀) (hlive : c₀.phase ≠ .done) {g' : Net N}
    (hd : Drains say g q g') (h : Progress say g₀ root v D M (fun _ _ => False) q g) :
    ∃ D' M', Progress say g₀ root v D' M' (fun _ _ => False) [] g' := by
  induction hd generalizing D M with
  | nil => exact ⟨D, M, h⟩
  | skip hdone _ ih => exact ih (h.skip hroot hlive hdone)
  | step hc hne hy hws _ ih =>
    have hfall := h.queued _ hy
    have houtcome : (verdictOn say root v _).outcome = v.outcome := hfall.1.outcome ht hclear
    rw [← hfall.2] at houtcome
    have hfin := h.finish hc hne hy hws
    rw [houtcome] at ih
    obtain ⟨M', h'⟩ := hfin.fanOut (Set.mem_insert _ _) ht hclear _
    exact ih h'

end Steps

/-! ## The result -/

/-- At the end of a cascade, exactly the nodes that fall have terminated. -/
theorem Progress.done_iff {D : Set N} {g : Net N} (ht : g₀.Tallied)
    (h : Progress say g₀ root v D M (fun _ _ => False) [] g) (w : N) :
    w ∈ D ↔ Fallen g₀ root v.outcome w := by
  constructor
  · exact h.fallen w
  intro hw
  induction hw with
  | root => simpa using h.first
  | @step w c us hc hwaits hne _ hedge hlost ih =>
    have hsub : (us : Set N) ⊆ M w := by
      intro u hu
      exact (h.all_told u (ih u hu) w (hedge u hu)).resolve_right id
    have hcard : us.card ≤ (M w).ncard := by
      have hfinite : (M w).Finite :=
        (ht.finite_open w).subset fun a ha => (h.told a w ha).2
      rw [← Set.ncard_coe_finset]
      exact Set.ncard_le_ncard hsub hfinite
    have hle : (M w).ncard ≤ c.deps.unsatisfied :=
      ht.ncard_le hc fun a ha => (h.told a w ha).2
    have hlost' := DepCounts.unsatisfiable_bump_mono (outcome_ne v) hcard hle hlost
    obtain ⟨u, hu⟩ := hne
    simpa using h.caught w c hc hwaits ⟨u, hsub hu⟩ hlost'

/-- A node has been told by the fallen nodes it waited for. -/
theorem Progress.told_iff {D : Set N} {g : Net N} (ht : g₀.Tallied)
    (h : Progress say g₀ root v D M (fun _ _ => False) [] g) (u w : N) :
    u ∈ M w ↔ Fallen g₀ root v.outcome u ∧ g₀.edge u w = some false := by
  rw [← h.done_iff ht]
  constructor
  · exact h.told u w
  · rintro ⟨hu, hedge⟩
    exact (h.all_told u hu w hedge).resolve_right id

/-- **A cascade has one result.**  Whatever the order in which successors are told, and
whichever pending verdict a node gets, the cascade from one node reaches one net. -/
theorem Drains.unique {g₁ g₂ : Net N} (ht : g₀.Tallied) (hcalm : g₀.Calm root)
    (hroot : g₀.cell root = some c₀) (hlive : c₀.phase ≠ .done) (h₁ : Drains say g₀ [(root, v)] g₁)
    (h₂ : Drains say g₀ [(root, v)] g₂) : g₁ = g₂ := by
  have hstart := progress_start say g₀ root v
  obtain ⟨D₁, M₁, hp₁⟩ := h₁.progress ht (.inr hcalm) hroot hlive hstart
  obtain ⟨D₂, M₂, hp₂⟩ := h₂.progress ht (.inr hcalm) hroot hlive hstart
  have hD : D₁ = D₂ := by
    ext w
    rw [hp₁.done_iff ht, hp₂.done_iff ht]
  have hM : M₁ = M₂ := by
    ext u
    rw [hp₁.told_iff ht, hp₂.told_iff ht]
  subst hD hM
  apply (h₁.steady (.refl g₀)).eq (h₂.steady (.refl g₀)) ht.finite
  · funext w
    rw [hp₁.cell w, hp₂.cell w]
  funext u w
  by_cases hu : u ∈ M₁ w
  · rw [hp₁.edge u w hu, hp₂.edge u w hu]
  · rw [hp₁.edge_old u w hu, hp₂.edge_old u w hu]

/-- A termination of a node that has terminated changes nothing. -/
theorem Drains.of_done {g₁ : Net N} (hroot : g₀.cell root = some c₀) (hdone : c₀.phase = .done)
    (h : Drains say g₀ [(root, v)] g₁) : g₁ = g₀ := by
  cases h with
  | skip _ hnil =>
    cases hnil
    rfl
  | step hc hlive =>
    obtain rfl := Option.mem_unique hroot hc
    exact absurd hdone hlive

theorem Settles.unique {g₁ g₂ : Net N} (ht : g₀.Tallied) (hcalm : g₀.Calm root)
    (h₁ : Settles say g₀ root g₁) (h₂ : Settles say g₀ root g₂) : g₁ = g₂ := by
  cases h₁ with
  | lost hc₁ hdoomed₁ hd₁ =>
    cases h₂ with
    | lost hc₂ _ hd₂ =>
      obtain rfl := Option.mem_unique hc₁ hc₂
      exact hd₁.unique ht hcalm hc₁ (Cell.not_done_of_waits hdoomed₁.1) hd₂
    | quiet hc₂ hdoomed₂ =>
      obtain rfl := Option.mem_unique hc₁ hc₂
      exact absurd hdoomed₁ hdoomed₂
  | quiet hc₁ hdoomed₁ =>
    cases h₂ with
    | lost hc₂ hdoomed₂ _ =>
      obtain rfl := Option.mem_unique hc₁ hc₂
      exact absurd hdoomed₂ hdoomed₁
    | quiet hc₂ _ =>
      obtain rfl := Option.mem_unique hc₁ hc₂
      rfl

end Cascade
end Net
end Graph
end DagWorker
