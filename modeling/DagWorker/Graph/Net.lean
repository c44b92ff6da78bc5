import DagWorker.Core.Status
import Mathlib.Algebra.BigOperators.Group.Finset.Basic
import Mathlib.Algebra.BigOperators.Group.Finset.Piecewise
import Mathlib.Data.Set.Card
import Mathlib.Tactic.Abel

/-!
# The termination cascade on an abstract graph

What a scheduler knows of a graph, with the layout of the store left out: the life cycle
and the tally of each node, the edges with their flags, and the counters.  A cascade is a
machine on such a net and a queue of pending terminations.  It is free in what the stores
do differently: the order in which successors are told, how often a node is queued, and
which of several pending verdicts a node gets.
-/

namespace DagWorker.Graph

open Function
open DepCounts (Outcome)

variable {say : Reason → String}

/-- The final status, reason and message of a node. -/
structure Verdict where
  status : Status
  reason : Reason
  message : String
deriving DecidableEq

/-- How a node with this verdict enters the tallies of its successors. -/
def Verdict.outcome (v : Verdict) : Outcome := .ofTerminal v.status v.reason

/-- The counters of a graph. -/
inductive Bucket
  | blocked
  | scheduled
  | ready
  | inProgress
  | succeeded
  | failed
deriving DecidableEq

/-- What a cascade reads and writes of one node. -/
structure Cell where
  phase : Phase
  status : Status
  reason : Reason
  message : String
  attempt : ℕ
  trigger : TriggerRule
  deps : DepCounts
deriving DecidableEq

namespace Cell

/-- The counter of a node. -/
def bucket (c : Cell) : Bucket :=
  match c.phase with
  | .blocked => .blocked
  | .scheduled => .scheduled
  | .ready => .ready
  | .claimed => .inProgress
  | .done => if c.status = .success then .succeeded else .failed

/-- A node whose trigger rule still decides what becomes of it. -/
def Waits (c : Cell) : Prop := c.phase = .blocked ∨ c.phase = .ready

/-- A node whose trigger rule can no longer be satisfied. -/
def Doomed (c : Cell) : Prop := c.Waits ∧ c.deps.unsatisfiable c.trigger = true

def finish (c : Cell) (v : Verdict) : Cell :=
  { c with phase := .done, status := v.status, reason := v.reason, message := v.message }

def release (c : Cell) : Cell := { c with phase := .ready, status := .new }

def block (c : Cell) : Cell := { c with phase := .blocked, status := .new }

/-- One predecessor has resolved. -/
def resolve (c : Cell) (o : Outcome) : Cell :=
  { c with deps := (c.deps.decr .unsatisfied).incr o }

/-- A blocked node whose rule is satisfied becomes ready. -/
def promote (c : Cell) : Cell :=
  if c.phase = .blocked ∧ c.deps.ready c.trigger = true then c.release else c

/-- The rule of a node applied to its tally, where it is not lost. -/
def settle (c : Cell) : Cell :=
  if c.phase = .ready ∧ c.deps.ready c.trigger = false then c.block else c.promote

instance (c : Cell) : Decidable c.Waits := inferInstanceAs (Decidable (_ ∨ _))

instance (c : Cell) : Decidable c.Doomed := inferInstanceAs (Decidable (_ ∧ _))

theorem not_done_of_waits {c : Cell} (h : c.Waits) : c.phase ≠ .done := by
  rcases h with h | h <;> simp [h]

section Rules

variable {c : Cell}

theorem promote_of_told (h : c.phase = .blocked → c.deps.ready c.trigger = false) :
    c.promote = c := by
  rw [promote, if_neg]
  rintro ⟨hb, hready⟩
  rw [h hb] at hready
  cases hready

theorem promote_of_ready (hphase : c.phase = .blocked) (h : c.deps.ready c.trigger = true) :
    c.promote = c.release := by
  simp [promote, hphase, h]

/-- A node whose rule is lost is not made ready. -/
theorem promote_of_doomed (h : c.Doomed) : c.promote = c :=
  promote_of_told fun _ => DepCounts.not_ready_of_unsatisfiable h.2

theorem not_doomed (h : c.Waits → c.deps.unsatisfiable c.trigger = false) : ¬c.Doomed := by
  rintro ⟨hwaits, hlost⟩
  rw [h hwaits] at hlost
  cases hlost

theorem settle_of_idle (hwait : c.phase = .blocked → c.deps.ready c.trigger = false)
    (hready : c.phase = .ready → c.deps.ready c.trigger = true) : c.settle = c := by
  rw [settle, if_neg]
  · exact promote_of_told hwait
  · rintro ⟨hp, hnot⟩
    rw [hready hp] at hnot
    cases hnot

theorem settle_of_blocked (h : c.phase = .blocked) : c.settle = c.promote := by
  simp [settle, h]

theorem settle_of_not_ready (hphase : c.phase = .ready) (h : c.deps.ready c.trigger = false) :
    c.settle = c.block := if_pos ⟨hphase, h⟩

end Rules
end Cell

/-- A graph: its nodes, its edges each with the flag that says whether it is satisfied,
and its counters. -/
structure Net (N : Type) where
  cell : N → Option Cell
  edge : N → N → Option Bool
  count : Bucket → Int
  total : Int

namespace Net

variable {N : Type} [DecidableEq N]
variable {g' : Net N} (g : Net N) (n : N)

/-- Replace the cell of a node, moving the node from one counter to the other. -/
def put (g : Net N) (n : N) (old new : Cell) : Net N :=
  { g with
    cell := update g.cell n (some new)
    count := fun b =>
      g.count b - (if old.bucket = b then 1 else 0) + (if new.bucket = b then 1 else 0) }

def flag (g : Net N) (u w : N) : Net N :=
  { g with edge := update g.edge u (update (g.edge u) w (some true)) }

@[simp] theorem put_edge (c c' : Cell) : (g.put n c c').edge = g.edge := rfl

@[simp] theorem put_cell (c c' : Cell) : (g.put n c c').cell = update g.cell n (some c') := rfl

@[simp] theorem flag_cell (u w : N) : (g.flag u w).cell = g.cell := rfl

@[simp] theorem flag_count (u w : N) : (g.flag u w).count = g.count := rfl

theorem flag_edge (u w a b : N) :
    (g.flag u w).edge a b = if a = u ∧ b = w then some true else g.edge a b := by
  by_cases ha : a = u
  · by_cases hb : b = w <;> simp [flag, ha, hb]
  · simp [flag, ha]

theorem put_put (c₁ c₂ c₃ : Cell) : (g.put n c₁ c₂).put n c₂ c₃ = g.put n c₁ c₃ := by
  simp only [put, update_idem, Net.mk.injEq, true_and, and_true]
  funext b
  omega

/-- A node that is told stays in its counter. -/
@[simp] theorem put_resolve_count (c : Cell) (o : Outcome) :
    (g.put n c (c.resolve o)).count = g.count := by
  funext b
  exact Int.sub_add_cancel _ _

theorem flag_put (u w n : N) (c c' : Cell) :
    (g.flag u w).put n c c' = (g.put n c c').flag u w := rfl

theorem put_self {n : N} {c : Cell} (h : g.cell n = some c) : g.put n c c = g := by
  have hcell : update g.cell n (some c) = g.cell := by
    rw [← h]
    exact update_eq_self n g.cell
  simp [put, hcell]

/-! ## The machine -/

/-- The verdict on a node whose rule is lost, with the message the store has for the
reason. -/
def lost (say : Reason → String) (c : Cell) : Verdict :=
  ⟨.error, c.deps.terminalReason, say c.deps.terminalReason⟩

/-- A terminated node `u` tells its successor `w` how it ended: the edge is satisfied, and
the rule of `w` decides what follows. -/
def visit (say : Reason → String) (u : N) (o : Outcome) (x : Net N × List (N × Verdict))
    (w : N) : Net N × List (N × Verdict) :=
  match x.1.edge u w, x.1.cell w with
  | some false, some c =>
    ((x.1.put w c (c.resolve o).promote).flag u w,
      if (c.resolve o).Doomed then x.2 ++ [(w, lost say (c.resolve o))] else x.2)
  | _, _ => x

def fanOut (say : Reason → String) (u : N) (o : Outcome) (ws : List N)
    (x : Net N × List (N × Verdict)) : Net N × List (N × Verdict) :=
  ws.foldl (visit say u o) x

/-- The runs of a cascade, from a net and a queue of pending terminations to the net in
which the queue is empty.  A pending termination of a missing or terminated node is
dropped.  Any other node gets its own verdict, or that of one of its entries further back
in the queue, and tells its successors in some order, other nodes among them or not. -/
inductive Drains (say : Reason → String) : Net N → List (N × Verdict) → Net N → Prop
  | nil {g : Net N} : Drains say g [] g
  | skip {g g' : Net N} {n : N} {v : Verdict} {q : List (N × Verdict)} :
      (∀ c, g.cell n = some c → c.phase = .done) → Drains say g q g' →
      Drains say g ((n, v) :: q) g'
  | step {g g' : Net N} {n : N} {v y : Verdict} {q : List (N × Verdict)} {c : Cell}
      {ws : List N} :
      g.cell n = some c → c.phase ≠ .done → (n, y) ∈ (n, v) :: q →
      (∀ w, g.edge n w = some false → w ∈ ws) →
      Drains say (fanOut say n y.outcome ws (g.put n c (c.finish y), q)).1
        (fanOut say n y.outcome ws (g.put n c (c.finish y), q)).2 g' →
      Drains say g ((n, v) :: q) g'

/-- The rule of a node is applied to its tally: a node whose rule is lost terminates, with
all that follows. -/
inductive Settles (say : Reason → String) (g : Net N) (n : N) : Net N → Prop
  | lost {c : Cell} {g' : Net N} :
      g.cell n = some c → c.Doomed → Drains say g [(n, lost say c)] g' → Settles say g n g'
  | quiet {c : Cell} : g.cell n = some c → ¬c.Doomed → Settles say g n (g.put n c c.settle)

theorem visit_cases (say : Reason → String) (u : N) (o : Outcome) (g : Net N)
    (q : List (N × Verdict)) (w : N) :
    (∃ c, g.edge u w = some false ∧ g.cell w = some c ∧
      visit say u o (g, q) w = ((g.put w c (c.resolve o).promote).flag u w,
        if (c.resolve o).Doomed then q ++ [(w, lost say (c.resolve o))] else q)) ∨
    (¬(g.edge u w = some false ∧ (g.cell w).isSome) ∧ visit say u o (g, q) w = (g, q)) := by
  rcases hedge : g.edge u w with _ | b
  · right
    simp [visit, hedge]
  cases b with
  | true =>
    simp [visit, hedge]
  | false =>
    rcases hcell : g.cell w with _ | c
    · right
      simp [visit, hedge, hcell]
    · left
      exact ⟨c, rfl, rfl, by simp only [visit, hedge, hcell]⟩

/-- An edge that is satisfied, or none, is not looked at. -/
theorem visit_of_ne (say : Reason → String) {u w : N} (o : Outcome) {g : Net N}
    (q : List (N × Verdict)) (h : g.edge u w ≠ some false) : visit say u o (g, q) w = (g, q) := by
  rcases visit_cases say u o g q w with ⟨c, hopen, -⟩ | ⟨-, heq⟩
  · exact absurd hopen h
  · exact heq

section Visit

variable {say : Reason → String} {u w : N} {o : Outcome} {g : Net N} {c : Cell}
  {q : List (N × Verdict)} (hopen : g.edge u w = some false) (hc : g.cell w = some c)
include hopen hc

theorem visit_of_open :
    visit say u o (g, q) w = ((g.put w c (c.resolve o).promote).flag u w,
      if (c.resolve o).Doomed then q ++ [(w, lost say (c.resolve o))] else q) := by
  simp only [visit, hopen, hc]

theorem visit_told (hdoomed : ¬(c.resolve o).Doomed)
    (hstays : (c.resolve o).promote = c.resolve o) :
    visit say u o (g, q) w = ((g.put w c (c.resolve o)).flag u w, q) := by
  rw [visit_of_open hopen hc, if_neg hdoomed, hstays]

theorem visit_lost (hdoomed : (c.resolve o).Doomed) :
    visit say u o (g, q) w =
      ((g.put w c (c.resolve o)).flag u w, q ++ [(w, lost say (c.resolve o))]) := by
  rw [visit_of_open hopen hc, if_pos hdoomed, Cell.promote_of_doomed hdoomed]

theorem visit_released (hdoomed : ¬(c.resolve o).Doomed)
    (hblocked : (c.resolve o).phase = .blocked)
    (hready : (c.resolve o).deps.ready (c.resolve o).trigger = true) :
    visit say u o (g, q) w =
      (((g.put w c (c.resolve o)).flag u w).put w (c.resolve o) (c.resolve o).release, q) := by
  rw [visit_of_open hopen hc, if_neg hdoomed, Cell.promote_of_ready hblocked hready, flag_put,
    put_put]

end Visit

theorem Settles.idle {g : Net N} {n : N} {c : Cell} (hc : g.cell n = some c) (hdoomed : ¬c.Doomed)
    (hstays : c.settle = c) : Settles say g n g := by
  have hset : Settles say g n (g.put n c c.settle) := .quiet hc hdoomed
  rwa [hstays, put_self g hc] at hset

/-- The edges that are not satisfied. -/
def opens (g : Net N) : Set (N × N) := {p | g.edge p.1 p.2 = some false}

/-- A node is queued when an edge into it becomes satisfied. -/
theorem visit_measure (say : Reason → String) (u w : N) (o : Outcome) {g : Net N}
    (q : List (N × Verdict)) (hfin : g.opens.Finite) :
    (visit say u o (g, q) w).1.opens.Finite ∧
      (visit say u o (g, q) w).2.length + (visit say u o (g, q) w).1.opens.ncard ≤
        q.length + g.opens.ncard := by
  rcases visit_cases say u o g q w with ⟨c, hopen, -, heq⟩ | ⟨-, heq⟩
  · have hmem : (u, w) ∈ g.opens := hopen
    have hset : (visit say u o (g, q) w).1.opens = g.opens \ {(u, w)} := by
      ext ⟨a, b⟩
      rw [heq]
      by_cases hab : a = u ∧ b = w
      · simp [opens, flag_edge, hab]
      · simp [opens, flag_edge, hab]
    have hcard := Set.ncard_sdiff_singleton_add_one hmem hfin
    have hlen : (visit say u o (g, q) w).2.length ≤ q.length + 1 := by
      rw [heq]
      split <;> simp
    rw [hset]
    exact ⟨hfin.sdiff, by omega⟩
  · rw [heq]
    exact ⟨hfin, le_refl _⟩

theorem fanOut_measure (say : Reason → String) (u : N) (o : Outcome) (ws : List N) {g : Net N}
    (q : List (N × Verdict)) (hfin : g.opens.Finite) :
    (fanOut say u o ws (g, q)).1.opens.Finite ∧
      (fanOut say u o ws (g, q)).2.length + (fanOut say u o ws (g, q)).1.opens.ncard ≤
        q.length + g.opens.ncard := by
  induction ws generalizing g q with
  | nil => exact ⟨hfin, le_refl _⟩
  | cons w ws ih =>
    obtain ⟨hfin', hle⟩ := visit_measure say u w o q hfin
    obtain ⟨hfin'', hle'⟩ := ih _ hfin'
    exact ⟨hfin'', hle'.trans hle⟩

/-! ## The counters -/

def population (g : Net N) (F : Finset N) (b : Bucket) : Int :=
  ∑ n ∈ F, if (g.cell n).any (fun c => c.bucket = b) then 1 else 0

theorem population_put (F : Finset N) {n : N} (hn : n ∈ F) {c : Cell} (hc : g.cell n = some c)
    (c' : Cell) (b : Bucket) :
    (g.put n c c').population F b =
      g.population F b - (if c.bucket = b then 1 else 0) + (if c'.bucket = b then 1 else 0) := by
  have hold : g.population F b =
      (if c.bucket = b then 1 else 0) +
        ∑ m ∈ F.erase n, if (g.cell m).any (fun c => c.bucket = b) then 1 else 0 := by
    rw [population, ← Finset.add_sum_erase F _ hn]
    simp [hc]
  have hnew : (g.put n c c').population F b =
      (if c'.bucket = b then 1 else 0) +
        ∑ m ∈ F.erase n, if (g.cell m).any (fun c => c.bucket = b) then 1 else 0 := by
    rw [population, ← Finset.add_sum_erase F _ hn]
    congr 1
    · simp
    · apply Finset.sum_congr rfl
      intro m hm
      simp [update_of_ne (Finset.ne_of_mem_erase hm)]
  rw [hold, hnew]
  abel

/-- The two nets agree on the nodes there are and on how far each counter is from the
number of nodes it should count. -/
def Steady (g g' : Net N) : Prop :=
  (∀ n, (g'.cell n).isSome = (g.cell n).isSome) ∧ g'.total = g.total ∧
    ∀ (F : Finset N), (∀ n c, g.cell n = some c → n ∈ F) → ∀ b,
      g'.count b - g'.population F b = g.count b - g.population F b

omit [DecidableEq N] in
theorem Steady.refl : Steady g g := ⟨fun _ => rfl, rfl, fun _ _ _ => rfl⟩

theorem Steady.put {g : Net N} (h : Steady g g') {n : N} {c : Cell} (hc : g'.cell n = some c)
    (c' : Cell) : Steady g (g'.put n c c') := by
  have hsome : (g.cell n).isSome := by
    rw [← h.1 n, hc]
    rfl
  refine ⟨fun m => ?_, h.2.1, fun F hF b => ?_⟩
  · rw [← h.1 m, put_cell]
    by_cases hm : m = n
    · simp [hm, hc]
    · simp [hm]
  · obtain ⟨c₀, hc₀⟩ := Option.isSome_iff_exists.mp hsome
    rw [population_put g' F (hF n c₀ hc₀) hc, ← h.2.2 F hF b]
    simp only [Net.put]
    abel

theorem Steady.flag {g : Net N} (h : Steady g g') (u w : N) : Steady g (g'.flag u w) := h

theorem Steady.visit {u : N} {o : Outcome} {g : Net N} {q : List (N × Verdict)} (h : Steady g g')
    (w : N) : Steady g (visit say u o (g', q) w).1 := by
  rcases visit_cases say u o g' q w with ⟨c, -, hc, heq⟩ | ⟨-, heq⟩
  · rw [heq]
    exact (h.put hc _).flag u w
  · rwa [heq]

theorem Steady.fanOut {u : N} {o : Outcome} {g : Net N} (ws : List N) {q : List (N × Verdict)}
    (h : Steady g g') : Steady g (fanOut say u o ws (g', q)).1 := by
  induction ws generalizing g' q with
  | nil => exact h
  | cons w ws ih => exact ih (h.visit w)

/-- A cascade moves a node from counter to counter as it moves it from phase to phase. -/
theorem Drains.steady {g₀ g : Net N} {q : List (N × Verdict)} (h : Drains say g q g')
    (hs : Steady g₀ g) : Steady g₀ g' := by
  induction h with
  | nil => exact hs
  | skip _ _ ih => exact ih hs
  | step hc _ _ _ _ ih => exact ih ((hs.put hc _).fanOut _)

omit [DecidableEq N] in
/-- Two nets with the same nodes and the same edges that have both moved steadily from one
net of finitely many nodes are the same. -/
theorem Steady.eq {g g₁ g₂ : Net N} (h₁ : Steady g g₁) (h₂ : Steady g g₂)
    (hfin : {n | (g.cell n).isSome}.Finite) (hcell : g₁.cell = g₂.cell)
    (hedge : g₁.edge = g₂.edge) : g₁ = g₂ := by
  have hF : ∀ n c, g.cell n = some c → n ∈ hfin.toFinset := by
    intro n c hc
    simp [hc]
  have hcount : g₁.count = g₂.count := by
    funext b
    have hb₁ := h₁.2.2 _ hF b
    have hb₂ := h₂.2.2 _ hF b
    have hpop : g₁.population hfin.toFinset b = g₂.population hfin.toFinset b := by
      simp only [population, hcell]
    omega
  have htotal : g₁.total = g₂.total := h₁.2.1.trans h₂.2.1.symm
  cases g₁
  cases g₂
  simp_all

end Net
end DagWorker.Graph
