import DagWorker.Graph.Cascade
import Mathlib.Logic.Relation

/-!
# Failures one after another

A failure goes along the open edges and stops at the nodes whose rule it does not break.
When several nodes are made to fail in turn, a node that an earlier failure has reached no
longer ends with the verdict it was to get.
-/

namespace DagWorker

/-- A rule that one failed predecessor breaks. -/
def TriggerRule.strict (t : TriggerRule) : Bool := ({ failed := 1 } : DepCounts).unsatisfiable t

theorem DepCounts.unsatisfiable_bump_failed {d : DepCounts} {k : ℕ} (hk : k ≤ d.unsatisfied)
    (hpos : k ≠ 0) (t : TriggerRule) : (d.bump .failed k).unsatisfiable t = t.strict := by
  rw [bump_eq (by simp) hk]
  cases t <;> simp [unsatisfiable, TriggerRule.strict] <;> omega

namespace Graph

open DepCounts (lostReason)
open Relation (ReflTransGen)

/-- How a node has ended. -/
def Cell.verdict (c : Cell) : Verdict := ⟨c.status, c.reason, c.message⟩

namespace Net

variable {N : Type} {g g' : Net N} {r a w : N}

def Live (g : Net N) (w : N) : Prop := ∃ c, g.cell w = some c ∧ c.phase ≠ .done

def Ended (g : Net N) (w : N) (x : Verdict) : Prop :=
  ∃ c, g.cell w = some c ∧ c.phase = .done ∧ c.verdict = x

/-- A failure of `u` is one of `w`. -/
def Passes (g : Net N) (u w : N) : Prop :=
  g.edge u w = some false ∧ ∃ c, g.cell w = some c ∧ c.Waits ∧ c.trigger.strict = true

/-- A failure of `r` gets to `w`. -/
def Reaches (g : Net N) (r w : N) : Prop := g.Live r ∧ ReflTransGen g.Passes r w

theorem Ended.not_live {x : Verdict} (h : g.Ended w x) : ¬g.Live w := by
  obtain ⟨c, hc, hdone, -⟩ := h
  rintro ⟨c', hc', hlive⟩
  rw [hc] at hc'
  exact hlive (Option.some.inj hc' ▸ hdone)

/-- A failure gets only to nodes that have not terminated. -/
theorem Reaches.live (h : g.Reaches r w) : g.Live w := by
  obtain rfl | ⟨b, -, -, c, hc, hwaits, -⟩ := h.2.cases_tail
  · exact h.1
  · exact ⟨c, hc, Cell.not_done_of_waits hwaits⟩

/-- What a failure falls through to is closed under passing it on. -/
theorem Reaches.trans (h : g.Reaches r a) (hw : ReflTransGen g.Passes a w) : g.Reaches r w :=
  ⟨h.1, h.2.trans hw⟩

/-- The nodes that fall with a failure are those it gets to. -/
theorem fallen_failed_iff (ht : g.Tallied) :
    Fallen g r .failed w ↔ ReflTransGen g.Passes r w := by
  constructor
  · intro h
    induction h with
    | root => exact .refl
    | @step w c us hc hwaits hne _ hedge hlost ih =>
      obtain ⟨u, hu⟩ := hne
      refine (ih u hu).tail ⟨hedge u hu, c, hc, hwaits, ?_⟩
      have hk : us.card ≤ c.deps.unsatisfied := by
        rw [← Set.ncard_coe_finset]
        exact ht.ncard_le hc hedge
      rwa [DepCounts.unsatisfiable_bump_failed hk (Finset.card_ne_zero_of_mem hu)] at hlost
  · intro h
    induction h with
    | refl => exact .root
    | @tail u w _ hpass ih =>
      obtain ⟨hedge, c, hc, hwaits, hstrict⟩ := hpass
      have hedges : ∀ x ∈ ({u} : Finset N), g.edge x w = some false := by simpa using hedge
      have hk : ({u} : Finset N).card ≤ c.deps.unsatisfied := by
        rw [← Set.ncard_coe_finset]
        exact ht.ncard_le hc hedges
      refine .step hc hwaits (Finset.singleton_nonempty u) (by simpa using ih) hedges ?_
      rwa [DepCounts.unsatisfiable_bump_failed hk (by simp)]

variable [DecidableEq N] {say : Reason → String} {v : Verdict}

/-- The net after a failure of `r`: what it gets to has ended, and all else waits as
before. -/
structure Felled (say : Reason → String) (v : Verdict) (g : Net N) (r : N) (g' : Net N) :
    Prop where
  fallen : ∀ w, g.Reaches r w → g'.Ended w (verdictOn say r v w)
  ended : ∀ w x, g.Ended w x → g'.Ended w x
  live : ∀ w, g.Live w → ¬g.Reaches r w → g'.Live w
  was_live : ∀ w, g'.Live w → g.Live w
  passes : ∀ a w, ¬g.Reaches r w → (g'.Passes a w ↔ g.Passes a w)

theorem Drains.felled {c₀ : Cell} (ht : g.Tallied) (hv : v.outcome = .failed)
    (hr : g.cell r = some c₀) (hd : Drains say g [(r, v)] g') : Felled say v g r g' := by
  by_cases hdone : c₀.phase = .done
  · obtain rfl := hd.of_done hr hdone
    have hdead : ¬g'.Live r := Ended.not_live ⟨c₀, hr, hdone, rfl⟩
    exact ⟨fun w hw => absurd hw.1 hdead, fun _ _ h => h, fun _ h _ => h, fun _ h => h,
      fun _ _ _ => Iff.rfl⟩
  · obtain ⟨D, M, hp⟩ := hd.progress ht (.inl hv) hr hdone (progress_start say g r v)
    have hlive : g.Live r := ⟨c₀, hr, hdone⟩
    have hD : ∀ w, w ∈ D ↔ g.Reaches r w := by
      intro w
      rw [hp.done_iff ht, hv, fallen_failed_iff ht]
      exact (and_iff_right hlive).symm
    have hcell : ∀ {w c}, g.cell w = some c → ∃ c', g'.cell w = some c' ∧
        (w ∈ D ∧ c' = (c.after v.outcome (M w).ncard).finish (verdictOn say r v w) ∨
          w ∉ D ∧ c' = c.after v.outcome (M w).ncard) := by
      intro w c hc
      have hsome : (g'.cell w).isSome := by rw [hp.isSome, hc, Option.isSome_some]
      obtain ⟨c', hc'⟩ := Option.isSome_iff_exists.mp hsome
      obtain ⟨c₁, hc₁, h⟩ := hp.find hc'
      obtain rfl := Option.mem_unique hc₁ hc
      exact ⟨c', hc', h⟩
    constructor
    case fallen =>
      intro w hw
      obtain ⟨c, hc, -⟩ := hw.live
      obtain ⟨c', hc', ⟨-, rfl⟩ | ⟨hnot, -⟩⟩ := hcell hc
      · exact ⟨_, hc', rfl, rfl⟩
      · exact absurd ((hD w).mpr hw) hnot
    case ended =>
      rintro w x ⟨c, hc, hdone', rfl⟩
      obtain ⟨c', hc', ⟨hin, -⟩ | ⟨-, rfl⟩⟩ := hcell hc
      · exact absurd ((hD w).mp hin).live (Ended.not_live ⟨c, hc, hdone', rfl⟩)
      refine ⟨_, hc', (c.after_done _ _).mpr hdone', ?_⟩
      rcases c.after_eq v.outcome (M w).ncard with h | ⟨hb, -⟩
      · rw [h]
        rfl
      · rw [hb] at hdone'
        cases hdone'
    case live =>
      rintro w ⟨c, hc, hopen⟩ hnot
      obtain ⟨c', hc', ⟨hin, -⟩ | ⟨-, rfl⟩⟩ := hcell hc
      · exact absurd ((hD w).mp hin) hnot
      · exact ⟨_, hc', mt (c.after_done _ _).mp hopen⟩
    case was_live =>
      rintro w ⟨c', hc', hopen⟩
      obtain ⟨-, c, hc, rfl⟩ := hp.live hc' hopen
      exact ⟨c, hc, mt (c.after_done _ _).mpr hopen⟩
    case passes =>
      intro a w hnot
      constructor
      · rintro ⟨hedge, c', hc', hwaits, hstrict⟩
        have ha : a ∉ M w := by
          intro ha
          rw [hp.edge a w ha] at hedge
          cases hedge
        obtain ⟨-, c, hc, rfl⟩ := hp.live hc' (Cell.not_done_of_waits hwaits)
        rw [Cell.after_waits] at hwaits
        rw [Cell.after_trigger] at hstrict
        exact ⟨hp.edge_old a w ha ▸ hedge, c, hc, hwaits, hstrict⟩
      · rintro ⟨hedge, c, hc, hwaits, hstrict⟩
        have ha : a ∉ M w := by
          intro ha
          have hreach : g.Reaches r a := (hD a).mp (hp.told a w ha).1
          exact hnot (hreach.trans (.single ⟨hedge, c, hc, hwaits, hstrict⟩))
        obtain ⟨c', hc', ⟨hin, -⟩ | ⟨-, rfl⟩⟩ := hcell hc
        · exact absurd ((hD w).mp hin) hnot
        · refine ⟨(hp.edge_old a w ha).trans hedge, _, hc', (c.after_waits _ _).mpr hwaits, ?_⟩
          rwa [Cell.after_trigger]

/-- A failure that does not get to a node leaves the ways to it as they are. -/
theorem Felled.reaches_iff (h : Felled say v g r g') (hnot : ¬g.Reaches r w) (a : N) :
    g'.Reaches a w ↔ g.Reaches a w := by
  have hback : ∀ {b}, ReflTransGen g.Passes b w → ¬g.Reaches r b :=
    fun hb hreach => hnot (hreach.trans hb)
  constructor
  · rintro ⟨hlive, hchain⟩
    refine ⟨h.was_live a hlive, ?_⟩
    clear hlive
    induction hchain using ReflTransGen.head_induction_on with
    | refl => exact .refl
    | head hpass _ ih => exact .head ((h.passes _ _ (hback ih)).mp hpass) ih
  · rintro ⟨hlive, hchain⟩
    refine ⟨h.live a hlive (hback hchain), ?_⟩
    clear hlive
    induction hchain using ReflTransGen.head_induction_on with
    | refl => exact .refl
    | head hpass hrest ih => exact .head ((h.passes _ _ (hback hrest)).mpr hpass) ih

/-- Nodes are terminated one after another, all with one verdict. -/
inductive Topples (say : Reason → String) (v : Verdict) : Net N → List N → Net N → Prop
  | nil {g : Net N} : Topples say v g [] g
  | cons {g g₁ g' : Net N} {r : N} {rs : List N} {c₀ : Cell} :
      g.Tallied → g.cell r = some c₀ → Drains say g [(r, v)] g₁ → Topples say v g₁ rs g' →
      Topples say v g (r :: rs) g'

section Topples

variable {rs pre post : List N} (hv : v.outcome = .failed)
include hv

theorem Topples.ended (h : Topples say v g rs g') {x : Verdict} (hw : g.Ended w x) :
    g'.Ended w x := by
  induction h with
  | nil => exact hw
  | cons ht hr hd _ ih => exact ih ((hd.felled ht hv hr).ended w x hw)

/-- **The first failure that gets to a node decides.**  A node of the list gets the verdict
when no failure of a node before it does, and falls otherwise. -/
theorem Topples.ends (h : Topples say v g (pre ++ w :: post) g') (hw : g.Live w)
    (hpre : w ∉ pre) :
    (∀ r ∈ pre, ¬g.Reaches r w) ∧ g'.Ended w v ∨
      (∃ r ∈ pre, g.Reaches r w) ∧
        g'.Ended w ⟨.error, .upstreamFailed, say .upstreamFailed⟩ := by
  induction pre generalizing g with
  | nil =>
    cases h with
    | cons ht hr hd hrest =>
      have hfirst := (hd.felled ht hv hr).fallen w ⟨hw, .refl⟩
      rw [verdictOn, if_pos rfl] at hfirst
      exact .inl ⟨by simp, hrest.ended hv hfirst⟩
  | cons r pre ih =>
    rw [List.mem_cons, not_or] at hpre
    cases h with
    | cons ht hr hd hrest =>
      have hf := hd.felled ht hv hr
      by_cases hreach : g.Reaches r w
      · have hlost := hrest.ended hv (hf.fallen w hreach)
        rw [verdictOn, if_neg hpre.1, hv] at hlost
        exact .inr ⟨⟨r, List.mem_cons_self .., hreach⟩, hlost⟩
      · have hends := ih hrest (hf.live w hw hreach) hpre.2
        simpa [hf.reaches_iff hreach, hreach] using hends

end Topples
end Net
end Graph
end DagWorker
