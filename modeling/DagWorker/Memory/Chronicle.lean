import DagWorker.Memory.Diary
import Mathlib.Data.List.Chain

/-!
# Histories of nodes

A node's life is the list of the events that name it, from the operation that created it
on.  A life begins with the creation, is numbered without gaps, tells every change of
status, and says before each lease that the node had become ready.  Nothing is told of a
node after it has terminated.
-/

namespace DagWorker.Memory

open Function

variable {id : NodeID} {ef : Effect} {kind : EventKind}

/-- The effects that name a node. -/
def naming (id : NodeID) (es : List Effect) : List Effect :=
  es.filter fun ef => ef.nodeID = id

theorem naming_append (id : NodeID) (es es' : List Effect) :
    naming id (es ++ es') = naming id es ++ naming id es' :=
  List.filter_append ..

theorem naming_of_eq (h : ef.nodeID = id) : naming id [ef] = [ef] := by
  simp [naming, h]

theorem naming_of_ne (h : ef.nodeID ≠ id) : naming id [ef] = [] := by
  simp [naming, h]

/-- The event `b` may follow `a` in the life of a node. -/
def Precedes (a b : Effect) : Prop :=
  b.fromStatus = a.toStatus ∧ (b.toStatus = .inProgress → a.kind = .ready)

/-- A life as it should be told. -/
structure WellTold (life : List Effect) : Prop where
  seqs : life.map Effect.seq = List.range' 1 life.length
  created : ∃ e, life.head? = some e ∧ e.kind = .created ∧ e.toStatus = .new
  chained : life.IsChain Precedes

namespace Scope

/-- The life of a node with the record `r`. -/
structure Chronicle (life : List Effect) (r : NodeRec) : Prop extends WellTold life where
  count : r.seq = life.length
  last : ∃ e, life.getLast? = some e ∧ e.toStatus = r.status ∧ (r.phase = .ready → e.kind = .ready)

namespace Chronicle

variable {life : List Effect} {r r' : NodeRec} {s s' : Scope} {h : ℕ} {ef : Effect}

theorem keeps (hc : Chronicle life r) (hk : Keeps r r') : Chronicle life r' := by
  obtain ⟨e, he, hto, hready⟩ := hc.last
  refine ⟨hc.toWellTold, hk.seq.trans hc.count, e, he, hto.trans hk.status.symm, fun hp => ?_⟩
  rcases hk.phase with hsame | ⟨-, hblocked⟩
  · exact hready (hsame.symm.trans hp)
  · rw [hp] at hblocked
    cases hblocked

/-- Only a ready node is leased. -/
theorem shift_inProgress (hs : Shift r kind r') (hst : r'.status = .inProgress) :
    r.phase = .ready := by
  cases hs with
  | ready _ => cases hst
  | grant worker now hp => exact hp
  | retry reason msg now _ => cases hst
  | finish it now _ hterm =>
    rw [show it.status = .inProgress from hst] at hterm
    cases hterm

/-- A node that becomes ready is announced as such. -/
theorem shift_ready (hs : Shift r kind r') (hp : r'.phase = .ready) : kind = .ready := by
  cases hs with
  | ready _ => rfl
  | grant worker now _ => cases hp
  | retry reason msg now _ => cases hp
  | finish it now _ _ => cases hp

theorem deed (hc : Chronicle life (s.recs h)) (hd : Deed s ef s' h r) :
    Chronicle (life ++ [ef]) (s'.recs h) := by
  obtain ⟨e, he, hto, hready⟩ := hc.last
  have hseq : r.seq = life.length := hd.shift.seq.trans hc.count
  rw [hd.recs, update_self]
  refine ⟨⟨?_, ?_, ?_⟩, ?_, ef, by simp, hd.toStatus, fun hp => shift_ready hd.shift hp⟩
  · rw [List.map_append, hc.seqs, List.map_singleton, hd.seq, hseq, List.length_append,
      List.length_singleton, List.range'_concat]
    simp [Nat.add_comm]
  · obtain ⟨e₀, he₀, hcreated⟩ := hc.created
    refine ⟨e₀, ?_, hcreated⟩
    rw [List.head?_append, he₀]
    rfl
  · rw [List.isChain_append]
    refine ⟨hc.chained, List.isChain_singleton ef, fun x hx y hy => ?_⟩
    rw [he, Option.mem_some] at hx
    rw [List.head?_singleton, Option.mem_some] at hy
    subst hx hy
    refine ⟨hd.fromStatus.trans hto.symm, fun hin => hready ?_⟩
    exact shift_inProgress hd.shift (hd.toStatus.symm.trans hin)
  · rw [List.length_append, List.length_singleton, hseq]

/-- The last event tells the node's number as well. -/
theorem last_eq (hc : Chronicle life r) :
    ∃ e, life.getLast? = some e ∧ e.toStatus = r.status ∧ e.seq = r.seq := by
  obtain ⟨e, he, hto, -⟩ := hc.last
  refine ⟨e, he, hto, ?_⟩
  have hlast : (life.map Effect.seq).getLast? = some e.seq := by
    rw [List.getLast?_map, he]
    rfl
  have hlen : life.length ≠ 0 := by
    intro hzero
    rw [List.length_eq_zero_iff.mp hzero] at he
    cases he
  obtain ⟨n, hn⟩ := Nat.exists_eq_succ_of_ne_zero hlen
  rw [hc.seqs, hn, List.range'_concat, List.getLast?_concat, Option.some.injEq] at hlast
  rw [hc.count, hn, ← hlast]
  omega

end Chronicle

/-! ## Annals of one node -/

/-- No two nodes have the same identifier. -/
def Distinct (s : Scope) : Prop :=
  ∀ a b, s.Alive a → s.Alive b → (s.recs a).id = (s.recs b).id → a = b

theorem Inv.distinct {s : Scope} (hi : s.Inv) : s.Distinct :=
  fun _ _ ha hb hid => hi.indexed.id_inj ha hb hid

section Annals

variable {s s' : Scope} {es : List Effect} {h : ℕ} {life : List Effect} {id : NodeID}

theorem Deed.back {k : ℕ} {r : NodeRec} (hd : Deed s ef s' k r) (hh : s'.Alive h) :
    s.Alive h ∧ (s'.recs h).id = (s.recs h).id := by
  rw [Alive, hd.recs] at hh
  rw [hd.recs]
  by_cases hk : h = k
  · subst hk
    rw [update_self]
    exact ⟨hd.alive, hd.shift.id⟩
  · rw [update_of_ne hk] at hh ⊢
    exact ⟨hh, rfl⟩

/-- Annals create no node and rename none. -/
theorem Annals.back (ha : Annals s es s') (hh : s'.Alive h) :
    s.Alive h ∧ (s'.recs h).id = (s.recs h).id := by
  induction ha with
  | nil => exact ⟨hh, rfl⟩
  | quiet _ hs ih =>
    obtain ⟨hh₁, hk⟩ := hs h hh
    exact ⟨(ih hh₁).1, hk.id.trans (ih hh₁).2⟩
  | tell _ hd ih =>
    obtain ⟨hh₁, hid⟩ := hd.back hh
    exact ⟨(ih hh₁).1, hid.trans (ih hh₁).2⟩

/-- The node an event is about was there from the start. -/
theorem Annals.teller {s₁ : Scope} {k : ℕ} {r : NodeRec} (ha : Annals s es s₁)
    (hd : Deed s₁ ef s' k r) : s.Alive k ∧ (s.recs k).id = ef.nodeID := by
  obtain ⟨halive, hid⟩ := ha.back hd.alive
  exact ⟨halive, by rw [hd.nodeID, hd.shift.id, hid]⟩

theorem Annals.absent (ha : Annals s es s') (hno : ∀ k, s.Alive k → (s.recs k).id ≠ id) :
    naming id es = [] := by
  induction ha with
  | nil => rfl
  | quiet _ _ ih => exact ih
  | tell ha hd ih =>
    obtain ⟨hk, hid⟩ := ha.teller hd
    rw [naming_append, ih, naming_of_ne fun heq => hno _ hk (hid.trans heq)]
    rfl

/-- The annals continue the life of every node. -/
theorem Annals.chronicle (ha : Annals s es s') (hu : s.Distinct) (hh : s.Alive h)
    (hc : Chronicle life (s.recs h)) :
    WellTold (life ++ naming (s.recs h).id es) ∧
      (s'.Alive h → Chronicle (life ++ naming (s.recs h).id es) (s'.recs h)) := by
  induction ha with
  | nil =>
    rw [naming, List.filter_nil, List.append_nil]
    exact ⟨hc.toWellTold, fun _ => hc⟩
  | quiet _ hs ih =>
    refine ⟨ih.1, fun halive => ?_⟩
    obtain ⟨halive₁, hk⟩ := hs h halive
    exact (ih.2 halive₁).keeps hk
  | @tell es ef s₁ s₂ k r ha hd ih =>
    obtain ⟨hk, hid⟩ := ha.teller hd
    rw [naming_append, ← List.append_assoc]
    by_cases heq : ef.nodeID = (s.recs h).id
    · obtain rfl : k = h := hu k h hk hh (hid.trans heq)
      rw [naming_of_eq heq]
      have hnext := (ih.2 hd.alive).deed hd
      exact ⟨hnext.toWellTold, fun _ => hnext⟩
    · have hne : h ≠ k := by
        rintro rfl
        exact heq hid.symm
      rw [naming_of_ne heq, List.append_nil]
      refine ⟨ih.1, fun halive => ?_⟩
      rw [Alive, hd.recs, update_of_ne hne] at halive
      rw [hd.recs, update_of_ne hne]
      exact ih.2 halive

/-- A node that has terminated stays as it is, and nothing is told of it. -/
theorem Annals.absorbs (ha : Annals s es s') (hu : s.Distinct) (hh : s'.Alive h)
    (hdone : (s.recs h).phase = .done) :
    (s'.recs h).phase = .done ∧ verdict (s'.recs h) = verdict (s.recs h) ∧
      naming (s.recs h).id es = [] := by
  induction ha with
  | nil => exact ⟨hdone, rfl, rfl⟩
  | quiet _ hs ih =>
    obtain ⟨hh₁, hk⟩ := hs h hh
    obtain ⟨hdone₁, hverdict, hnone⟩ := ih hh₁
    refine ⟨?_, (hk.verdict hdone₁).trans hverdict, hnone⟩
    rcases hk.phase with hp | ⟨hp, -⟩
    · exact hp.trans hdone₁
    · rw [hdone₁] at hp
      cases hp
  | @tell es ef s₁ s₂ k r ha hd ih =>
    obtain ⟨hh₁, -⟩ := hd.back hh
    obtain ⟨hdone₁, hverdict, hnone⟩ := ih hh₁
    obtain ⟨hk, hid⟩ := ha.teller hd
    have hne : h ≠ k := by
      rintro rfl
      exact hd.shift.phase_ne_done hdone₁
    have hother : ef.nodeID ≠ (s.recs h).id := fun heq =>
      hne (hu k h hk (ha.back hh₁).1 (hid.trans heq)).symm
    rw [hd.recs, update_of_ne hne, naming_append, hnone, naming_of_ne hother]
    exact ⟨hdone₁, hverdict, rfl⟩

end Annals

/-! ## Births -/

section Announces

variable {s s' : Scope} {hs : List ℕ} {es : List Effect}

theorem Announces.recs (ha : Announces s hs es s') (h : ℕ) :
    (h ∉ hs → s'.recs h = s.recs h) ∧ (s'.recs h).alive = (s.recs h).alive ∧
      (s'.recs h).id = (s.recs h).id := by
  induction ha with
  | nil => exact ⟨fun _ => rfl, rfl, rfl⟩
  | @snoc hs es s₁ s₂ k ef _ _ _ _ _ hrecs ih =>
    obtain ⟨hsame, halive, hid⟩ := ih
    rw [hrecs]
    by_cases hk : h = k
    · subst hk
      rw [update_self]
      exact ⟨fun hno => absurd (List.mem_append_right _ (List.mem_singleton_self _)) hno, halive,
        hid⟩
    · rw [update_of_ne hk]
      exact ⟨fun hno => hsame fun hmem => hno (List.mem_append_left _ hmem), halive, hid⟩

theorem Announces.absent (ha : Announces s hs es s') (hno : ∀ k ∈ hs, (s.recs k).id ≠ id) :
    naming id es = [] := by
  induction ha with
  | nil => rfl
  | @snoc hs es s₁ s₂ k ef ha _ hnode _ _ _ ih =>
    have hid := (ha.recs k).2.2
    have hne : ef.nodeID ≠ id := by
      rw [hnode, hid]
      exact hno k (List.mem_append_right _ (List.mem_singleton_self _))
    rw [naming_append, ih fun k hk => hno k (List.mem_append_left _ hk), naming_of_ne hne]
    rfl

/-- The announcement of a new node begins its life. -/
theorem Announces.chronicle {h : ℕ} (ha : Announces s hs es s') (hnodup : hs.Nodup)
    (hu : ∀ a ∈ hs, ∀ b ∈ hs, (s.recs a).id = (s.recs b).id → a = b) (hh : h ∈ hs)
    (hseq : (s.recs h).seq = 0) (hstatus : (s.recs h).status = .new)
    (hphase : (s.recs h).phase = .blocked) :
    Chronicle (naming (s.recs h).id es) (s'.recs h) := by
  induction ha with
  | nil => cases hh
  | @snoc hs es s₁ s₂ k ef ha hkind hnode hto hef hrecs ih =>
    rw [List.nodup_append] at hnodup
    have hleft : ∀ a ∈ hs, a ∈ hs ++ [k] := fun a hmem => List.mem_append_left _ hmem
    have hright : k ∈ hs ++ [k] := List.mem_append_right _ (List.mem_singleton_self _)
    have hid := (ha.recs k).2.2
    rw [naming_append, hrecs]
    rcases List.mem_append.mp hh with hmem | hmem
    · have hne : h ≠ k := hnodup.2.2 h hmem k (List.mem_singleton_self _)
      have hother : ef.nodeID ≠ (s.recs h).id := by
        rw [hnode, hid]
        exact fun heq => hne (hu k hright h (hleft h hmem) heq).symm
      rw [naming_of_ne hother, List.append_nil, update_of_ne hne]
      exact ih hnodup.1 (fun a hmem b hb => hu a (hleft a hmem) b (hleft b hb)) hmem
    · obtain rfl := List.mem_singleton.mp hmem
      have hnew : h ∉ hs := fun hin => hnodup.2.2 h hin h (List.mem_singleton_self _) rfl
      have hsame := (ha.recs h).1 hnew
      have hnone : naming (s.recs h).id es = [] := ha.absent fun a hmem heq =>
        hnew (hu a (hleft a hmem) h hright heq ▸ hmem)
      rw [hsame] at hnode hto hef
      rw [hnone, List.nil_append, naming_of_eq hnode, update_self, hsame]
      refine ⟨⟨?_, ⟨ef, rfl, hkind, hto.trans hstatus⟩, List.isChain_singleton ef⟩, ?_, ef, rfl,
        hto, ?_⟩
      · rw [List.map_singleton, hef, hseq]
        rfl
      · rw [hseq]
        rfl
      · intro hp
        rw [show (s.recs h).phase = .ready from hp] at hphase
        cases hphase

end Announces

end Scope

end DagWorker.Memory
