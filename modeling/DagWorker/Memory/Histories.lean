import DagWorker.Memory.Chronicle

/-!
# The events of whole runs

What one operation tells of a node is put together over a run: the effects returned
by the calls on a scope are its event log, and each generation of a node, from the
operation that creates it to the one that deletes it, has a well told life.
-/

namespace DagWorker.Memory

open Function

variable {s : Scope} {id : NodeID} {r : StepRecord} {st st' : Store} {name : String}
  {steps : List StepRecord} {defaults : ScopeConfig} {logCap : ℕ}

namespace Scope

def node (s : Scope) (id : NodeID) : Option NodeRec := (s.lookup id).map s.recs

theorem Inv.node_eq_some (hi : s.Inv) {r : NodeRec} :
    s.node id = some r ↔ ∃ h, s.Alive h ∧ (s.recs h).id = id ∧ s.recs h = r := by
  simp only [node, Option.map_eq_some_iff, hi.indexed.lookup_iff, and_assoc]

theorem Inv.node_eq_none (hi : s.Inv) :
    s.node id = none ↔ ∀ h, s.Alive h → (s.recs h).id ≠ id := by
  rw [node, Option.map_eq_none_iff, Option.eq_none_iff_forall_ne_some]
  simp only [ne_eq, hi.indexed.lookup_iff, not_and]

/-- What the effects `es` of an operation tell of a node, given its records before and
after it; the operation may create nodes under the identifiers `ids`. -/
structure Tells (ids : List NodeID) (id : NodeID) (before : Option NodeRec) (es : List Effect)
    (after : Option NodeRec) : Prop where
  goes : ∀ r life, before = some r → Chronicle life r →
    WellTold (life ++ naming id es) ∧ ∀ r', after = some r' → Chronicle (life ++ naming id es) r'
  begins : before = none → ∀ r', after = some r' → Chronicle (naming id es) r'
  starts : before = none → naming id es = [] ∨ id ∈ ids ∧ WellTold (naming id es)
  absorbs : ∀ r r', before = some r → after = some r' → r.phase = .done →
    r'.phase = .done ∧ verdict r' = verdict r ∧ naming id es = []

theorem Tells.refl {ids : List NodeID} (id : NodeID) (n : Option NodeRec) :
    Tells ids id n [] n := by
  constructor
  · intro r life hr hc
    rw [naming, List.filter_nil, List.append_nil]
    refine ⟨hc.toWellTold, fun r' hr' => ?_⟩
    rw [hr, Option.some.injEq] at hr'
    exact hr' ▸ hc
  · intro hnone r' hr'
    rw [hnone] at hr'
    cases hr'
  · intro _
    exact .inl rfl
  · intro r r' hr hr' hdone
    rw [hr, Option.some.injEq] at hr'
    exact hr' ▸ ⟨hdone, rfl, rfl⟩

section Chapter

variable {s s' : Scope} {es : List Effect} {ids : List NodeID}

theorem Annals.tells (ha : Annals s es s') (hi : s.Inv) (hi' : s'.Inv) (id : NodeID) :
    Tells ids id (s.node id) es (s'.node id) := by
  -- a node of the end is the node of that name at the start
  have hback : ∀ r', s'.node id = some r' →
      ∃ h, s.Alive h ∧ (s.recs h).id = id ∧ s'.Alive h ∧ s'.recs h = r' := by
    intro r' hr'
    obtain ⟨h, hh, hid, hrec⟩ := hi'.node_eq_some.mp hr'
    obtain ⟨hh₀, hid₀⟩ := ha.back hh
    exact ⟨h, hh₀, hid₀.symm.trans hid, hh, hrec⟩
  constructor
  · intro r life hr hc
    obtain ⟨h, hh, rfl, rfl⟩ := hi.node_eq_some.mp hr
    obtain ⟨htold, hlive⟩ := ha.chronicle hi.distinct hh hc
    refine ⟨htold, fun r' hr' => ?_⟩
    obtain ⟨k, hk, hid, hk', rfl⟩ := hback r' hr'
    obtain rfl := hi.distinct k h hk hh hid
    exact hlive hk'
  · intro hnone r' hr'
    obtain ⟨h, hh, hid, -⟩ := hback r' hr'
    exact absurd hid (hi.node_eq_none.mp hnone h hh)
  · intro hnone
    exact .inl (ha.absent (hi.node_eq_none.mp hnone))
  · intro r r' hr hr' hdone
    obtain ⟨h, hh, hid, hh', rfl⟩ := hback r' hr'
    obtain ⟨k, hk, hkid, rfl⟩ := hi.node_eq_some.mp hr
    obtain rfl := hi.distinct k h hk hh (hkid.trans hid.symm)
    have habs := ha.absorbs hi.distinct hh' hdone
    rw [hid] at habs
    exact habs

/-- Nodes are announced before anything else is told of them. -/
theorem births_tells {fresh : List ℕ} {s₁ s₂ : Scope} {es' : List Effect} (hb : Born s fresh s₁)
    (hids : ∀ h ∈ fresh, (s₁.recs h).id ∈ ids) (hpath : Path s [] s₁) (hann : Announces s₁ fresh es s₂) (ha : Annals s₂ es' s')
    (hi : s.Inv) (hi' : s'.Inv) (id : NodeID) :
    Tells ids id (s.node id) (es ++ es') (s'.node id) := by
  have hi₁ := hi.path hpath
  have halive : ∀ h, s₂.Alive h ↔ s₁.Alive h := fun h => by
    rw [Alive, (hann.recs h).2.1]
  have hid : ∀ h, (s₂.recs h).id = (s₁.recs h).id := fun h => (hann.recs h).2.2
  have hu : s₂.Distinct := by
    intro a b hA hB heq
    rw [hid, hid] at heq
    exact hi₁.distinct a b ((halive a).mp hA) ((halive b).mp hB) heq
  -- the announcements leave the nodes that existed before alone
  have hold : ∀ h, s.Alive h → s₂.Alive h ∧ Keeps (s.recs h) (s₂.recs h) ∧
      naming (s.recs h).id es = [] := by
    intro h hh
    obtain ⟨hh₁, hk⟩ := hb.kept h hh
    have hnew : h ∉ fresh := fun hmem => (hb.blank h hmem).1 hh
    rw [(hann.recs h).1 hnew]
    refine ⟨(halive h).mpr hh₁, hk, hann.absent fun k hmem heq => hnew ?_⟩
    have heq' : (s₁.recs k).id = (s₁.recs h).id := heq.trans hk.id.symm
    exact hi₁.distinct k h (hb.blank k hmem).2.1 hh₁ heq' ▸ hmem
  -- a node of the end existed before or is new
  have hback : ∀ r', s'.node id = some r' →
      ∃ h, s₂.Alive h ∧ (s₂.recs h).id = id ∧ s'.Alive h ∧ s'.recs h = r' := by
    intro r' hr'
    obtain ⟨h, hh, hid', hrec⟩ := hi'.node_eq_some.mp hr'
    obtain ⟨hh₂, hid₂⟩ := ha.back hh
    exact ⟨h, hh₂, hid₂.symm.trans hid', hh, hrec⟩
  -- where there was no such node, a node of that name is new
  have hfresh : s.node id = none → ∀ h, s₂.Alive h → (s₂.recs h).id = id → h ∈ fresh := by
    intro hnone h hh₂ hhid
    rcases hb.old h ((halive h).mp hh₂) with hh | hmem
    · obtain ⟨-, hk, -⟩ := hold h hh
      exact absurd (hk.id.symm.trans hhid) (hi.node_eq_none.mp hnone h hh)
    · exact hmem
  have hlife : ∀ h, h ∈ fresh → s₂.Alive h → (s₂.recs h).id = id →
      WellTold (naming id (es ++ es')) ∧
        (s'.Alive h → Chronicle (naming id (es ++ es')) (s'.recs h)) := by
    intro h hmem hh₂ hhid
    obtain ⟨-, -, hseq, hstatus, hphase⟩ := hb.blank h hmem
    have hbegin := hann.chronicle hb.nodup (fun a hA b hB =>
      hi₁.distinct a b (hb.blank a hA).2.1 (hb.blank b hB).2.1) hmem hseq hstatus hphase
    have hgo := ha.chronicle hu hh₂ hbegin
    rw [hhid, ← hid h, hhid] at hgo
    rw [naming_append]
    exact hgo
  constructor
  · intro r life hr hc
    obtain ⟨h, hh, rfl, rfl⟩ := hi.node_eq_some.mp hr
    obtain ⟨hh₂, hk, hnone⟩ := hold h hh
    obtain ⟨htold, hlive⟩ := ha.chronicle hu hh₂ (hc.keeps hk)
    rw [hk.id] at htold hlive
    rw [naming_append, hnone, List.nil_append]
    refine ⟨htold, fun r' hr' => ?_⟩
    obtain ⟨k, hk₂, hkid, hk', rfl⟩ := hback r' hr'
    obtain rfl := hu k h hk₂ hh₂ (hkid.trans hk.id.symm)
    exact hlive hk'
  · intro hnone r' hr'
    obtain ⟨h, hh₂, hhid, hh', rfl⟩ := hback r' hr'
    exact (hlife h (hfresh hnone h hh₂ hhid) hh₂ hhid).2 hh'
  · intro hnone
    by_cases hex : ∃ h, s₂.Alive h ∧ (s₂.recs h).id = id
    · obtain ⟨h, hh₂, hhid⟩ := hex
      have hmem := hfresh hnone h hh₂ hhid
      exact .inr ⟨hhid ▸ hid h ▸ hids h hmem, (hlife h hmem hh₂ hhid).1⟩
    have hno : ∀ k, s₂.Alive k → (s₂.recs k).id ≠ id := fun k hk hkid => hex ⟨k, hk, hkid⟩
    have hnew : ∀ k ∈ fresh, (s₁.recs k).id ≠ id := by
      intro k hk
      rw [← hid]
      exact hno k ((halive k).mpr (hb.blank k hk).2.1)
    rw [naming_append, hann.absent hnew, ha.absent hno]
    exact .inl rfl
  · intro r r' hr hr' hdone
    obtain ⟨h, hh₂, hhid, hh', rfl⟩ := hback r' hr'
    obtain ⟨k, hk, hkid, rfl⟩ := hi.node_eq_some.mp hr
    obtain ⟨hk₂, hkeep, hnone⟩ := hold k hk
    obtain rfl := hu k h hk₂ hh₂ (hkeep.id.trans (hkid.trans hhid.symm))
    have hdone₂ : (s₂.recs k).phase = .done := by
      rcases hkeep.phase with hp | ⟨hp, -⟩
      · exact hp.trans hdone
      · rw [hdone] at hp
        cases hp
    obtain ⟨hdone', hverdict, hnone'⟩ := ha.absorbs hu hh' hdone₂
    rw [hkid] at hnone
    rw [hhid] at hnone'
    rw [naming_append, hnone, hnone']
    exact ⟨hdone', hverdict.trans (hkeep.verdict hdone), rfl⟩

theorem Chapter.tells (hch : Chapter ids s es s') (hi : s.Inv) (hi' : s'.Inv) (id : NodeID) :
    Tells ids id (s.node id) es (s'.node id) := by
  cases hch with
  | plain ha => exact ha.tells hi hi' id
  | births hb hids hpath hann ha => exact births_tells hb hids hpath hann ha hi hi' id

theorem Copies.node {hs : List ℕ} (hc : Copies hs s s') (hi : s.Inv) (id : NodeID) :
    s'.node id = s.node id := by
  cases hl : s'.lookup id with
  | some i =>
    obtain ⟨hlt, hold⟩ := (hc.lookup id i).mp hl
    rw [Scope.node, Scope.node, hl, hold, Option.map_some, Option.map_some, hc.recs i hlt]
  | none =>
    cases hl' : s.lookup id with
    | none => rw [Scope.node, Scope.node, hl, hl']; rfl
    | some h =>
      -- every node has a place in the copy
      have hmem := (hc.mem h).mpr (hi.indexed.alive_of_lookup hl')
      obtain ⟨i, hi, hget⟩ := exists_old hmem
      have hsome := (hc.lookup id i).mpr ⟨hi, by rw [hl', hget]⟩
      rw [hl] at hsome
      cases hsome

end Chapter

end Scope

/-! ## One step -/

def Store.node (st : Store) (name : String) (id : NodeID) : Option NodeRec :=
  (st.scopes.lookup name).bind fun s => s.node id

theorem Store.node_of_some
    (hs : st.scopes.lookup name = some s) (id : NodeID) : st.node name id = s.node id := by
  rw [Store.node, hs]
  rfl

theorem Store.Finds.node (hs : st.Finds name s)
    (id : NodeID) : st.node name id = s.node id := by
  rcases hs with hl | ⟨hl, rfl⟩
  · exact Store.node_of_some hl id
  · rw [Store.node, hl]
    rfl

/-- The effects a step returned for a scope. -/
def StepRecord.heard (r : StepRecord) (name : String) : List Effect :=
  if r.call.target = some name then r.reply.announced else []

theorem StepRecord.heard_of_idle (hidle : r.reply.Idle) (name : String) :
    r.heard name = [] := by
  rw [heard, hidle.announced, ite_self]

theorem Valid.tells (hv : r.Valid exec)
    (hsound : ∀ n s, r.before.scopes.lookup n = some s → s.Sound n) (name : String)
    (id : NodeID) :
    Scope.Tells r.call.added id (r.before.node name id) (r.heard name) (r.after.node name id) := by
  have hstep := Valid.storeStep hv
  generalize hafter : r.after = st' at hstep
  cases hstep with
  | idle hsame _ hidle =>
    rw [StepRecord.heard_of_idle hidle, Store.node, Store.node, hsame]
    exact Scope.Tells.refl id _
  | @scope m s s' htarget hfinds hy =>
    have hi := (hfinds.sound hsound).inv
    by_cases hm : name = m
    · subst hm
      have hi' := ((body_moves hi r.call).of_yields hy).inv hi
      have hch := ((body_performs hi r.call).of_yields hy).chapter
      have hnode : (r.before.setScope name s').node name id = s'.node id := by
        apply Store.node_of_some
        rw [Store.setScope, AList.lookup_insert]
      rw [StepRecord.heard, if_pos htarget, hfinds.node, hnode]
      exact hch.tells hi hi' id
    · have hother : r.call.target ≠ some name := by
        rw [htarget]
        exact fun heq => hm (Option.some.inj heq).symm
      have hnode : (r.before.setScope m s').node name id = r.before.node name id := by
        rw [Store.node, Store.setScope, AList.lookup_insert_ne hm]
        rfl
      rw [StepRecord.heard, if_neg hother, hnode]
      exact Scope.Tells.refl id _
  | restore hidle hok =>
    have hlook := restore_lookup (fun n s hs => ⟨(hsound n s hs).inv, (hsound n s hs).name_eq⟩)
      hok name
    have hnode : st'.node name id = r.before.node name id := by
      rw [Store.node, Store.node, hlook]
      cases hs : r.before.scopes.lookup name with
      | none => rfl
      | some s =>
        have hi := (hsound name s hs).inv
        exact (Scope.restored_copies hi _).node hi id
    rw [StepRecord.heard_of_idle hidle, hnode]
    exact Scope.Tells.refl id _

/-! ## Runs -/

/-- The effects the calls of a run returned for a scope, in order. -/
def heardOf (name : String) (steps : List StepRecord) : List Effect :=
  steps.flatMap fun r => r.heard name

theorem heardOf_append (name : String) (steps steps' : List StepRecord) :
    heardOf name (steps ++ steps') = heardOf name steps ++ heardOf name steps' :=
  List.flatMap_append

theorem heardOf_snoc (name : String) (steps : List StepRecord) (r : StepRecord) :
    heardOf name (steps ++ [r]) = heardOf name steps ++ r.heard name := by
  simp [heardOf]

theorem logCap_new (defaults : ScopeConfig) (logCap : ℕ) :
    0 < (Store.new defaults logCap).logCap := by
  unfold Store.new defaultEventLogSize
  dsimp only
  split <;> omega

theorem restoreScopes_logCap {cap : ℕ} {snap : List ScopeSnapshot}
    (hok : Store.restoreScopes cap snap st = .ok st') : st'.logCap = st.logCap := by
  induction snap generalizing st with
  | nil =>
    cases hok
    rfl
  | cons ss snap ih =>
    rw [Store.restoreScopes] at hok
    split at hok
    · cases hok
    cases hs : Scope.restoreScope ss cap with
    | error e =>
      rw [hs] at hok
      cases hok
    | ok s =>
      rw [hs] at hok
      exact (ih hok).trans rfl

/-- What the run so far says about the log of a scope. -/
structure Logged (name : String) (steps : List StepRecord) (st : Store) : Prop where
  room : 0 < st.logCap
  absent : st.scopes.lookup name = none → heardOf name steps = []
  diary : ∀ s, st.scopes.lookup name = some s → s.Diary (heardOf name steps)

theorem Logged.found
    (h : Logged name steps st) (hs : st.Finds name s) : s.Diary (heardOf name steps) := by
  rcases hs with hl | ⟨hl, rfl⟩
  · exact h.diary s hl
  · rw [h.absent hl]
    exact Scope.Diary.newScope _ _ h.room

/-- Induction over the run: each step extends the log of the scope it works on. -/
theorem Run.logged
    (hrun : Run (Store.new defaults logCap) steps st) (name : String) : Logged name steps st := by
  induction hrun with
  | nil => exact ⟨logCap_new _ _, fun _ => rfl, by simp [Store.new]⟩
  | @snoc steps r hrun hv ih =>
    have hsound := Run.sound hrun
    generalize hafter : r.after = st'
    have hstep := Valid.storeStep hv
    rw [hafter] at hstep
    cases hstep with
    | idle hsame hcap hidle =>
      have hheard := StepRecord.heard_of_idle hidle name
      constructor
      · rw [hcap]
        exact ih.room
      · intro hl
        rw [heardOf_snoc, hheard, List.append_nil]
        exact ih.absent (hsame ▸ hl)
      · intro s hl
        rw [heardOf_snoc, hheard, List.append_nil]
        exact ih.diary s (hsame ▸ hl)
    | @scope m s s' htarget hfinds hy =>
      by_cases hm : name = m
      · subst hm
        have hi := (hfinds.sound hsound).inv
        have hbody := (body_diary hi (ih.found hfinds) r.call).of_yields hy
        refine ⟨ih.room, fun hl => by simp [Store.setScope] at hl, fun t hl => ?_⟩
        simp only [Store.setScope, AList.lookup_insert, Option.some.injEq] at hl
        subst hl
        rw [heardOf_snoc, StepRecord.heard, if_pos htarget]
        exact hbody
      · have hlook : (r.before.setScope m s').scopes.lookup name =
            r.before.scopes.lookup name := AList.lookup_insert_ne hm
        have hheard : StepRecord.heard r name = [] := by
          rw [StepRecord.heard, htarget, if_neg fun heq => hm (Option.some.inj heq).symm]
        refine ⟨ih.room, fun hl => ?_, fun t hl => ?_⟩
        · rw [heardOf_snoc, hheard, List.append_nil]
          exact ih.absent (hlook ▸ hl)
        · rw [heardOf_snoc, hheard, List.append_nil]
          exact ih.diary t (hlook ▸ hl)
    | @restore defaults' logCap' st'' hidle hok =>
      have hcap := logCap_new defaults' logCap'
      have hlook := restore_lookup (fun n t ht => ⟨(hsound n t ht).inv,
        (hsound n t ht).name_eq⟩) hok name
      have hheard := StepRecord.heard_of_idle hidle name
      constructor
      · rw [restoreScopes_logCap hok]
        exact hcap
      · intro hl
        rw [hlook, Option.map_eq_none_iff] at hl
        rw [heardOf_snoc, hheard, List.append_nil]
        exact ih.absent hl
      · intro t hl
        rw [hlook] at hl
        obtain ⟨s, hs, rfl⟩ := Option.map_eq_some_iff.mp hl
        rw [heardOf_snoc, hheard, List.append_nil]
        exact (ih.diary s hs).restored hcap

/-- The cursors of a scope's effects are 1, 2, 3 and so on. -/
theorem Run.stamps
    (hrun : Run (Store.new defaults logCap) steps st) (name : String) :
    (heardOf name steps).map Effect.cursor = List.range' 1 (heardOf name steps).length := by
  have hlogged := hrun.logged name
  cases hl : st.scopes.lookup name with
  | none =>
    rw [hlogged.absent hl]
    rfl
  | some s => exact (hlogged.diary s hl).stamps

/-- An operation that is refused before it has changed a node. -/
def Op.batch : Op → Bool
  | .addNodes _ _ => true
  | .addEdges _ _ => true
  | _ => false

/-- A batch that fails records nothing. -/
theorem Valid.rejected (hv : r.Valid exec)
    (hsound : ∀ n s, r.before.scopes.lookup n = some s → s.Sound n) (hbatch : r.call.batch = true)
    (herr : r.reply.err.isSome) : r.reply.announced = [] := by
  have hstep := Valid.storeStep hv
  generalize r.after = st' at hstep
  cases hstep with
  | idle _ _ hidle => exact hidle.announced
  | restore hidle _ => exact hidle.announced
  | @scope m s s' _ hfinds hy =>
    have hi := (hfinds.sound hsound).inv
    have hall : (r.call.body s).All fun x => x.1.err.isSome → x.1.announced = [] := by
      cases hop : r.call with
      | addNodes name specs =>
        rw [Op.body, Op.all_lift]
        exact (Scope.addNodes_revises hi specs).mono fun x hx herr => (hx.2.2.2.1 herr).1
      | addEdges name edges =>
        rw [Op.body, Op.all_lift]
        exact (Scope.addEdges_revises hi edges).mono fun x hx herr => (hx.2.2.2 herr).1
      | _ =>
        rw [hop] at hbatch
        cases hbatch
    exact hall.of_yields hy herr

theorem Reachable.run (h : Reachable st)
    (hrun : Run st steps st') : Reachable st' := by
  obtain ⟨defaults, logCap, pre, hpre⟩ := h
  exact ⟨defaults, logCap, pre ++ steps, hpre.trans hrun⟩

/-- The life of a generation: the effects that name the node, from the step that
creates it on. -/
theorem Run.generation
    (hreach : Reachable r.before) (hv : r.Valid exec)
    (hrun : Run r.after steps st') (hnone : r.before.node name id = none)
    (hborn : r.after.node name id ≠ none) (hlives : ∀ q ∈ steps, q.before.node name id ≠ none) :
    WellTold (naming id (heardOf name (r :: steps))) ∧
      ∀ n, st'.node name id = some n →
        Scope.Chronicle (naming id (heardOf name (r :: steps))) n := by
  induction hrun with
  | nil =>
    have hbegin := (Valid.tells hv hreach.sound name id).begins hnone
    obtain ⟨n, hn⟩ := Option.ne_none_iff_exists'.mp hborn
    rw [show heardOf name [r] = r.heard name from List.append_nil _]
    exact ⟨(hbegin n hn).toWellTold, hbegin⟩
  | @snoc steps q hrun hq ih =>
    have hmem : ∀ q' ∈ steps, q'.before.node name id ≠ none := fun q' h =>
      hlives q' (List.mem_append_left _ h)
    obtain ⟨n, hn⟩ := Option.ne_none_iff_exists'.mp
      (hlives q (List.mem_append_right _ (List.mem_singleton_self _)))
    have hq₀ : Reachable q.before := (hreach.exec hv).run hrun
    have hgoes := (Valid.tells hq hq₀.sound name id).goes n _ hn ((ih hmem).2 n hn)
    rw [← List.cons_append, heardOf_snoc, naming_append]
    exact hgoes

theorem WellTold.ne_nil {life : List Effect} (h : WellTold life) : life ≠ [] := by
  rintro rfl
  obtain ⟨e, he, -⟩ := h.created
  cases he

/-- No call adds the node again when it has left the scope. -/
def AddedOnce (name : String) (id : NodeID) (steps : List StepRecord) : Prop :=
  ∀ i (hi : i < steps.length), steps[i].call.target = some name → id ∈ steps[i].call.added →
    steps[i].before.node name id = none → naming id (heardOf name (steps.take i)) = []

instance (steps : List StepRecord) : Decidable (AddedOnce name id steps) :=
  inferInstanceAs (Decidable (∀ _ _, _ → _ → _ → _))

theorem AddedOnce.init {steps : List StepRecord} (h : AddedOnce name id (steps ++ [r])) :
    AddedOnce name id steps := by
  intro i hi
  have hstep := h i (by rw [List.length_append]; omega)
  rwa [List.getElem_append_left hi, List.take_append_of_le_length hi.le] at hstep

/-- A node that is added once has one life. -/
theorem Run.life_of_addedOnce (hrun : Run (Store.new defaults logCap) steps st)
    (honce : AddedOnce name id steps) :
    naming id (heardOf name steps) = [] ∧ st.node name id = none ∨
      WellTold (naming id (heardOf name steps)) ∧
        ∀ n, st.node name id = some n → Scope.Chronicle (naming id (heardOf name steps)) n := by
  induction hrun with
  | nil => exact .inl ⟨rfl, rfl⟩
  | @snoc steps q hrun hq ih =>
    have hbefore := ih honce.init
    have htells := Valid.tells hq (Run.sound hrun) name id
    rw [heardOf_snoc, naming_append]
    cases hn : q.before.node name id with
    | some n =>
      rcases hbefore with ⟨-, hnone⟩ | ⟨-, hlife⟩
      · rw [hn] at hnone
        cases hnone
      · exact .inr (htells.goes n _ hn (hlife n hn))
    | none =>
      rcases htells.starts hn with hnil | ⟨hadded, htold⟩
      · have hgone : q.after.node name id = none :=
          Option.eq_none_iff_forall_ne_some.mpr fun n hafter =>
            (htells.begins hn n hafter).toWellTold.ne_nil hnil
        rw [hnil, List.append_nil, hgone]
        rcases hbefore with ⟨hnone, -⟩ | ⟨htold, -⟩
        · exact .inl ⟨hnone, rfl⟩
        · refine .inr ⟨htold, fun n hsome => ?_⟩
          cases hsome
      · have htarget : q.call.target = some name := by
          by_contra hother
          rw [StepRecord.heard, if_neg hother] at htold
          exact htold.ne_nil rfl
        have hnew := honce steps.length (by simp)
        rw [List.getElem_concat_length rfl, List.take_left] at hnew
        rw [hnew htarget hadded hn, List.nil_append]
        exact .inr ⟨htold, htells.begins hn⟩

/-- Along a run that does not delete it, a terminated node stays as it is. -/
theorem Run.absorbs
    {n : NodeRec} (hreach : Reachable st) (hrun : Run st steps st')
    (hn : st.node name id = some n) (hdone : n.phase = .done)
    (hkept : ∀ r ∈ steps, r.after.node name id ≠ none) :
    ∃ n', st'.node name id = some n' ∧ n'.phase = .done ∧ Scope.verdict n' = Scope.verdict n ∧
      naming id (heardOf name steps) = [] := by
  induction hrun with
  | nil => exact ⟨n, hn, hdone, rfl, rfl⟩
  | @snoc steps q hrun hq ih =>
    obtain ⟨n₁, hn₁, hdone₁, hverdict₁, hsilent⟩ := ih fun r hr =>
      hkept r (List.mem_append_left _ hr)
    obtain ⟨n₂, hn₂⟩ := Option.ne_none_iff_exists'.mp
      (hkept q (List.mem_append_right _ (List.mem_singleton_self _)))
    obtain ⟨hdone₂, hverdict₂, hnone⟩ :=
      (Valid.tells hq (hreach.run hrun).sound name id).absorbs n₁ n₂ hn₁ hn₂ hdone₁
    refine ⟨n₂, hn₂, hdone₂, hverdict₂.trans hverdict₁, ?_⟩
    rw [heardOf_snoc, naming_append, hsilent, hnone]
    rfl

/-- The events recorded since a point of a run are those its later calls returned. -/
theorem Run.mem_log {s' : Scope}
    (hreach : Reachable st) (hrun : Run st steps st') (hs : st.scopes.lookup name = some s)
    (hs' : st'.scopes.lookup name = some s') {ev : Event} (hev : ev ∈ s'.log)
    (hlater : s.cursor < ev.effect.cursor) : ev.effect ∈ heardOf name steps := by
  obtain ⟨defaults, logCap, pre, hpre⟩ := hreach
  have hdiary := (hpre.logged name).diary s hs
  have hdiary' := (Run.logged (hpre.trans hrun) name).diary s' hs'
  have hitems : s'.log = _ := hdiary'.window.items
  rw [hitems] at hev
  obtain ⟨ef, hef, rfl⟩ := List.mem_map.mp (List.mem_of_mem_drop hev)
  rw [heardOf_append] at hef
  rcases List.mem_append.mp hef with hold | hnew
  · have hstamp : ef.cursor ∈ (heardOf name pre).map Effect.cursor := List.mem_map_of_mem hold
    rw [hdiary.stamps, List.mem_range'_1, ← hdiary.cursor] at hstamp
    dsimp only at hlater
    omega
  · exact hnew

/-- **Terminal absorption.**  From any reachable store, whatever operations follow: as
long as a node in its final phase is not deleted, its status, reason, message, result,
attempt, epoch and sequence number stay as they are, no call returns an effect for it
and no event is recorded for it. -/
theorem run_absorbs_terminal {st st' : Store} {steps : List StepRecord} (hreach : Reachable st)
    (hrun : Run st steps st') (name : String) (id : NodeID) {n : NodeRec}
    (hn : st.node name id = some n) (hdone : n.phase = .done)
    (hkept : ∀ r ∈ steps, r.after.node name id ≠ none) :
    (∃ n', st'.node name id = some n' ∧ n'.phase = .done ∧ n'.status = n.status ∧
      n'.reason = n.reason ∧ n'.message = n.message ∧ n'.result = n.result ∧
      n'.attempt = n.attempt ∧ n'.epoch = n.epoch ∧ n'.seq = n.seq) ∧
    (∀ ef ∈ heardOf name steps, ef.nodeID ≠ id) ∧
    ∀ s s', st.scopes.lookup name = some s → st'.scopes.lookup name = some s' →
      ∀ ev ∈ s'.log, s.cursor < ev.effect.cursor → ev.effect.nodeID ≠ id := by
  obtain ⟨n', hn', hdone', hverdict, hsilent⟩ := hrun.absorbs hreach hn hdone hkept
  have hheard : ∀ ef ∈ heardOf name steps, ef.nodeID ≠ id := by
    intro ef hef heq
    have hmem : ef ∈ naming id (heardOf name steps) := List.mem_filter.mpr ⟨hef, by simpa using heq⟩
    rw [hsilent] at hmem
    cases hmem
  refine ⟨⟨n', hn', hdone', ?_⟩, hheard, ?_⟩
  · simpa [Scope.verdict] using hverdict
  · intro s s' hs hs' ev hev hlater
    exact hheard ev.effect (hrun.mem_log hreach hs hs' hev hlater)

/-- Node `b` waits for `a`, which is done. -/
def halfwayCalls : List Call :=
  [{ input := .addNodes "jobs" [{ id := "a" }, { id := "b", deps := ["a"] }],
     clock := [10, 11, 12, 13] },
   { input := .claim { scope := "jobs" }, clock := [20, 21] },
   { input := .complete
       { lease := { scope := "jobs", nodeID := "a", epoch := 1 }, success := true, result := [7] },
     clock := [30, 31, 32, 33] }]

/-- The same node again, an edge away from it, and the end of `b`. -/
def afterwardsCalls : List Call :=
  [{ input := .addNodes "jobs" [{ id := "a" }], clock := [40] },
   { input := .removeEdges "jobs" [{ fromID := "a", toID := "b" }] },
   { input := .cancelScope "jobs", clock := [50, 51] },
   { input := .sweep "jobs" 0, clock := [60] }]

/-- Node `a` is done at `st`, the steps keep it, and their events are about `b`. -/
def laterAboutOthers (st : Store) (steps : List StepRecord) : Bool :=
  decide ((heardOf "jobs" steps).map Effect.nodeID = ["b"]) &&
    steps.all (fun r => (r.after.node "jobs" "a").isSome) &&
    (st.node "jobs" "a").any fun n => decide (n.phase = .done ∧ n.result = [7] ∧ n.seq = 4)

theorem afterwards_absorbed : ∃ st steps st', Reachable st ∧ Run st steps st' ∧
    (heardOf "jobs" steps).map Effect.nodeID = ["b"] ∧
    ∃ n, st.node "jobs" "a" = some n ∧ n.result = [7] ∧ n.seq = 4 ∧
      ∃ n', st'.node "jobs" "a" = some n' ∧ n'.result = n.result ∧ n'.seq = n.seq := by
  obtain ⟨pre, st, hpre, hp⟩ := Trace.exists_run_of_execute exec halfwayCalls (Store.new {} 0)
    (p := fun _ st => (Trace.execute exec afterwardsCalls st).any fun x => laterAboutOthers st x.1)
    (by decide +kernel)
  obtain ⟨steps, st', hrun, hq⟩ := Trace.exists_run_of_execute exec afterwardsCalls st
    (p := fun steps _ => laterAboutOthers st steps) hp
  simp only [laterAboutOthers, Bool.and_eq_true, decide_eq_true_eq, List.all_eq_true,
    Option.any_eq_true] at hq
  obtain ⟨⟨hheard, hkept⟩, n, hn, hdone, hresult, hseq⟩ := hq
  have hreach : Reachable st := ⟨{}, 0, pre, hpre⟩
  obtain ⟨⟨n', hn', -, -, -, -, hresult', -, -, hseq'⟩, -⟩ :=
    run_absorbs_terminal hreach hrun "jobs" "a" hn hdone fun r hr hnone => by
      have := hkept r hr
      rw [hnone] at this
      cases this
  exact ⟨st, steps, st', hreach, hrun, hheard, n, hn, hresult, hseq, n', hn', hresult', hseq'⟩

/-- What a run's events should be, as seen on one scope. -/
structure Faithful (name : String) (steps : List StepRecord) (st : Store) : Prop where
  /-- The cursors are 1, 2, 3 and so on. -/
  cursors : (heardOf name steps).map Effect.cursor = List.range' 1 (heardOf name steps).length
  /-- The scope has recorded the effects the calls returned, and its log holds the last
  of them. -/
  log : ∀ s, st.scopes.lookup name = some s → s.cursor = (heardOf name steps).length ∧
    s.log = ((heardOf name steps).drop (s.logStart - 1)).map (Event.mk name)
  /-- A generation begins with a step `r` that finds no node and leaves one; it lasts as
  long as every later step finds the node. -/
  generations : ∀ id pre r later, steps = pre ++ r :: later → r.before.node name id = none →
    r.after.node name id ≠ none → (∀ q ∈ later, q.before.node name id ≠ none) →
    WellTold (naming id (heardOf name (r :: later))) ∧
      ∀ n, st.node name id = some n → ∃ e,
        (naming id (heardOf name (r :: later))).getLast? = some e ∧ e.toStatus = n.status ∧
          e.seq = n.seq
  /-- A batch that fails records nothing. -/
  rejected : ∀ r ∈ steps, r.call.batch = true → r.reply.err.isSome → r.reply.announced = [] ∧
    ∀ s s', r.before.scopes.lookup name = some s → r.after.scopes.lookup name = some s' →
      s'.cursor = s.cursor

/-- **The event log is a faithful history** of every run of the store. -/
theorem run_faithful {defaults : ScopeConfig} {logCap : ℕ} {steps : List StepRecord} {st : Store}
    (hrun : Run (Store.new defaults logCap) steps st) (name : String) :
    Faithful name steps st := by
  have hlogged := hrun.logged name
  have hreachable : ∀ {pre : List StepRecord} {st₀ : Store},
      Run (Store.new defaults logCap) pre st₀ → Reachable st₀ :=
    fun h => ⟨defaults, logCap, _, h⟩
  constructor
  · exact hrun.stamps name
  · intro s hs
    have hdiary := hlogged.diary s hs
    refine ⟨hdiary.cursor, ?_⟩
    have hitems : s.log = _ := hdiary.window.items
    rw [hitems, (hrun.sound name s hs).name_eq, List.map_drop]
    rfl
  · intro id pre r later hsteps hnone hborn hlives
    subst hsteps
    obtain ⟨hpre, hv, hlater⟩ := hrun.around
    obtain ⟨htold, hlive⟩ := Run.generation (hreachable hpre) hv hlater hnone hborn hlives
    exact ⟨htold, fun n hn => (hlive n hn).last_eq⟩
  · intro r hr hbatch herr
    obtain ⟨pre, post, -, hpre, hv⟩ := hrun.prefix_of_mem hr
    have hnone := Valid.rejected hv (Run.sound hpre) hbatch herr
    refine ⟨hnone, fun s s' hs hs' => ?_⟩
    have hheard : r.heard name = [] := by
      rw [StepRecord.heard, hnone, ite_self]
    have hdiary := (Run.logged hpre name).diary s hs
    have hdiary' := (Run.logged (Trace.Run.snoc hpre hv) name).diary s' hs'
    rw [heardOf_snoc, hheard, List.append_nil] at hdiary'
    exact hdiary'.cursor.trans hdiary.cursor.symm

theorem halfway_faithful : ∃ steps st, Run (Store.new {} 0) steps st ∧
    (heardOf "jobs" steps).map (fun e => (e.nodeID, e.seq)) =
      [("a", 1), ("b", 1), ("a", 2), ("a", 3), ("a", 4), ("b", 2), ("b", 3)] ∧
    Faithful "jobs" steps st := by
  obtain ⟨steps, st, hrun, hp⟩ := Trace.exists_run_of_execute exec (halfwayCalls ++ afterwardsCalls)
    (Store.new {} 0)
    (p := fun steps _ => decide ((heardOf "jobs" steps).map (fun e => (e.nodeID, e.seq)) =
      [("a", 1), ("b", 1), ("a", 2), ("a", 3), ("a", 4), ("b", 2), ("b", 3)]))
    (by decide +kernel)
  exact ⟨steps, st, hrun, of_decide_eq_true hp, run_faithful hrun "jobs"⟩

end DagWorker.Memory
