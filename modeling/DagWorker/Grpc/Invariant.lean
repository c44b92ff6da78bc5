import DagWorker.Grpc.Pump

/-!
# The invariant of a session

An exiting pump looks its identifier up in the map, but not whose entry it finds there.  If
an identifier is given to a new watch only when no pump of an older one is around, every
entry it finds is its own, and what is open stays in the map.
-/

namespace DagWorker.Grpc.Session

variable {s s' : Session} {k : ℕ}
variable {sub : Sub} {m : Main} {delivered : Bool} {id : Int} {filter : NodeID}

/-! ## The invariant -/

/-- What holds where the handler's goroutine stands. -/
def MainOk (s : Session) : Main → Prop
  | .opening id _ | .refusing id _ _ | .acking id => s.Quiet id
  | .registering id k => s.Quiet id ∧ ∃ sub : Sub, s.subs[k]? = some sub ∧ sub.id = id
  | .announcing _ k | .launching k | .aborting k =>
    ∃ sub : Sub, s.subs[k]? = some sub ∧ sub.stage = .registered
  | .cancelling id _ => s.watches.lookup id = none
  | .waiting | .returned => ∀ id, s.Quiet id
  | .ready | .closing => True

structure Inv (s : Session) : Prop where
  /-- An open watch is in the map, or in the hand of `cancelWatch`. -/
  tracked : ∀ (k : ℕ) (sub : Sub), s.subs[k]? = some sub → sub.live = true →
    s.watches.lookup sub.id = some k ∨ s.main = .cancelling sub.id k
  /-- An identifier has one pump. -/
  alone : ∀ (j k : ℕ) (a b : Sub), s.subs[j]? = some a → s.subs[k]? = some b → a.unfinished = true →
    b.unfinished = true → a.id = b.id → j = k
  /-- A pump finds its own entry, if any. -/
  own : ∀ (k : ℕ) (sub : Sub) (j : ℕ), s.subs[k]? = some sub → sub.unfinished = true →
    s.watches.lookup sub.id = some j → j = k
  main : s.MainOk s.main

theorem unfinished_of_live (h : sub.live = true) : sub.unfinished = true := by
  simp only [Sub.live, Bool.and_eq_true, Bool.or_eq_true, beq_iff_eq] at h
  simp only [Sub.unfinished, Bool.or_eq_true, beq_iff_eq]
  rcases h.2 with h | h
  · exact .inl h
  · exact .inr (by rw [h]; rfl)

theorem Fades.mainOk (h : s.Fades s')
    (hw : ∀ id, s.watches.lookup id = none → s'.watches.lookup id = none) (hm : s.MainOk m) :
    s'.MainOk m := by
  have hregistered : ∀ k : ℕ, (∃ sub : Sub, s.subs[k]? = some sub ∧ sub.stage = .registered) →
      ∃ sub : Sub, s'.subs[k]? = some sub ∧ sub.stage = .registered := by
    rintro k ⟨a, ha, hstage⟩
    obtain ⟨b, hb, hfades⟩ := h.fore k a ha
    exact ⟨b, hb, hfades.registered hstage⟩
  cases m with
  | ready => trivial
  | opening id filter => exact h.quiet hm
  | registering id k =>
    obtain ⟨hq, a, ha, hid⟩ := hm
    obtain ⟨b, hb, hfades⟩ := h.fore k a ha
    exact ⟨h.quiet hq, b, hb, hfades.id.trans hid⟩
  | announcing id k => exact hregistered k hm
  | launching k => exact hregistered k hm
  | aborting k => exact hregistered k hm
  | refusing id reason compacted => exact h.quiet hm
  | cancelling id k => exact hw id hm
  | acking id => exact h.quiet hm
  | closing => trivial
  | waiting => exact fun id => h.quiet (hm id)
  | returned => exact fun id => h.quiet (hm id)

/-- A step that opens nothing, and removes only entries under which nothing is open. -/
theorem Inv.dim (h : s.Inv)
    (hsubs : ∀ (k : ℕ) (b : Sub), s'.subs[k]? = some b → ∃ a, s.subs[k]? = some a ∧ a.Dims b)
    (hcancel : ∀ id k, s.main = .cancelling id k → s'.main = .cancelling id k)
    (hw : ∀ id, s'.watches.lookup id = s.watches.lookup id ∨
      s'.watches.lookup id = none ∧ s'.Quiet id)
    (hmain : s'.MainOk s'.main) : s'.Inv := by
  refine ⟨?_, ?_, ?_, hmain⟩
  · intro k b hb hlive
    obtain ⟨a, ha, hab⟩ := hsubs k b hb
    rcases h.tracked k a ha (hab.live hlive) with hreg | hheld
    · rcases hw b.id with heq | ⟨-, hq⟩
      · left
        rw [heq, hab.id, hreg]
      · have hdead := hq b (List.mem_of_getElem? hb) rfl
        rw [hlive] at hdead
        cases hdead
    · right
      rw [hab.id]
      exact hcancel _ _ hheld
  · intro j k b b' hb hb' hopen hopen' hid
    obtain ⟨a, ha, hab⟩ := hsubs j b hb
    obtain ⟨a', ha', hab'⟩ := hsubs k b' hb'
    apply h.alone j k a a' ha ha' (hab.unfinished hopen) (hab'.unfinished hopen')
    rw [← hab.id, ← hab'.id, hid]
  · intro k b j hb hopen hj
    obtain ⟨a, ha, hab⟩ := hsubs k b hb
    rcases hw b.id with heq | ⟨hnone, -⟩
    · apply h.own k a j ha (hab.unfinished hopen)
      rw [← hab.id, ← heq, hj]
    · rw [hnone] at hj
      cases hj

/-- Such a step of another goroutine than the handler's. -/
theorem Inv.fade (h : s.Inv) (hfades : s.Fades s') (hmain : s'.main = s.main)
    (hw : ∀ id, s'.watches.lookup id = s.watches.lookup id ∨
      s'.watches.lookup id = none ∧ s'.Quiet id) : s'.Inv := by
  apply h.dim _ _ hw
  · rw [hmain]
    apply hfades.mainOk _ h.main
    intro id hnone
    rcases hw id with heq | ⟨hnone', -⟩
    · rw [heq, hnone]
    · exact hnone'
  · intro k b hb
    obtain ⟨a, ha, hab⟩ := hfades.back k b hb
    exact ⟨a, ha, hab.toDims⟩
  · intro id k hheld
    rw [hmain, hheld]

/-- The handler goes on without touching a watch. -/
theorem Inv.goto (h : s.Inv) (hcancel : ∀ id k, s.main ≠ .cancelling id k) (hm : s.MainOk m) :
    (s.goto m).Inv := by
  refine ⟨?_, h.alone, h.own, hm⟩
  intro k sub hk hlive
  rcases h.tracked k sub hk hlive with hreg | heq
  · exact .inl hreg
  · exact absurd heq (hcancel _ _)

theorem Inv.fade_subs (h : s.Inv) (hfades : s.Fades s') (hmain : s'.main = s.main)
    (hw : s'.watches = s.watches) : s'.Inv :=
  h.fade hfades hmain fun id => .inl (by rw [hw])

theorem Inv.send (h : s.Inv) (delivered : Bool) (r : Response) : (s.send delivered r).Inv := by
  rw [Session.send]
  split
  · exact h.fade_subs (fades_of_subs rfl) rfl rfl
  · exact h

theorem lookup_erase_cases (id id' : Int) : (s.watches.erase id).lookup id' =
    s.watches.lookup id' ∨ (s.watches.erase id).lookup id' = none ∧ id' = id := by
  by_cases hid : id' = id
  · subst hid
    exact .inr ⟨AList.lookup_erase _ _, rfl⟩
  · exact .inl (AList.lookup_erase_ne hid)

/-! ## Pumps -/

/-- Nothing is open under the identifier of a pump that has left its loop. -/
theorem Inv.quiet_of_unfinished (h : s.Inv) (hk : s.subs[k]? = some sub)
    (hopen : sub.unfinished = true) (hdead : sub.live = false) : s.Quiet sub.id := by
  intro b hb hid
  obtain ⟨j, hj⟩ := List.getElem?_of_mem hb
  cases hlive : b.live with
  | false => rfl
  | true =>
    obtain rfl := h.alone j k b sub hj hk (unfinished_of_live hlive) hopen hid
    rw [hk] at hj
    obtain rfl := Option.some.inj hj
    rw [hlive] at hdead
    exact hdead

theorem Inv.pump (h : s.Inv) {b : Sub} (hk : s.subs[k]? = some sub)
    (hpumped : s.Pumped k sub s' b) : s'.Inv := by
  have hfades := hpumped.session hk
  apply h.fade hfades hpumped.main
  intro id
  rcases hpumped.watches with heq | ⟨⟨hopen, hdead⟩, heq⟩
  · exact .inl (by rw [heq])
  rw [heq]
  rcases lookup_erase_cases sub.id id with heq | ⟨hnone, rfl⟩
  · exact .inl heq
  · exact .inr ⟨hnone, hfades.quiet (h.quiet_of_unfinished hk hopen hdead)⟩

/-! ## The handler -/

/-- A new watch is registered only when no pump of its identifier is around, and a request
without a scope names no open watch. -/
def careful (s : Session) : Action → Bool
  | .create id scope _ => scope ≠ "" || s.subs.all fun sub => sub.id ≠ id || !sub.live
  | .main _ =>
    match s.main with
    | .registering id _ => s.subs.all fun sub => sub.id ≠ id || !sub.unfinished
    | _ => true
  | _ => true

/-- What is open is in the map, unless the handler is in `cancelWatch`. -/
theorem Inv.lookup_of_live (h : s.Inv) (hcancel : ∀ id k, s.main ≠ .cancelling id k)
    (hk : s.subs[k]? = some sub) (hlive : sub.live = true) : s.watches.lookup sub.id = some k := by
  rcases h.tracked k sub hk hlive with hreg | heq
  · exact hreg
  · exact absurd heq (hcancel _ _)

theorem live_cancel (sub : Sub) : sub.cancel.live = false := by
  simp [Sub.live, Sub.cancel]

section

variable (h : s.Inv)
include h

theorem Inv.create (hready : s.main = .ready) {scope : String}
    (hcareful : s.careful (.create id scope filter) = true) : (s.create id scope filter).Inv := by
  have hcancel : ∀ id k, s.main ≠ .cancelling id k := by simp [hready]
  rw [Session.create]
  split_ifs with hscope
  · apply h.goto hcancel
    intro sub hsub hid
    simp only [careful, hscope, ne_eq, not_true_eq_false, decide_false, Bool.false_or,
      List.all_eq_true, Bool.or_eq_true, decide_eq_true_eq, Bool.not_eq_true'] at hcareful
    exact (hcareful sub hsub).resolve_left fun hne => hne hid
  · split
    · next old hold =>
        have hmod : (s.modSub old Sub.cancel).Inv :=
          h.fade_subs (fades_modSub fun a _ => a.fades_cancel) rfl rfl
        apply hmod.goto hcancel
        -- the watch that was open under the identifier is the one in the map
        intro b hb hid
        obtain ⟨j, hj⟩ := List.getElem?_of_mem hb
        rw [getElem?_modSub, Option.map_eq_some_iff] at hj
        obtain ⟨a, ha, rfl⟩ := hj
        split_ifs at hid ⊢ with hjold
        · exact live_cancel a
        cases hlive : a.live with
        | false => rfl
        | true =>
          have hreg := h.lookup_of_live hcancel ha hlive
          rw [hid, hold] at hreg
          exact absurd (Option.some.inj hreg) hjold
    · next hnone =>
        apply h.goto hcancel
        intro a ha hid
        obtain ⟨j, hj⟩ := List.getElem?_of_mem ha
        cases hlive : a.live with
        | false => rfl
        | true =>
          have hreg := h.lookup_of_live hcancel hj hlive
          rw [hid, hnone] at hreg
          cases hreg

theorem Inv.cancelWatch (hready : s.main = .ready) (id : Int) : (s.cancelWatch id).Inv := by
  have hcancel : ∀ id k, s.main ≠ .cancelling id k := by simp [hready]
  rw [Session.cancelWatch]
  split
  · next k hk =>
      refine ⟨?_, h.alone, ?_, AList.lookup_erase _ _⟩
      · intro j sub hj hlive
        have hreg := h.lookup_of_live hcancel hj hlive
        by_cases hid : sub.id = id
        · rw [hid, hk] at hreg
          obtain rfl := Option.some.inj hreg
          exact .inr (by rw [hid])
        · exact .inl (by rw [AList.lookup_erase_ne hid, hreg])
      · intro j sub i hj hopen hi
        rcases lookup_erase_cases id sub.id with heq | ⟨hnone, -⟩
        · exact h.own j sub i hj hopen (heq ▸ hi)
        · rw [hnone] at hi
          cases hi
  · exact h

theorem Inv.subscribe (hmain : s.main = .opening id filter) (hid : sub.id = id)
    (hstage : sub.stage = .opened) :
    Inv { s with subs := s.subs ++ [sub], main := .registering id s.subs.length } := by
  have hdead : sub.live = false := by simp [Sub.live, hstage]
  have hdone : sub.unfinished = false := by simp [Sub.unfinished, hstage, Stage.pumping]
  have hold : ∀ (k : ℕ) (a : Sub), (s.subs ++ [sub])[k]? = some a → a.unfinished = true →
      s.subs[k]? = some a := by
    intro k a hk hopen
    by_cases hlt : k < s.subs.length
    · rwa [List.getElem?_append_left hlt] at hk
    rw [List.getElem?_append_right (by omega)] at hk
    obtain rfl : a = sub := by simpa using List.mem_of_getElem? hk
    rw [hdone] at hopen
    cases hopen
  have hquiet : s.Quiet id := by
    have hok := h.main
    rw [hmain] at hok
    exact hok
  constructor
  · intro k a hk hlive
    have hk := hold k a hk (unfinished_of_live hlive)
    exact .inl (h.lookup_of_live (by simp [hmain]) hk hlive)
  · intro j k a b hj hk ha hb
    exact h.alone j k a b (hold j a hj ha) (hold k b hk hb) ha hb
  · intro k a j hk hopen
    exact h.own k a j (hold k a hk hopen) hopen
  refine ⟨?_, sub, ?_, hid⟩
  · intro a ha haid
    rw [List.mem_append, List.mem_singleton] at ha
    rcases ha with ha | rfl
    · exact hquiet a ha haid
    · exact hdead
  · simp

theorem Inv.send_goto {r : Response} (hcancel : ∀ id k, s.main ≠ .cancelling id k)
    (hm : s.MainOk m) : ((s.send delivered r).goto m).Inv := by
  apply (h.send delivered r).goto
  · rw [send_main]
    exact hcancel
  rw [Session.send]
  split
  · exact (fades_of_subs rfl).mainOk (fun _ h => h) hm
  · exact hm

theorem Inv.modSub_goto {f : Sub → Sub} (hcancel : ∀ id k, s.main ≠ .cancelling id k)
    (hf : ∀ a : Sub, s.subs[k]? = some a → a.Dims (f a)) (hm : (s.modSub k f).MainOk m) :
    ((s.modSub k f).goto m).Inv := by
  apply h.dim
  · intro j b hb
    obtain ⟨a, ha, rfl⟩ := Option.map_eq_some_iff.mp ((getElem?_modSub f j).symm.trans hb)
    refine ⟨a, ha, ?_⟩
    split
    · next heq =>
        subst heq
        exact hf a ha
    · exact (Sub.Fades.refl a).toDims
  · exact fun id k heq => absurd heq (hcancel id k)
  · exact fun id => .inl rfl
  · exact hm

theorem Inv.register (hmain : s.main = .registering id k)
    (hfree : ∀ sub ∈ s.subs, sub.id = id → sub.unfinished = false) :
    Inv { s.setStage k .registered with
      watches := s.watches.insert id k, main := .announcing id k } := by
  have hok := h.main
  rw [hmain] at hok
  obtain ⟨-, sub, hk, hid⟩ := hok
  have hsubs : ∀ (j : ℕ) (b : Sub), (s.setStage k .registered).subs[j]? = some b →
      j = k ∧ b.id = id ∨ j ≠ k ∧ s.subs[j]? = some b ∧ (b.unfinished = true → b.id ≠ id) := by
    intro j b hb
    rw [setStage, getElem?_modSub, Option.map_eq_some_iff] at hb
    obtain ⟨a, ha, rfl⟩ := hb
    by_cases hjk : k = j
    · subst hjk
      rw [hk] at ha
      obtain rfl := Option.some.inj ha
      exact .inl ⟨rfl, by rw [if_pos rfl]; exact hid⟩
    · rw [if_neg hjk]
      refine .inr ⟨fun heq => hjk heq.symm, ha, ?_⟩
      intro hopen hid
      rw [hfree a (List.mem_of_getElem? ha) hid] at hopen
      cases hopen
  constructor
  · intro j b hb hlive
    left
    rcases hsubs j b hb with ⟨rfl, hid⟩ | ⟨-, hj, hne⟩
    · rw [hid]
      exact AList.lookup_insert _
    · have hne := hne (unfinished_of_live hlive)
      exact (AList.lookup_insert_ne hne).trans (h.lookup_of_live (by simp [hmain]) hj hlive)
  · intro i j a b ha hb hopen hopen' hab
    rcases hsubs i a ha with ⟨rfl, hid⟩ | ⟨-, hi, hne⟩
    · rcases hsubs j b hb with ⟨rfl, -⟩ | ⟨-, -, hne⟩
      · rfl
      · exact absurd (hab.symm.trans hid) (hne hopen')
    · rcases hsubs j b hb with ⟨rfl, hid⟩ | ⟨-, hj, -⟩
      · exact absurd (hab.trans hid) (hne hopen)
      · exact h.alone i j a b hi hj hopen hopen' hab
  · intro j b i hb hopen hi
    rcases hsubs j b hb with ⟨rfl, hid⟩ | ⟨-, hj, hne⟩
    · rw [hid] at hi
      exact Option.mem_unique hi (AList.lookup_insert _)
    · exact h.own j b i hj hopen ((AList.lookup_insert_ne (hne hopen)).symm.trans hi)
  · refine ⟨{ sub with stage := .registered }, ?_, rfl⟩
    exact (getElem?_modSub _ k).trans (by rw [hk, Option.map_some, if_pos rfl])

/-- The cancel function that `cancelWatch` took out is called. -/
theorem Inv.cancelling (hmain : s.main = .cancelling id k) :
    ((s.modSub k Sub.cancel).goto (.acking id)).Inv := by
  have hok := h.main
  rw [hmain] at hok
  have hfades : s.Fades (s.modSub k Sub.cancel) := fades_modSub fun a _ => a.fades_cancel
  have hreg : ∀ (j : ℕ) (b : Sub), (s.modSub k Sub.cancel).subs[j]? = some b → b.live = true →
      s.watches.lookup b.id = some j := by
    intro j b hb hlive
    rw [getElem?_modSub, Option.map_eq_some_iff] at hb
    obtain ⟨a, ha, rfl⟩ := hb
    by_cases hkj : k = j
    · rw [if_pos hkj, live_cancel] at hlive
      cases hlive
    rw [if_neg hkj] at hlive ⊢
    rcases h.tracked j a ha hlive with hreg | heq
    · exact hreg
    · rw [hmain] at heq
      cases heq
      exact absurd rfl hkj
  refine ⟨fun j b hb hlive => .inl (hreg j b hb hlive), ?_, ?_, ?_⟩
  · exact (h.fade_subs hfades rfl rfl).alone
  · exact (h.fade_subs hfades rfl rfl).own
  intro b hb hid
  obtain ⟨j, hj⟩ := List.getElem?_of_mem hb
  cases hlive : b.live with
  | false => rfl
  | true =>
    have hlookup := hreg j b hj hlive
    rw [hid, hok] at hlookup
    cases hlookup

theorem Inv.cancelAll (hmain : s.main = .closing) (id : Int) : s.cancelAll.Quiet id := by
  intro b hb _
  obtain ⟨j, hj⟩ := List.getElem?_of_mem hb
  rw [Session.cancelAll, List.getElem?_mapIdx, Option.map_eq_some_iff] at hj
  obtain ⟨a, ha, rfl⟩ := hj
  split_ifs with hmem
  · exact live_cancel a
  cases hlive : a.live with
  | false => rfl
  | true =>
    have hreg := h.lookup_of_live (by simp [hmain]) ha hlive
    exact absurd (List.mem_map_of_mem (f := (·.2)) (AList.mem_lookup_iff.mp hreg)) hmem

theorem Inv.mainStep (hcareful : s.careful (.main delivered) = true)
    (hstep : s.mainStep delivered = some s') : s'.Inv := by
  have hok := h.main
  rw [Session.mainStep] at hstep
  split at hstep
  · next id k hmain =>
      obtain rfl := Option.some.inj hstep
      apply h.register hmain
      simp only [careful, hmain, List.all_eq_true, Bool.or_eq_true, decide_eq_true_eq,
        Bool.not_eq_true'] at hcareful
      intro sub hsub hid
      exact (hcareful sub hsub).resolve_left fun hne => hne hid
  · next id k hmain =>
      obtain rfl := Option.some.inj hstep
      rw [hmain] at hok
      apply h.send_goto (by simp [hmain])
      split <;> exact hok
  · next k hmain =>
      obtain rfl := Option.some.inj hstep
      rw [hmain] at hok
      obtain ⟨sub, hk, hstage⟩ := hok
      refine h.modSub_goto (by simp [hmain]) (fun a ha => ?_) trivial
      rw [hk] at ha
      obtain rfl := Option.some.inj ha
      refine ⟨rfl, fun hlive => ?_, fun _ => by simp [Sub.unfinished, hstage]⟩
      simpa [Sub.live, hstage] using hlive
  · next k hmain =>
      obtain rfl := Option.some.inj hstep
      refine h.modSub_goto (by simp [hmain]) (fun a _ => ?_) trivial
      refine ⟨rfl, fun hlive => ?_, fun hopen => ?_⟩
      · simp [Sub.live] at hlive
      · simp [Sub.unfinished, Stage.pumping] at hopen
  · next id reason compacted hmain =>
      obtain rfl := Option.some.inj hstep
      exact h.send_goto (by simp [hmain]) trivial
  · next id k hmain =>
      obtain rfl := Option.some.inj hstep
      exact h.cancelling hmain
  · next id hmain =>
      obtain rfl := Option.some.inj hstep
      exact h.send_goto (by simp [hmain]) trivial
  · next hmain =>
      obtain rfl := Option.some.inj hstep
      have hall : s.cancelAll.Inv := h.fade_subs s.fades_cancelAll rfl rfl
      have hcancel : ∀ id k, s.cancelAll.main ≠ .cancelling id k := by
        simp [Session.cancelAll, hmain]
      exact hall.goto hcancel fun id => h.cancelAll hmain id
  · next hmain =>
      split_ifs at hstep
      obtain rfl := Option.some.inj hstep
      rw [hmain] at hok
      exact h.goto (by simp [hmain]) hok
  all_goals cases hstep

/-! ## Runs -/

theorem Inv.act {a : Action} (hcareful : s.careful a = true) (hact : s.act a = some s') :
    s'.Inv := by
  cases a with
  | create id scope filter =>
    rw [Session.act] at hact
    split_ifs at hact with hready
    obtain rfl := Option.some.inj hact
    exact h.create hready hcareful
  | cancel id =>
    rw [Session.act] at hact
    split_ifs at hact with hready
    obtain rfl := Option.some.inj hact
    exact h.cancelWatch hready id
  | leave =>
    rw [Session.act] at hact
    split_ifs at hact with hready
    obtain rfl := Option.some.inj hact
    exact h.goto (by simp [hready]) trivial
  | subscribe =>
    rw [Session.act] at hact
    split at hact
    · next id filter hmain =>
        obtain rfl := Option.some.inj hact
        exact h.subscribe hmain rfl rfl
    · cases hact
  | refuse err compacted =>
    rw [Session.act] at hact
    split at hact
    · next id filter hmain =>
        obtain rfl := Option.some.inj hact
        have hok := h.main
        rw [hmain] at hok
        exact h.goto (by simp [hmain]) hok
    · cases hact
  | main delivered => exact h.mainStep hcareful hact
  | pump k delivered =>
    obtain ⟨sub, hk, hstep⟩ := Option.bind_eq_some_iff.mp hact
    obtain ⟨b, hpumped⟩ := pumpStep_inv hk hstep
    exact h.pump hk hpumped
  | offer | finish =>
    obtain ⟨sub, hk, hstep⟩ := Option.bind_eq_some_iff.mp hact
    split_ifs at hstep
    obtain rfl := Option.some.inj hstep
    apply h.fade_subs (fades_modSub _) rfl rfl
    exact fun a _ => ⟨⟨rfl, fun h => h, fun h => h⟩, fun h => h⟩
  | ctxEnd =>
    obtain rfl := Option.some.inj hact
    have hfades : s.Fades { s with ctxDone := true, subs := s.subs.map Sub.cancel } := by
      apply fades_of_getElem? (f := fun _ => Sub.cancel)
      · exact fun k => List.getElem?_map
      · exact fun _ a _ => a.fades_cancel
    exact h.fade_subs hfades rfl rfl

end

theorem inv_initial : Inv {} := by
  constructor <;> simp [MainOk]

end DagWorker.Grpc.Session
