import DagWorker.Grpc.Session

/-!
# Steps of a pump

A step of a pump changes its own subscription and, once the pump has left its loop, may
remove the entry of its identifier from the map.  It never opens a watch.
-/

namespace DagWorker.Grpc

variable {sub : Sub}

/-! ## Subscriptions that go on -/

/-- A subscription after a step that opens nothing. -/
structure Sub.Dims (a b : Sub) : Prop where
  id : b.id = a.id
  live : b.live = true → a.live = true
  unfinished : b.unfinished = true → a.unfinished = true

/-- A subscription after such a step of another goroutine than the handler's. -/
structure Sub.Fades (a b : Sub) : Prop extends a.Dims b where
  registered : a.stage = .registered → b.stage = .registered

theorem Sub.Fades.refl (a : Sub) : a.Fades a := ⟨⟨rfl, fun h => h, fun h => h⟩, fun h => h⟩

theorem Sub.fades_cancel (a : Sub) : a.Fades a.cancel := by
  refine ⟨⟨rfl, ?_, fun h => h⟩, fun h => h⟩
  intro h
  simp [live, cancel] at h

theorem Sub.fades_stage {a : Sub} {stage : Stage} (ha : a.stage.pumping = true)
    (hstage : stage.pumping = true ∨ stage = .returned) (hlive : stage ≠ .forwarding) :
    a.Fades { a with stage := stage } := by
  have hne : stage ≠ .registered := by
    rintro rfl
    rcases hstage with h | h <;> cases h
  refine ⟨⟨rfl, ?_, ?_⟩, ?_⟩
  · intro h
    simp [live, hne, hlive] at h
  · intro _
    simp [unfinished, ha]
  · intro h
    rw [h] at ha
    cases ha

namespace Session

variable {s s' : Session} {k : ℕ}

/-- The subscriptions after a step that opens none. -/
structure Fades (s s' : Session) : Prop where
  back : ∀ (k : ℕ) (b : Sub), s'.subs[k]? = some b → ∃ a : Sub, s.subs[k]? = some a ∧ a.Fades b
  fore : ∀ (k : ℕ) (a : Sub), s.subs[k]? = some a → ∃ b : Sub, s'.subs[k]? = some b ∧ a.Fades b

theorem fades_of_getElem? {f : ℕ → Sub → Sub}
    (hsubs : ∀ k : ℕ, s'.subs[k]? = (s.subs[k]?).map (f k))
    (hf : ∀ (k : ℕ) (a : Sub), s.subs[k]? = some a → a.Fades (f k a)) : s.Fades s' := by
  constructor
  · intro k b hb
    rw [hsubs, Option.map_eq_some_iff] at hb
    obtain ⟨a, ha, rfl⟩ := hb
    exact ⟨a, ha, hf k a ha⟩
  · intro k a ha
    exact ⟨f k a, by rw [hsubs, ha, Option.map_some], hf k a ha⟩

theorem fades_of_subs (h : s'.subs = s.subs) : s.Fades s' := by
  apply fades_of_getElem? (f := fun _ a => a)
  · intro k
    rw [h, Option.map_id']
  · exact fun _ a _ => .refl a

theorem getElem?_modSub (f : Sub → Sub) (j : ℕ) :
    (s.modSub k f).subs[j]? = (s.subs[j]?).map fun a => if k = j then f a else a :=
  List.getElem?_modify f k s.subs j

theorem fades_modSub {f : Sub → Sub} (hf : ∀ a : Sub, s.subs[k]? = some a → a.Fades (f a)) :
    s.Fades (s.modSub k f) := by
  apply fades_of_getElem? (getElem?_modSub f)
  intro j a ha
  split
  · next heq =>
      subst heq
      exact hf a ha
  · exact .refl a

theorem fades_cancelAll (s : Session) : s.Fades s.cancelAll := by
  apply fades_of_getElem? (f := fun k a =>
    if k ∈ s.watches.entries.map (·.2) then a.cancel else a)
  · intro k
    exact List.getElem?_mapIdx
  intro k a _
  split
  · exact a.fades_cancel
  · exact .refl a

theorem Fades.quiet (h : s.Fades s') {id : Int} (hq : s.Quiet id) : s'.Quiet id := by
  intro b hb hid
  obtain ⟨k, hk⟩ := List.getElem?_of_mem hb
  obtain ⟨a, ha, hfades⟩ := h.back k b hk
  have hdead := hq a (List.mem_of_getElem? ha) (hfades.id ▸ hid)
  cases hlive : b.live with
  | false => rfl
  | true =>
    rw [hfades.live hlive] at hdead
    exact hdead

/-! ## One step -/

theorem send_subs (s : Session) (delivered : Bool) (r : Response) :
    (s.send delivered r).subs = s.subs := by
  rw [Session.send]
  split <;> rfl

theorem send_main (s : Session) (delivered : Bool) (r : Response) :
    (s.send delivered r).main = s.main := by
  rw [Session.send]
  split <;> rfl

theorem send_watches (s : Session) (delivered : Bool) (r : Response) :
    (s.send delivered r).watches = s.watches := by
  rw [Session.send]
  split <;> rfl

/-- What is left to do for a pump, each event of its channel included. -/
def weight (sub : Sub) : ℕ :=
  sub.ch.length + (if sub.ended then 0 else 1) +
    match sub.stage with
    | .forwarding => 3
    | .closing => 2
    | .dropping | .reporting => 1
    | _ => 0

/-- One step of the `k`-th pump, which leaves `b` of the subscription `sub`. -/
structure Pumped (s : Session) (k : ℕ) (sub : Sub) (s' : Session) (b : Sub) : Prop where
  subs : s'.subs = s.subs.set k b
  fades : sub.Fades b
  weight : weight b < weight sub
  main : s'.main = s.main
  /-- An entry is removed by a pump that has left its loop. -/
  watches : s'.watches = s.watches ∨
    (sub.unfinished = true ∧ sub.live = false) ∧ s'.watches = s.watches.erase sub.id
  /-- So is the end of the watch reported. -/
  sent : s'.sent = s.sent ∨ (∃ node, s'.sent = s.sent ++ [.event sub.id node]) ∨
    (sub.unfinished = true ∧ sub.live = false) ∧
      s'.sent = s.sent ++ [.canceled sub.id sub.err 0]

theorem subs_modSub (hk : s.subs[k]? = some sub) (f : Sub → Sub) :
    (s.modSub k f).subs = s.subs.set k (f sub) := by
  rw [modSub, List.modify_eq_set_getElem?, hk]
  rfl

theorem pumpStep_inv (hk : s.subs[k]? = some sub) {delivered : Bool}
    (hstep : s.pumpStep k sub delivered = some s') : ∃ b, s.Pumped k sub s' b := by
  have hout : ∀ {stage}, sub.stage = stage → stage ∈ [Stage.dropping, .closing, .reporting] →
      sub.unfinished = true ∧ sub.live = false := by
    intro stage hstage hmem
    simp only [List.mem_cons, List.not_mem_nil, or_false] at hmem
    rcases hmem with rfl | rfl | rfl <;> simp [Sub.unfinished, Sub.live, hstage, Stage.pumping]
  rw [Session.pumpStep] at hstep
  split at hstep
  · next hstage =>
      have hpump : sub.stage.pumping = true := by rw [hstage]; rfl
      split at hstep
      · next ev rest hch =>
          have htake : ∀ t : Session,
              t.subs = (s.modSub k fun sub => { sub with ch := rest }).subs →
              t.main = s.main → t.watches = s.watches →
              (t.sent = s.sent ∨ ∃ node, t.sent = s.sent ++ [.event sub.id node]) →
              s.Pumped k sub t { sub with ch := rest } := by
            intro t hsubs hmain hwatches hsent
            refine ⟨hsubs.trans (subs_modSub hk _), ⟨⟨rfl, fun h => h, fun h => h⟩, fun h => h⟩,
              ?_, hmain, .inl hwatches, ?_⟩
            · simp only [weight, hch, List.length_cons]
              omega
            · exact hsent.elim .inl fun h => .inr (.inl h)
          split_ifs at hstep
          · obtain rfl := Option.some.inj hstep
            exact ⟨_, htake _ rfl rfl rfl (.inl rfl)⟩
          · obtain rfl := Option.some.inj hstep
            exact ⟨_, htake _ rfl rfl rfl (.inr ⟨ev, rfl⟩)⟩
          obtain rfl := Option.some.inj hstep
          refine ⟨{ sub with ch := rest, stage := .dropping }, ?_, ?_, ?_, rfl, .inl rfl,
            .inl rfl⟩
          · have hmod : (s.modSub k fun sub => { sub with ch := rest }).subs[k]? =
                some { sub with ch := rest } := by
              rw [getElem?_modSub, hk, Option.map_some, if_pos rfl]
            rw [setStage, subs_modSub hmod, subs_modSub hk, List.set_set]
          · exact ⟨⟨rfl, fun h => by simp [Sub.live] at h,
              fun _ => by simp [Sub.unfinished, hpump]⟩,
              fun h => by rw [hstage] at h; cases h⟩
          · simp only [weight, hch, hstage, List.length_cons]
            omega
      · next hch =>
          split_ifs at hstep
          obtain rfl := Option.some.inj hstep
          refine ⟨_, subs_modSub hk _, Sub.fades_stage hpump (.inl rfl) (by decide), ?_, rfl,
            .inl rfl, .inl rfl⟩
          simp only [weight, hstage]
          omega
  · next hstage =>
      obtain rfl := Option.some.inj hstep
      refine ⟨_, subs_modSub hk _, Sub.fades_stage (by rw [hstage]; rfl) (.inr rfl) (by decide), ?_,
        rfl, .inr ⟨hout hstage (by decide), rfl⟩, .inl rfl⟩
      simp only [weight, hstage]
      omega
  · next hstage =>
      split_ifs at hstep
      · obtain rfl := Option.some.inj hstep
        refine ⟨_, subs_modSub hk _, Sub.fades_stage (by rw [hstage]; rfl) (.inl rfl) (by decide),
          ?_, rfl, .inr ⟨hout hstage (by decide), rfl⟩, .inl rfl⟩
        simp only [weight, hstage]
        omega
      · obtain rfl := Option.some.inj hstep
        refine ⟨_, subs_modSub hk _, Sub.fades_stage (by rw [hstage]; rfl) (.inr rfl) (by decide),
          ?_, rfl, .inl rfl, .inl rfl⟩
        simp only [weight, hstage]
        omega
  · next hstage =>
      obtain rfl := Option.some.inj hstep
      refine ⟨{ sub with stage := .returned }, ?_,
        Sub.fades_stage (by rw [hstage]; rfl) (.inr rfl) (by decide), ?_, ?_, ?_, ?_⟩
      · have hsend : (s.send delivered (.canceled sub.id sub.err 0)).subs[k]? = some sub := by
          rw [send_subs, hk]
        rw [setStage, subs_modSub hsend, send_subs]
      · simp only [weight, hstage]
        omega
      · exact send_main s delivered _
      · exact .inl (send_watches s delivered _)
      rw [setStage, modSub, Session.send]
      split
      · exact .inr (.inr ⟨hout hstage (by decide), rfl⟩)
      · exact .inl rfl
  · cases hstep

theorem Pumped.session {b : Sub} (hk : s.subs[k]? = some sub) (h : s.Pumped k sub s' b) :
    s.Fades s' := by
  apply fades_of_getElem? (f := fun j a => if k = j then b else a)
  · intro j
    rw [h.subs, List.getElem?_set]
    by_cases hkj : k = j
    · subst hkj
      obtain ⟨hlt, -⟩ := List.getElem?_eq_some_iff.mp hk
      rw [if_pos rfl, if_pos hlt, hk, Option.map_some, if_pos rfl]
    · simp [hkj]
  · intro j a ha
    split
    · next hkj =>
        subst hkj
        rw [hk] at ha
        exact Option.some.inj ha ▸ h.fades
    · exact .refl a

end Session
end DagWorker.Grpc
