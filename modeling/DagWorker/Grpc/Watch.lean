import DagWorker.Grpc.Invariant

/-!
# What a watch session tracks

As long as identifiers are reused with care, every open watch can be cancelled, the end of
the session waits for no pump for ever, and no identifier is reported as cancelled while a
watch is open under it.  An identifier in use that is given to a new watch breaks all three.
-/

namespace DagWorker.Grpc.Session

open Relation (ReflTransGen)

variable {s s' : Session} {k : ℕ}
variable {delivered : Bool} {reason : String} {compacted : ℕ}

/-! ## Waiting for the pumps -/

theorem sum_weight_set_lt {l : List Sub} {sub b : Sub} (hk : l[k]? = some sub)
    (hlt : weight b < weight sub) : ((l.set k b).map weight).sum < (l.map weight).sum := by
  obtain ⟨pre, post, rfl, hset, -⟩ := Actions.exists_of_getElem? hk
  rw [hset]
  simp only [List.map_append, List.map_cons, List.sum_append, List.sum_cons]
  omega

theorem Winds.lt (h : Winds s s') :
    (s'.subs.map weight).sum < (s.subs.map weight).sum := by
  rcases h with ⟨k, delivered, hact⟩ | ⟨k, err, sub, hk, -, hact⟩
  · obtain ⟨sub, hk, hstep⟩ := Option.bind_eq_some_iff.mp hact
    obtain ⟨b, hpumped⟩ := pumpStep_inv hk hstep
    rw [hpumped.subs]
    exact sum_weight_set_lt hk hpumped.weight
  · rw [Session.act, hk, Option.bind_some] at hact
    split_ifs at hact with hended
    obtain rfl := Option.some.inj hact
    rw [subs_modSub hk]
    apply sum_weight_set_lt hk
    simp only [weight, hended]
    simp

theorem Winds.fades (h : Winds s s') : s.Fades s' := by
  rcases h with ⟨k, delivered, hact⟩ | ⟨k, err, sub, hk, -, hact⟩
  · obtain ⟨sub, hk, hstep⟩ := Option.bind_eq_some_iff.mp hact
    obtain ⟨b, hpumped⟩ := pumpStep_inv hk hstep
    exact hpumped.session hk
  rw [Session.act, hk, Option.bind_some] at hact
  split_ifs at hact
  obtain rfl := Option.some.inj hact
  apply fades_modSub
  exact fun a _ => ⟨⟨rfl, fun h => h, fun h => h⟩, fun h => h⟩

/-- Where no watch is open, a pump that has not returned can go on, or its subscription is
to end. -/
theorem exists_winds (hq : ∀ id, s.Quiet id) {sub : Sub} (hsub : sub ∈ s.subs)
    (hpump : sub.stage.pumping = true) : ∃ s', Winds s s' := by
  obtain ⟨k, hk⟩ := List.getElem?_of_mem hsub
  have hstep : (s.pumpStep k sub true).isSome = true → ∃ s', Winds s s' := by
    intro hsome
    obtain ⟨s', hstep⟩ := Option.isSome_iff_exists.mp hsome
    exact ⟨s', .inl ⟨k, true, by rw [Session.act, hk, Option.bind_some, hstep]⟩⟩
  cases hstage : sub.stage with
  | forwarding =>
    have hcancelled : sub.cancelled = true := by
      have hdead := hq sub.id sub hsub rfl
      simpa [Sub.live, hstage] using hdead
    cases hch : sub.ch with
    | nil =>
      cases hended : sub.ended with
      | true => exact hstep (by simp [Session.pumpStep, hstage, hch, hended])
      | false =>
        have hact : s.act (.finish k "") =
            some (s.modSub k fun sub => { sub with ended := true, err := "" }) := by
          rw [Session.act, hk, Option.bind_some, hended]
          rfl
        exact ⟨_, .inr ⟨k, "", sub, hk, hcancelled, hact⟩⟩
    | cons ev rest =>
      apply hstep
      simp only [Session.pumpStep, hstage, hch]
      split <;> rfl
  | dropping | reporting => exact hstep (by simp [Session.pumpStep, hstage])
  | closing =>
    apply hstep
    simp only [Session.pumpStep, hstage]
    split <;> rfl
  | opened | registered | returned | abandoned =>
    rw [hstage] at hpump
    cases hpump

theorem waitEnds_of_quiet (hq : ∀ id, s.Quiet id) : s.WaitEnds := by
  constructor
  · have hwf : WellFounded fun b a : Session => Winds a b :=
      Subrelation.wf (fun h => Winds.lt h) (measure fun s : Session => (s.subs.map weight).sum).wf
    exact hwf.apply s
  intro s' hrun hend sub hsub
  have hq' : ∀ id, s'.Quiet id := by
    clear hend hsub
    induction hrun with
    | refl => exact hq
    | tail _ hwinds ih => exact fun id => hwinds.fades.quiet (ih id)
  cases hpump : sub.stage.pumping with
  | false => rfl
  | true =>
    obtain ⟨s'', hwinds⟩ := exists_winds hq' hsub hpump
    exact absurd hwinds (hend s'')

/-! ## Reports -/

theorem sent_send {t : Session} {r r' : Response} (ht : t.sent = s.sent)
    (h : (t.send delivered r).sent = s.sent ++ [r']) : r = r' := by
  rw [Session.send] at h
  split at h
  · rw [ht] at h
    simpa using h
  · simp [ht] at h

theorem mainStep_reports {id : Int} (hstep : s.mainStep delivered = some s')
    (hsent : s'.sent = s.sent ++ [.canceled id reason compacted]) :
    s.main = .refusing id reason compacted ∨ s.main = .acking id := by
  rw [Session.mainStep] at hstep
  split at hstep
  · obtain rfl := Option.some.inj hstep
    simp [setStage, modSub] at hsent
  · obtain rfl := Option.some.inj hstep
    cases sent_send rfl hsent
  · obtain rfl := Option.some.inj hstep
    simp [goto, setStage, modSub] at hsent
  · obtain rfl := Option.some.inj hstep
    simp [goto, modSub] at hsent
  · next hmain =>
      obtain rfl := Option.some.inj hstep
      cases sent_send rfl hsent
      exact .inl hmain
  · obtain rfl := Option.some.inj hstep
    simp [goto, modSub] at hsent
  · next hmain =>
      obtain rfl := Option.some.inj hstep
      cases sent_send rfl hsent
      exact .inr hmain
  · obtain rfl := Option.some.inj hstep
    simp [goto, Session.cancelAll] at hsent
  · split_ifs at hstep
    obtain rfl := Option.some.inj hstep
    simp [goto] at hsent
  all_goals cases hstep

/-- Only the handler past `Subscribe` and the pumps send. -/
theorem act_sent {a : Action} (hact : s.act a = some s') : (∃ delivered, a = .main delivered) ∨
    (∃ k delivered, a = .pump k delivered) ∨ s'.sent = s.sent := by
  cases a with
  | main delivered => exact .inl ⟨delivered, rfl⟩
  | pump k delivered => exact .inr (.inl ⟨k, delivered, rfl⟩)
  | create id scope filter =>
    rw [Session.act] at hact
    split_ifs at hact
    obtain rfl := Option.some.inj hact
    rw [Session.create]
    split_ifs
    · exact .inr (.inr rfl)
    · split <;> exact .inr (.inr rfl)
  | cancel id =>
    rw [Session.act] at hact
    split_ifs at hact
    obtain rfl := Option.some.inj hact
    rw [Session.cancelWatch]
    split <;> exact .inr (.inr rfl)
  | leave =>
    rw [Session.act] at hact
    split_ifs at hact
    obtain rfl := Option.some.inj hact
    exact .inr (.inr rfl)
  | subscribe | refuse =>
    rw [Session.act] at hact
    split at hact
    · obtain rfl := Option.some.inj hact
      exact .inr (.inr rfl)
    · cases hact
  | offer | finish =>
    obtain ⟨sub, -, hstep⟩ := Option.bind_eq_some_iff.mp hact
    split_ifs at hstep
    obtain rfl := Option.some.inj hstep
    exact .inr (.inr rfl)
  | ctxEnd =>
    obtain rfl := Option.some.inj hact
    exact .inr (.inr rfl)

theorem Inv.reports (h : s.Inv) {a : Action} {id : Int} (hact : s.act a = some s')
    (hsent : s'.sent = s.sent ++ [.canceled id reason compacted]) : s.Quiet id := by
  have hquiet : s'.sent ≠ s.sent := by simp [hsent]
  rcases act_sent hact with ⟨delivered, rfl⟩ | ⟨k, delivered, rfl⟩ | heq
  · have hok := h.main
    rcases mainStep_reports hact hsent with hmain | hmain <;> rw [hmain] at hok <;> exact hok
  · obtain ⟨sub, hk, hstep⟩ := Option.bind_eq_some_iff.mp hact
    obtain ⟨b, hpumped⟩ := pumpStep_inv hk hstep
    rcases hpumped.sent with heq | ⟨node, heq⟩ | ⟨⟨hopen, hdead⟩, heq⟩
    · exact absurd heq hquiet
    · rw [heq] at hsent
      simp at hsent
    · rw [heq] at hsent
      obtain ⟨rfl, -⟩ : sub.id = id ∧ _ := by simpa using hsent
      exact h.quiet_of_unfinished hk hopen hdead
  · exact absurd heq hquiet

theorem Inv.tracks (h : s.Inv) : s.Tracks := by
  constructor
  · intro k sub hk hstage hcancelled
    exact h.tracked k sub hk (by simp [Sub.live, hstage, hcancelled])
  · intro hmain
    have hok := h.main
    rw [hmain] at hok
    exact waitEnds_of_quiet hok
  · intro a s' id reason compacted hact hsent
    exact h.reports hact hsent

/-- A session whose requests are `careful` tracks its watches all along. -/
theorem careful_run_tracks (s : Session)
    (hrun : ReflTransGen (Actions.Takes act careful) {} s) : s.Tracks := by
  apply Inv.tracks
  apply Actions.preserves _ inv_initial hrun
  intro s s' a h hact hcareful
  exact h.act hcareful hact

/-- A watch is created, delivers an event and is cancelled; its identifier is used again when
its pump has returned, and the session ends. -/
def reuseActions : List Action :=
  [.create 1 "jobs" "", .subscribe, .main true, .main true, .main true, .offer 0 "a",
    .pump 0 true, .cancel 1, .main true, .main true, .finish 0 "context canceled", .pump 0 true,
    .pump 0 true, .create 1 "jobs" "", .subscribe, .main true, .main true, .main true, .leave,
    .main true]

theorem reuse_tracks : ∃ s, ReflTransGen (Actions.Takes act careful) {} s ∧
    s.main = .waiting ∧ s.watches.lookup 1 = some 1 ∧ s.Tracks := by
  have hheeds : Actions.heeds act careful reuseActions {} = true := by decide +kernel
  have hdrive : (Actions.drive act reuseActions {}).any (fun s =>
      s.main = .waiting ∧ s.watches.lookup 1 = some 1) = true := by decide +kernel
  obtain ⟨s, hs, hp⟩ := (Option.any_eq_true _ _).mp hdrive
  obtain ⟨hmain, hreg⟩ := of_decide_eq_true hp
  have hrun := Actions.steps_of_drive hheeds hs
  exact ⟨s, hrun, hmain, hreg, careful_run_tracks s hrun⟩

/-- The same, but an identifier in use is given to a new watch before the pump of the old one
has returned. -/
def replaceActions : List Action :=
  [.create 1 "jobs" "", .subscribe, .main true, .main true, .main true, .create 1 "jobs" "",
    .subscribe, .main true, .main true, .main true, .finish 0 "context canceled", .pump 0 true,
    .pump 0 true, .pump 0 true, .leave, .main true]

/-- Where `replaceActions` leaves the session: the second watch is open, but not in the map. -/
def stranded : Session :=
  { subs :=
      [{ id := 1, filter := "", cancelled := true, ended := true, err := "context canceled",
         stage := .returned },
       { id := 1, filter := "", stage := .forwarding }]
    main := .waiting
    sent := [.created 1, .created 1, .canceled 1 "context canceled" 0] }

theorem stranded_waits : ¬stranded.WaitEnds := by
  intro h
  have hstuck : ∀ s, ¬Winds stranded s := by
    rintro s (⟨k, delivered, hact⟩ | ⟨k, err, sub, hk, hcancelled, hact⟩)
    · match k with
      | 0 => cases hact
      | 1 => cases hact
      | k + 2 => cases hact
    · match k with
      | 0 => cases hact
      | 1 =>
        cases hk
        cases hcancelled
      | k + 2 => cases hk
  have hidle := h.2 stranded .refl hstuck { id := 1, filter := "", stage := .forwarding }
    (by decide)
  cases hidle

/-- The pump of the first watch removes the entry of the second one and reports the identifier
as cancelled.  Nothing can cancel the second watch then, and `closeAll` waits for its pump. -/
theorem replaced_watch_lost :
    ReflTransGen (Actions.Takes act fun _ _ => true) {} stranded ∧
    ¬stranded.WaitEnds ∧
    stranded.watches.lookup 1 = none ∧
    ∃ s s', ReflTransGen (Actions.Takes act fun _ _ => true) {} s ∧
      s.act (.pump 0 true) = some s' ∧
      s'.sent = s.sent ++ [.canceled 1 "context canceled" 0] ∧
      (s.subs.getLast?).any (fun sub => sub.id = 1 && sub.live) = true := by
  have hstranded : Actions.drive act replaceActions {} = some stranded := rfl
  refine ⟨Actions.steps_of_drive_free hstranded, stranded_waits, rfl, ?_⟩
  have hdrive : (Actions.drive act (replaceActions.take 13) {}).any (fun s =>
      (s.act (.pump 0 true)).any (fun s' =>
        s'.sent = s.sent ++ [.canceled 1 "context canceled" 0]) &&
      (s.subs.getLast?).any (fun sub => sub.id = 1 && sub.live)) = true := by decide +kernel
  obtain ⟨s, hs, hp⟩ := (Option.any_eq_true _ _).mp hdrive
  rw [Bool.and_eq_true] at hp
  obtain ⟨s', hs', hsent⟩ := (Option.any_eq_true _ _).mp hp.1
  exact ⟨s, s', Actions.steps_of_drive_free hs, hs', of_decide_eq_true hsent, hp.2⟩

end DagWorker.Grpc.Session
