import DagWorker.Memory.Counters
import DagWorker.Memory.Order
import DagWorker.Memory.Queues

/-!
# The representation invariant of a scope

`Inv` collects what holds of a scope at any moment, in the middle of an operation
too.  It is preserved by every elementary transition.
-/

namespace DagWorker.Memory.Scope

open Function

/-- The statuses a phase goes with. -/
def fits : Phase → Status → Bool
  | .blocked, st => st = .new
  | .scheduled, st => st = .new
  | .ready, st => st = .new
  | .claimed, st => st = .inProgress
  | .done, st => st.terminal

/-- Claimable nodes carry distinct insertion stamps, none above the counter. -/
structure Lined (s : Scope) : Prop where
  inj : ∀ u v, s.inPhase .ready u = true → s.inPhase .ready v = true →
    s.fifo u = s.fifo v → u = v
  le : ∀ u, s.inPhase .ready u = true → s.fifo u ≤ s.nextFifo

/-- What holds of a scope between any two elementary transitions. -/
structure Inv (s : Scope) : Prop where
  indexed : s.Indexed
  queued : s.Queued
  fitted : ∀ h, fits (s.recs h).phase (s.recs h).status = true
  counted : s.Counted
  mirrored : s.Mirrored
  tallied : s.Tallied
  ranked : s.Ranked
  lined : s.Lined
  known : ∀ h, ∀ v, (s.recs h).trigger ≠ .unknown v

/-! ## Insertion stamps -/

namespace Lined

variable {s s' : Scope} {h : ℕ}

theorem mono (hl : s.Lined) (hfifo : ∀ k, s'.inPhase .ready k = true → s'.fifo k = s.fifo k)
    (hnext : s'.nextFifo = s.nextFifo)
    (hready : ∀ k, s'.inPhase .ready k = true → s.inPhase .ready k = true) : s'.Lined := by
  constructor
  · intro u v hu hv heq
    rw [hfifo u hu, hfifo v hv] at heq
    exact hl.inj u v (hready u hu) (hready v hv) heq
  · intro u hu
    rw [hfifo u hu, hnext]
    exact hl.le u (hready u hu)

/-- A node that becomes claimable takes the next stamp. -/
theorem stamp (hl : s.Lined) (hfifo : s'.fifo = update s.fifo h (s.nextFifo + 1))
    (hnext : s'.nextFifo = s.nextFifo + 1)
    (hready : ∀ k, k ≠ h → s'.inPhase .ready k = true → s.inPhase .ready k = true) :
    s'.Lined := by
  have hother : ∀ k, k ≠ h → s'.inPhase .ready k = true → s.fifo k ≤ s.nextFifo :=
    fun k hk hk' => hl.le k (hready k hk hk')
  constructor
  · intro u v hu hv heq
    rw [hfifo] at heq
    by_cases huh : u = h
    · by_cases hvh : v = h
      · rw [huh, hvh]
      · have := hother v hvh hv
        rw [huh, update_self, update_of_ne hvh] at heq
        omega
    · by_cases hvh : v = h
      · have := hother u huh hu
        rw [hvh, update_self, update_of_ne huh] at heq
        omega
      · rw [update_of_ne huh, update_of_ne hvh] at heq
        exact hl.inj u v (hready u huh hu) (hready v hvh hv) heq
  · intro u hu
    rw [hfifo, hnext]
    by_cases huh : u = h
    · rw [huh, update_self]
    · rw [update_of_ne huh]
      have := hother u huh hu
      omega

end Lined

section Stamps

variable (s : Scope) (h : ℕ)
variable (reason : Reason)

theorem makeReady_fifo : (s.makeReady h).fifo = update s.fifo h (s.nextFifo + 1) := by
  simp [makeReady, pushReady]

theorem makeReady_nextFifo : (s.makeReady h).nextFifo = s.nextFifo + 1 := by
  simp [makeReady, pushReady]

theorem makeBlocked_fifo : (s.makeBlocked h).fifo = s.fifo := by
  simp [makeBlocked, removeReady]

theorem makeBlocked_nextFifo : (s.makeBlocked h).nextFifo = s.nextFifo := by
  simp [makeBlocked, removeReady]

theorem grant_fifo (kind worker : String) (now leaseFor : Int) :
    (s.grant h kind worker now leaseFor).fifo = s.fifo := by
  simp [grant, popKind]

theorem grant_nextFifo (kind worker : String) (now leaseFor : Int) :
    (s.grant h kind worker now leaseFor).nextFifo = s.nextFifo := by
  simp [grant, popKind]

theorem retry_fifo (msg : String) (now delay : Int) :
    (s.retry h reason msg now delay).fifo = s.fifo := by
  simp [retry, schedule, dropLease, removeReady]

theorem retry_nextFifo (msg : String) (now delay : Int) :
    (s.retry h reason msg now delay).nextFifo = s.nextFifo := by
  simp [retry, schedule, dropLease, removeReady]

theorem finish_fifo (it : Item) (now : Int) : (s.finish it now).fifo = s.fifo := by
  simp [finish, removeReady]

theorem finish_nextFifo (it : Item) (now : Int) :
    (s.finish it now).nextFifo = s.nextFifo := by
  simp [finish, removeReady]

end Stamps

/-! ## Preservation -/

namespace Inv

variable {s s' : Scope} {h : ℕ} {r : NodeRec}

theorem newScope (name : String) (cfg : ScopeConfig) (logCap : ℕ) :
    (Scope.newScope name cfg logCap).Inv where
  indexed := by
    constructor <;> simp [Scope.newScope, lookup]
  queued := ⟨PQ.Heap.Holds.empty, PQ.Heap.Holds.empty, fun _ => PQ.Heap.Holds.empty⟩
  fitted := fun _ => rfl
  counted := by
    constructor
    · intro b
      cases b <;> rfl
    · rfl
  mirrored := by
    constructor <;> simp [Scope.newScope, sources]
  tallied := by
    constructor
    · simp [Scope.newScope]
    · intro v o
      cases o <;> simp [Scope.newScope, tally, DepCounts.count]
    · rfl
  ranked := by
    constructor <;> simp [Scope.newScope]
  lined := by
    constructor <;> simp [Scope.newScope, inPhase]
  known := by simp [Scope.newScope]

theorem forall_recs {P : NodeRec → Prop} (hrecs : s'.recs = update s.recs h r) (hr : P r)
    (hs : ∀ k, P (s.recs k)) (k : ℕ) : P (s'.recs k) := by
  rw [hrecs]
  exact (forall_update_iff s.recs fun _ r => P r).mpr ⟨hr, fun k _ => hs k⟩ k

/-- One record is written over, and the graph stays. -/
theorem of_rec (hi : s.Inv) (hrecs : s'.recs = update s.recs h r) (hgraph : s'.graph = s.graph)
    (hh : s.Alive h) (halive : r.alive = true) (hid : r.id = (s.recs h).id)
    (hdeps : r.deps = (s.recs h).deps) (htrigger : r.trigger = (s.recs h).trigger)
    (hfits : fits r.phase r.status = true)
    (hout : (s.recs h).phase ≠ .done ∨ r.phase = (s.recs h).phase ∧
      r.status = (s.recs h).status ∧ r.reason = (s.recs h).reason)
    (hqueued : s'.Queued) (hcounted : s'.Counted) (hlined : s'.Lined) : s'.Inv := by
  obtain ⟨-, hindex, hsize, hfree, hsucc, hpred, hord, hnext, -, hsupp, -⟩ := Graph.mk.inj hgraph
  have hal : ∀ k, (s'.recs k).alive = (s.recs k).alive := by
    intro k
    by_cases hk : k = h
    · rw [hk, hrecs, update_self, halive, hh]
    · rw [hrecs, update_of_ne hk]
  exact
    { indexed := hi.indexed.update_rec hindex hsize hfree hrecs hh halive hid
      queued := hqueued
      fitted := forall_recs (P := fun r => fits r.phase r.status = true) hrecs hfits hi.fitted
      counted := hcounted
      mirrored := hi.mirrored.congr hsucc (fun v => by simp only [sources, hpred]) hal
      tallied := hi.tallied.update_rec hpred hsupp hrecs hdeps hout
      ranked := hi.ranked.mono hord hnext (fun k hk => (hal k).symm.trans hk)
        (fun u v huv => hsucc ▸ huv)
      lined := hlined
      known := forall_recs (P := fun r => ∀ v, r.trigger ≠ .unknown v) hrecs
        (htrigger ▸ hi.known h) hi.known }

theorem of_move (hi : s.Inv) (hrecs : s'.recs = update s.recs h r) (hgraph : s'.graph = s.graph)
    (hstats : s'.stats = s.movedStats h r) (hh : s.Alive h) (hopen : (s.recs h).phase ≠ .done)
    (halive : r.alive = true) (hid : r.id = (s.recs h).id) (hdeps : r.deps = (s.recs h).deps)
    (htrigger : r.trigger = (s.recs h).trigger) (hfits : fits r.phase r.status = true)
    (hqueued : s'.Queued) (hlined : s'.Lined) : s'.Inv := by
  have hsize : s'.size = s.size := (Graph.mk.inj hgraph).2.2.1
  exact hi.of_rec hrecs hgraph hh halive hid hdeps htrigger hfits (.inl hopen) hqueued
    (hi.counted.move hsize (hi.indexed.lt_size h hh) hrecs hh halive hstats) hlined

theorem of_touch (hi : s.Inv) (hrecs : s'.recs = update s.recs h r) (hh : s.Alive h)
    (hgraph : s'.graph = s.graph) (hstats : s'.stats = s.stats) (hleases : s'.leases = s.leases)
    (hsched : s'.scheduled = s.scheduled) (hready : s'.ready = s.ready)
    (hfifo : s'.fifo = s.fifo) (hnextFifo : s'.nextFifo = s.nextFifo)
    (halive : r.alive = (s.recs h).alive) (hid : r.id = (s.recs h).id)
    (hkind : r.kind = (s.recs h).kind) (hphase : r.phase = (s.recs h).phase)
    (hstatus : r.status = (s.recs h).status) (hreason : r.reason = (s.recs h).reason)
    (hdeps : r.deps = (s.recs h).deps) (htrigger : r.trigger = (s.recs h).trigger) :
    s'.Inv := by
  have hsize : s'.size = s.size := (Graph.mk.inj hgraph).2.2.1
  apply hi.of_rec hrecs hgraph hh (halive.trans hh) hid hdeps htrigger
  · rw [hphase, hstatus]
    exact hi.fitted h
  · exact .inr ⟨hphase, hstatus, hreason⟩
  · exact hi.queued.update_rec hleases hsched hready hrecs halive hphase hkind
  · exact hi.counted.update_rec hsize (by simp [hstats]) (by rw [hstats]) hrecs halive
      (by simp [bucket, hphase, hstatus])
  · refine hi.lined.mono (fun k _ => by rw [hfifo]) hnextFifo fun k hk => ?_
    rw [inPhase_update hrecs, halive, hphase] at hk
    split at hk <;> simp_all [inPhase]

theorem of_deps (hi : s.Inv) {d : DepCounts}
    (hrecs : s'.recs = update s.recs h { s.recs h with deps := d }) (hh : s.Alive h)
    (hindex : s'.index = s.index) (hsize : s'.size = s.size) (hfree : s'.free = s.free)
    (hstats : s'.stats = s.stats) (hleases : s'.leases = s.leases)
    (hsched : s'.scheduled = s.scheduled) (hready : s'.ready = s.ready)
    (hfifo : s'.fifo = s.fifo) (hnextFifo : s'.nextFifo = s.nextFifo)
    (hmirrored : s'.Mirrored) (htallied : s'.Tallied) (hranked : s'.Ranked) : s'.Inv where
  indexed := hi.indexed.update_rec hindex hsize hfree hrecs hh hh rfl
  queued := hi.queued.update_rec hleases hsched hready hrecs rfl rfl rfl
  fitted := forall_recs (P := fun r => fits r.phase r.status = true) hrecs (hi.fitted h) hi.fitted
  counted := hi.counted.update_rec hsize (by simp [hstats]) (by rw [hstats]) hrecs rfl rfl
  mirrored := hmirrored
  tallied := htallied
  ranked := hranked
  lined := by
    refine hi.lined.mono (fun k _ => by rw [hfifo]) hnextFifo fun k hk => ?_
    rw [inPhase_update hrecs] at hk
    split at hk <;> simp_all [inPhase]
  known := forall_recs (P := fun r => ∀ v, r.trigger ≠ .unknown v) hrecs (hi.known h) hi.known

variable (hi : s.Inv)
include hi

/-- A node that leaves the ready phase, or stays out of it. -/
theorem lined_of_move (hrecs : s'.recs = update s.recs h r) (hfifo : s'.fifo = s.fifo)
    (hnext : s'.nextFifo = s.nextFifo) (hphase : r.phase ≠ .ready) : s'.Lined := by
  refine hi.lined.mono (fun k _ => by rw [hfifo]) hnext fun k hk => ?_
  rw [inPhase_update hrecs] at hk
  split at hk
  · simp [hphase] at hk
  · exact hk

theorem makeReady (hh : s.Alive h) (hp : (s.recs h).phase = .blocked) :
    (s.makeReady h).Inv := by
  refine hi.of_move (makeReady_recs s h) (makeReady_graph s h) (makeReady_stats s h) hh
    (by simp [hp]) hh rfl rfl rfl rfl (hi.queued.makeReady hh hp) ?_
  refine hi.lined.stamp (makeReady_fifo s h) (makeReady_nextFifo s h) fun k hk hk' => ?_
  rwa [inPhase_update (makeReady_recs s h), if_neg hk] at hk'

theorem promote (hp : s.scheduled.peek = some h) : (s.promote h).Inv := by
  obtain ⟨hh, hphase⟩ := hi.queued.scheduled_of_peek hp
  refine hi.of_move (promote_recs s h) (promote_graph s h) (promote_stats s h) hh
    (by simp [hphase]) hh rfl rfl rfl rfl (hi.queued.promote hp) ?_
  refine hi.lined.stamp (h := h) (makeReady_fifo _ h) (makeReady_nextFifo _ h) fun k hk hk' => ?_
  rwa [inPhase_update (promote_recs s h), if_neg hk] at hk'

theorem makeBlocked (hh : s.Alive h) (hp : (s.recs h).phase = .ready) :
    (s.makeBlocked h).Inv :=
  hi.of_move (makeBlocked_recs s h) (makeBlocked_graph s h) (makeBlocked_stats s h) hh
    (by simp [hp]) hh rfl rfl rfl rfl (hi.queued.makeBlocked hp)
    (hi.lined_of_move (makeBlocked_recs s h) (makeBlocked_fifo s h) (makeBlocked_nextFifo s h)
      (by simp))

theorem grant {kind : String} (worker : String) (now leaseFor : Int)
    (hp : (s.readyHeap kind).peek = some h) : (s.grant h kind worker now leaseFor).Inv := by
  obtain ⟨hh, hphase, -⟩ := hi.queued.phase_of_peek hp
  have hrecs := grant_recs s h kind worker now leaseFor
  exact hi.of_move hrecs (grant_graph _ _ _ _ _ _) (grant_stats _ _ _ _ _ _) hh
    (by simp [hphase]) hh rfl rfl rfl rfl (hi.queued.grant worker now leaseFor hp)
    (hi.lined_of_move hrecs (grant_fifo _ _ _ _ _ _) (grant_nextFifo _ _ _ _ _ _)
      (by simp [grantedRec]))

theorem retry (reason : Reason) (msg : String) (now delay : Int) (hh : s.Alive h)
    (hp : (s.recs h).phase = .claimed) : (s.retry h reason msg now delay).Inv := by
  have hrecs := retry_recs s h reason msg now delay
  exact hi.of_move hrecs (retry_graph _ _ _ _ _ _) (retry_stats _ _ _ _ _ _) hh
    (by simp [hp]) hh rfl rfl rfl rfl (hi.queued.retry reason msg now delay hh)
    (hi.lined_of_move hrecs (retry_fifo _ _ _ _ _ _) (retry_nextFifo _ _ _ _ _ _)
      (by simp [retriedRec]))

theorem finish (it : Item) (now : Int) (hh : s.Alive it.h)
    (hopen : (s.recs it.h).phase ≠ .done) (hst : it.status.terminal = true) :
    (s.finish it now).Inv := by
  have hrecs := finish_recs s it now
  exact hi.of_move hrecs (finish_graph s it now) (finish_stats s it now) hh hopen hh rfl rfl rfl
    hst (hi.queued.finish it now)
    (hi.lined_of_move hrecs (finish_fifo s it now) (finish_nextFifo s it now)
      (by simp [finishedRec]))

theorem create {spec : NodeSpec} (now : Int) (hnew : s.lookup spec.id = none)
    (hknown : ∀ v, spec.trigger ≠ .unknown v) : (s.created spec now).Inv where
  indexed := hi.indexed.create hnew
  queued := hi.queued.create hi.indexed spec now
  fitted := by
    intro k
    by_cases hk : k = s.slot
    · simp [hk, newRec, fits]
    · simpa [hk] using hi.fitted k
  counted := hi.counted.create hi.indexed spec now
  mirrored := hi.mirrored.create hi.indexed spec now
  tallied := hi.tallied.create hi.indexed hi.mirrored spec now
  ranked := hi.ranked.create hi.indexed hi.mirrored spec now
  lined := by
    have hready : ∀ k, (s.created spec now).inPhase .ready k = true →
        k ≠ s.slot ∧ s.inPhase .ready k = true := by
      intro k hk
      rw [inPhase_update (created_recs s spec now)] at hk
      split at hk
      · simp [newRec] at hk
      · exact ⟨‹_›, hk⟩
    refine hi.lined.mono (fun k hk => ?_) rfl fun k hk => (hready k hk).2
    simp [(hready k hk).1]
  known := by
    intro k
    by_cases hk : k = s.slot
    · simpa [hk, newRec] using hknown
    · simpa [hk] using hi.known k

/-- What deleting a node preserves, whatever has been done to its queues and
edges before. -/
theorem of_delete {s₁ : Scope} {id : NodeID} (hrecs : s₁.recs = s.recs)
    (hfifo : s₁.fifo = s.fifo) (hnextFifo : s₁.nextFifo = s.nextFifo)
    (hindexed : (s₁.deleted h id).Indexed) (hqueued : (s₁.deleted h id).Queued)
    (hcounted : (s₁.deleted h id).Counted) (hmirrored : (s₁.deleted h id).Mirrored)
    (htallied : (s₁.deleted h id).Tallied) (hranked : (s₁.deleted h id).Ranked) :
    (s₁.deleted h id).Inv where
  indexed := hindexed
  queued := hqueued
  fitted := by
    intro k
    by_cases hk : k = h
    · simp [hk, fits]
    · simpa [hk, hrecs] using hi.fitted k
  counted := hcounted
  mirrored := hmirrored
  tallied := htallied
  ranked := hranked
  lined := by
    refine hi.lined.mono (fun k _ => by rw [deleted_fifo, hfifo])
      (by rw [deleted_nextFifo, hnextFifo]) fun k hk => ?_
    by_cases hkh : k = h
    · simp [inPhase, hkh] at hk
    · simpa [inPhase, hkh, hrecs] using hk
  known := by
    intro k
    by_cases hk : k = h
    · simp [hk]
    · simpa [hk, hrecs] using hi.known k

theorem ranked_delete (h : ℕ) (id : NodeID) : (s.deleted h id).Ranked := by
  refine hi.ranked.mono rfl rfl ?_ ?_
  · intro k hk
    by_cases hkh : k = h
    · simp [Alive, hkh] at hk
    · simpa [Alive, hkh] using hk
  · intro u v huv
    by_cases hu : u = h
    · simp [hu] at huv
    · simpa [hu] using huv

theorem delete (hh : s.Alive h) (hp : (s.recs h).phase = .blocked) (hsucc : s.succ h = [])
    (hpred : s.pred h = []) : (s.deleted h (s.recs h).id).Inv :=
  hi.of_delete rfl rfl rfl (hi.indexed.delete hh) (hi.queued.delete _ (.inl hp))
    (hi.counted.delete (hi.indexed.lt_size h hh) hh _) (hi.mirrored.delete _ hsucc hpred)
    (hi.tallied.delete hi.mirrored _ hsucc hpred) (hi.ranked_delete h _)

theorem discard (hh : s.Alive h) (hsucc : s.succ h = []) (hpred : s.pred h = []) :
    ((s.unqueue h).deleted h (s.recs h).id).Inv := by
  have hindexed : (s.unqueue h).Indexed := hi.indexed.congr rfl rfl rfl rfl
  have hcounted : (s.unqueue h).Counted := ⟨hi.counted.counter_eq, hi.counted.total_eq⟩
  have hmirrored : (s.unqueue h).Mirrored :=
    hi.mirrored.congr rfl (fun _ => rfl) fun _ => rfl
  have htallied : (s.unqueue h).Tallied :=
    hi.tallied.congr (fun _ => rfl) rfl (fun _ => rfl) fun _ _ _ => rfl
  have hranked : ((s.unqueue h).deleted h (s.recs h).id).Ranked :=
    (hi.ranked_delete h (s.recs h).id).mono rfl rfl (fun _ hk => hk) fun _ _ huv => huv
  exact hi.of_delete rfl rfl rfl (hindexed.delete hh) (hi.queued.discard _)
    (hcounted.delete (hi.indexed.lt_size h hh) hh _) (hmirrored.delete _ hsucc hpred)
    (htallied.delete hmirrored _ hsucc hpred) hranked

theorem collect (hh : s.Alive h) (hp : (s.recs h).phase = .done) (hsucc : s.succ h = []) :
    ((s.severed h).deleted h (s.recs h).id).Inv := by
  have hindexed : (s.severed h).Indexed := hi.indexed.congr rfl rfl rfl rfl
  have hcounted : (s.severed h).Counted := ⟨hi.counted.counter_eq, hi.counted.total_eq⟩
  have hqueued : (s.severed h).Queued := hi.queued.frame rfl rfl rfl
  have hranked : ((s.severed h).deleted h (s.recs h).id).Ranked := by
    refine (hi.ranked_delete h (s.recs h).id).mono rfl rfl (fun _ hk => hk) ?_
    intro u v huv
    by_cases hu : u = h
    · simp [hu] at huv
    · simp only [deleted_succ, severed_succ, update_of_ne hu] at huv ⊢
      exact List.mem_of_mem_erase huv
  exact hi.of_delete rfl rfl rfl (hindexed.delete hh) (hqueued.delete _ (.inr hp))
    (hcounted.delete (hi.indexed.lt_size h hh) hh _) (hi.mirrored.collect _ hsucc)
    (hi.tallied.collect hi.mirrored _ hsucc) hranked

theorem link {u v : ℕ} (hu : s.Alive u) (hv : s.Alive v) (hnew : s.hasEdge u v = false)
    (hlt : s.ord u < s.ord v) : (s.linked u v).Inv :=
  hi.of_deps (linked_recs s u v) hv rfl rfl rfl rfl rfl rfl rfl rfl rfl
    (hi.mirrored.link hu hv hnew) (hi.tallied.link u v) (hi.ranked.link hlt)

theorem unlink {u v : ℕ} {e : PredEdge}
    (hf : (s.pred v).find? (fun e => e.source = u) = some e) : (s.unlinked u v e).Inv := by
  have hmem : u ∈ s.sources v := by
    have hsrc : e.source = u := by simpa using List.find?_some hf
    exact List.mem_map.mpr ⟨e, List.mem_of_find?_eq_some hf, hsrc⟩
  refine hi.of_deps (unlinked_recs s u v e) (hi.mirrored.alive_of_mem_sources hmem)
    rfl rfl rfl rfl rfl rfl rfl rfl rfl (hi.mirrored.unlink hmem) (hi.tallied.unlink hf) ?_
  refine hi.ranked.mono rfl rfl ?_ ?_
  · intro k hk
    by_cases hkv : k = v <;> simpa [Alive, hkv] using hk
  intro a b hab
  by_cases ha : a = u
  · subst ha
    rw [unlinked_succ, update_self] at hab
    exact List.mem_of_mem_erase hab
  · rwa [unlinked_succ, update_of_ne ha] at hab

theorem mark {u w : ℕ} {es : List PredEdge} (hf : flipFirst u (s.pred w) = some es)
    (hu : (s.recs u).phase = .done) :
    (s.marked w es (.ofTerminal (s.recs u).status (s.recs u).reason)).Inv := by
  have hw : s.Alive w := by
    by_contra hw
    rw [hi.mirrored.dead_pred w hw] at hf
    simp [flipFirst] at hf
  refine hi.of_deps (marked_recs _ _ _ _) hw rfl rfl rfl rfl rfl rfl rfl rfl rfl
    (hi.mirrored.mark _ hf) (hi.tallied.mark hf hu) ?_
  refine hi.ranked.mono rfl rfl ?_ fun _ _ huv => huv
  intro k hk
  by_cases hkw : k = w <;> simpa [Alive, hkw] using hk

theorem rerank {ord : ℕ → ℕ} (hord : s.Reranks ord) : Inv { s with ord := ord } :=
  { indexed := hi.indexed.congr rfl rfl rfl rfl
    queued := hi.queued.frame rfl rfl rfl
    fitted := hi.fitted
    counted := ⟨hi.counted.counter_eq, hi.counted.total_eq⟩
    mirrored := hi.mirrored.congr rfl (fun _ => rfl) fun _ => rfl
    tallied := hi.tallied.congr (fun _ => rfl) rfl (fun _ => rfl) fun _ _ _ => rfl
    ranked := ⟨hord.inj, hord.le, hord.edge⟩
    lined := hi.lined.mono (fun _ _ => rfl) rfl fun _ hk => hk
    known := hi.known }

/-- A change outside the nodes, the edges, the queues and the counters. -/
theorem of_frame (hrecs : s'.recs = s.recs)
    (hgraph : { s'.graph with cfg := s.cfg, isSealed := s.isSealed } = s.graph)
    (hcount : ∀ b, counter s'.stats b = counter s.stats b)
    (htotal : s'.stats.total = s.stats.total) (hqueued : s'.Queued)
    (hfifo : s'.fifo = s.fifo) (hnextFifo : s'.nextFifo = s.nextFifo) : s'.Inv := by
  obtain ⟨-, hindex, hsize, hfree, hsucc, (hpred : s'.pred = s.pred), hord, hnext, -, hsupp,
    -⟩ := Graph.mk.inj hgraph
  exact
    { indexed := hi.indexed.congr hindex hsize hfree hrecs
      queued := hqueued
      fitted := by
        rw [hrecs]
        exact hi.fitted
      counted := hi.counted.update_rec (h := 0) (r := s.recs 0) hsize hcount htotal
        (by rw [hrecs, update_eq_self]) rfl rfl
      mirrored := hi.mirrored.congr hsucc (fun v => by simp only [sources, hpred])
        fun k => by rw [hrecs]
      tallied := hi.tallied.congr (fun v => by rw [hpred]) hsupp (fun v => by rw [hrecs])
        fun _ _ _ => by rw [hrecs]
      ranked := hi.ranked.mono hord hnext (fun k hk => by simpa [Alive, hrecs] using hk)
        fun u v huv => hsucc ▸ huv
      lined := hi.lined.mono (fun _ _ => by rw [hfifo]) hnextFifo
        fun k hk => by simpa [inPhase, hrecs] using hk
      known := by
        rw [hrecs]
        exact hi.known }

theorem renew (h : ℕ) (t : Int) : (s.renew h t).Inv :=
  hi.of_frame rfl rfl (fun _ => rfl) rfl (Queues.renew hi.queued h t) rfl rfl

theorem record (kind : EventKind) (fromStatus : Status) (t : Int) (hh : s.Alive h) :
    (s.recordAt h kind fromStatus t).2.Inv := by
  obtain ⟨log, start, heq⟩ := s.recordAt_eq h kind fromStatus t
  rw [heq]
  exact hi.of_touch rfl hh rfl rfl rfl rfl rfl rfl rfl rfl rfl rfl rfl rfl rfl rfl rfl

theorem annotate (result : Bytes) (worker : String) (hh : s.Alive h) :
    (s.modRec h fun r => { r with result := result, worker := worker }).Inv :=
  hi.of_touch rfl hh rfl rfl rfl rfl rfl rfl rfl rfl rfl rfl rfl rfl rfl rfl rfl

theorem step (hstep : Step s s') : s'.Inv := by
  cases hstep with
  | refresh | sealing =>
    exact hi.of_frame rfl rfl (fun b => by cases b <;> rfl) rfl (hi.queued.frame rfl rfl rfl)
      rfl rfl
  | configure cfg =>
    exact hi.of_frame rfl rfl (fun _ => rfl) rfl (hi.queued.frame rfl rfl rfl) rfl rfl
  | create spec now hnew hknown =>
    rw [create_eq]
    exact hi.create now hnew hknown
  | rerank ord hord => exact hi.rerank hord
  | link u v hu hv hopen hnew hlt =>
    exact hi.link hu hv hnew hlt
  | unlink u v => exact unlinkEdge_cases s hi fun e hf => hi.unlink hf
  | delete h hh hp hsucc hpred =>
    rw [deleteNode_eq]
    exact hi.delete hh hp hsucc hpred
  | discard h hh hsucc hpred =>
    rw [deleteNode_eq]
    exact hi.discard hh hsucc hpred
  | collect h hh hp hsucc =>
    rw [hi.mirrored.detachPreds_eq_severed, deleteNode_eq]
    exact hi.collect hh hp hsucc
  | finish it now hh hopen hst => exact hi.finish it now hh hopen hst
  | mark w u hu => exact markSatisfied_cases s _ _ hi fun es hf => hi.mark hf hu
  | makeReady h hh hp hready => exact hi.makeReady hh hp
  | promote h hp => exact hi.promote hp
  | makeBlocked h hh hp hund => exact hi.makeBlocked hh hp
  | retry h reason msg now delay hh hp => exact hi.retry reason msg now delay hh hp
  | annotate h result worker hh => exact hi.annotate result worker hh
  | renew h t hh hp => exact hi.renew h t

theorem path {es : List Effect} (hpath : Path s es s') : s'.Inv :=
  hpath.preserves (fun _ _ ha hstep => ha.step hstep)
    (fun _ _ kind fromStatus t ha hh => ha.record kind fromStatus t hh) hi

end Inv
end DagWorker.Memory.Scope
