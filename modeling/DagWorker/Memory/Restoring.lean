import DagWorker.Memory.Settle
import DagWorker.Memory.Store

/-!
# Restoring a scope

`Restore` gives every node of a snapshot a new handle, in identifier order, and
rebuilds the index and the heaps.  The result is a copy of the scope under a
renaming of handles: `Copies` states what is the same, and everything proved
about a scope carries over to a copy.
-/

namespace DagWorker.Memory.Scope

open Function

variable {α : Type} {h i : ℕ} {nodes : List NodeSnapshot} {s : Scope} {hs : List ℕ}
variable (n : ℕ) (q : ℕ → Bool)

/-! ## The three loops in closed form -/

/-- A table with the values of `f` at the listed nodes written from slot `h` on. -/
def placed {α : Type} (h : ℕ) (nodes : List NodeSnapshot) (f : NodeSnapshot → α)
    (old : ℕ → α) : ℕ → α :=
  fun i => if h ≤ i then ((nodes.map f).getD (i - h) (old i)) else old i

theorem placed_nil (h : ℕ) (f : NodeSnapshot → α) (old : ℕ → α) :
    placed h [] f old = old := by
  funext i
  simp [placed]

theorem placed_cons (h : ℕ) (ns : NodeSnapshot) (nodes : List NodeSnapshot)
    (f : NodeSnapshot → α) (old : ℕ → α) :
    placed (h + 1) nodes f (update old h (f ns)) = placed h (ns :: nodes) f old := by
  funext i
  unfold placed
  rcases lt_trichotomy i h with hlt | rfl | hgt
  · rw [if_neg (by omega), if_neg (by omega), update_of_ne (by omega)]
  · rw [if_neg (by omega), if_pos le_rfl, update_self]
    simp
  rw [if_pos (by omega), if_pos (by omega), update_of_ne (by omega)]
  obtain ⟨k, rfl⟩ : ∃ k, i = h + 1 + k := ⟨i - (h + 1), by omega⟩
  rw [show h + 1 + k - h = k + 1 by omega, show h + 1 + k - (h + 1) = k by omega]
  simp

/-- The index with the listed nodes entered from slot `h` on. -/
def indexAll : ℕ → List NodeSnapshot → GoMap NodeID ℕ → GoMap NodeID ℕ
  | _, [], index => index
  | h, ns :: nodes, index => indexAll (h + 1) nodes (index.insert ns.rec_.id h)

theorem indexAll_lookup_of_notMem {index : GoMap NodeID ℕ}
    {id : NodeID} (hid : id ∉ nodes.map fun ns => ns.rec_.id) :
    (indexAll h nodes index).lookup id = index.lookup id := by
  induction nodes generalizing h index with
  | nil => rfl
  | cons ns nodes ih =>
    rw [List.map_cons, List.mem_cons, not_or] at hid
    rw [indexAll, ih hid.2, AList.lookup_insert_ne hid.1]

theorem indexAll_lookup (h : ℕ) (index : GoMap NodeID ℕ)
    (hnd : (nodes.map fun ns => ns.rec_.id).Nodup) {ns : NodeSnapshot}
    (hi : nodes[i]? = some ns) : (indexAll h nodes index).lookup ns.rec_.id = some (h + i) := by
  induction nodes generalizing h index i with
  | nil => simp at hi
  | cons n nodes ih =>
    rw [List.map_cons, List.nodup_cons] at hnd
    rw [indexAll]
    cases i with
    | zero =>
      rw [List.getElem?_cons_zero, Option.some.injEq] at hi
      subst hi
      rw [indexAll_lookup_of_notMem hnd.1, AList.lookup_insert, Nat.add_zero]
    | succ i =>
      rw [ih _ _ hnd.2 hi]
      congr 1
      omega

/-- The first loop, on a snapshot without repetitions. -/
theorem restoreNodes_eq
    (hnd : (nodes.map fun ns => ns.rec_.id).Nodup)
    (hnew : ∀ ns ∈ nodes, s.lookup ns.rec_.id = none) :
    restoreNodes h nodes s = .ok
      { s with
        index := indexAll h nodes s.index
        size := s.size + nodes.length
        recs := placed h nodes (fun ns => { ns.rec_ with alive := true }) s.recs
        ord := placed h nodes NodeSnapshot.ord s.ord
        deadline := placed h nodes NodeSnapshot.deadline s.deadline
        readyAt := placed h nodes NodeSnapshot.readyAt s.readyAt
        fifo := placed h nodes NodeSnapshot.fifo s.fifo } := by
  induction nodes generalizing h s with
  | nil => simp [restoreNodes, indexAll, placed_nil]
  | cons ns nodes ih =>
    rw [List.map_cons, List.nodup_cons] at hnd
    have hns := hnew ns (.head _)
    rw [restoreNodes, hns, ih hnd.2]
    · simp only [← placed_cons, indexAll, List.length_cons]
      simp [Nat.add_comm, Nat.add_left_comm]
    intro n hn
    have hne : n.rec_.id ≠ ns.rec_.id := fun heq =>
      hnd.1 (List.mem_map.mpr ⟨n, hn, heq⟩)
    have := hnew n (.tail _ hn)
    rw [lookup, AList.lookup_insert_ne hne]
    exact this

/-- The handle of an identifier that is known to resolve. -/
def handleOf (s : Scope) (id : NodeID) : ℕ := (s.lookup id).getD 0

theorem resolve_ok {id other : NodeID} {direction : String}
    (hl : (s.lookup other).isSome = true) :
    s.resolve id other direction = .ok (s.handleOf other) := by
  obtain ⟨h, hh⟩ := Option.isSome_iff_exists.mp hl
  simp [resolve, handleOf, hh]

theorem mapM_ok {β : Type} {f : α → Except Err β} {g : α → β} {l : List α}
    (h : ∀ a ∈ l, f a = .ok (g a)) : l.mapM f = .ok (l.map g) := by
  induction l with
  | nil => rfl
  | cons a l ih =>
    rw [List.mapM_cons, h a (.head _), ih fun b hb => h b (.tail _ hb)]
    rfl

/-- The second loop, on a snapshot whose edges all resolve. -/
theorem restoreEdges_eq
    (hsucc : ∀ ns ∈ nodes, ∀ id ∈ ns.succ, (s.lookup id).isSome = true)
    (hpred : ∀ ns ∈ nodes, ∀ p ∈ ns.pred, (s.lookup p.source).isSome = true) :
    restoreEdges h nodes s = .ok
      { s with
        succ := placed h nodes (fun ns => ns.succ.map s.handleOf) s.succ
        pred := placed h nodes (fun ns => ns.pred.map fun p =>
          { source := s.handleOf p.source, satisfied := p.satisfied }) s.pred } := by
  induction nodes generalizing h s with
  | nil => simp [restoreEdges, placed_nil]
  | cons ns nodes ih =>
    rw [restoreEdges, mapM_ok (g := s.handleOf) fun id hid =>
      resolve_ok (hsucc ns (.head _) id hid)]
    have hp : ∀ p ∈ ns.pred, (do
        let u ← s.resolve ns.rec_.id p.source "from"
        pure ({ source := u, satisfied := p.satisfied } : PredEdge)) =
          .ok { source := s.handleOf p.source, satisfied := p.satisfied } := by
      intro p hmem
      rw [resolve_ok (hpred ns (.head _) p hmem)]
      rfl
    have hrest := ih (h := h + 1)
      (s := (s.setSucc h (ns.succ.map s.handleOf)).setPred h (ns.pred.map fun p =>
        { source := s.handleOf p.source, satisfied := p.satisfied }))
      (fun n hn => hsucc n (.tail _ hn))
      (fun n hn => hpred n (.tail _ hn))
    simp only [bind, Except.bind] at hp ⊢
    rw [mapM_ok hp]
    simp only [hrest, ← placed_cons]
    rfl

/-- The third loop touches the heaps only. -/
theorem restoreIndex_eq (s : Scope) (h : ℕ) : ∃ ready leases scheduled,
    s.restoreIndex h = { s with ready := ready, leases := leases, scheduled := scheduled } := by
  unfold restoreIndex
  split
  · exact ⟨_, s.leases, s.scheduled, rfl⟩
  · exact ⟨s.ready, _, s.scheduled, rfl⟩
  · exact ⟨s.ready, s.leases, _, rfl⟩
  · exact ⟨s.ready, s.leases, s.scheduled, rfl⟩
  · exact ⟨s.ready, s.leases, s.scheduled, rfl⟩

theorem restoreIndexes_eq (s : Scope) : ∃ ready leases scheduled,
    restoreIndexes n s = { s with ready := ready, leases := leases, scheduled := scheduled } := by
  induction n with
  | zero => exact ⟨s.ready, s.leases, s.scheduled, rfl⟩
  | succ n ih =>
    obtain ⟨ready, leases, scheduled, heq⟩ := ih
    obtain ⟨ready', leases', scheduled', heq'⟩ := restoreIndex_eq (restoreIndexes n s) n
    refine ⟨ready', leases', scheduled', ?_⟩
    rw [restoreIndexes, List.range_succ, List.foldl_append, List.foldl_cons, List.foldl_nil]
    rw [restoreIndexes] at heq heq'
    rw [heq', heq]

theorem restoreIndexes_recs (s : Scope) : (restoreIndexes n s).recs = s.recs := by
  obtain ⟨_, _, _, heq⟩ := restoreIndexes_eq n s
  rw [heq]

/-- The slots below `n` that satisfy `q`. -/
def below (n : ℕ) (q : ℕ → Bool) : ℕ → Bool := fun k => decide (k < n) && q k

theorem below_succ (k : ℕ) : below (n + 1) q k = if k = n then q n else below n q k := by
  by_cases hk : k = n
  · simp [below, hk]
  · have : (k < n + 1) ↔ k < n := by omega
    simp [below, hk, this]

theorem below_self : below n q n = false := by simp [below]

theorem below_succ_of_false {n : ℕ} {q : ℕ → Bool} (hq : q n = false) :
    ∀ k, below (n + 1) q k = below n q k := by
  intro k
  rw [below_succ]
  split
  · rename_i hk
    rw [hk, below_self, hq]
  · rfl

theorem below_succ_of_true {n : ℕ} {q : ℕ → Bool} (hq : q n = true) :
    ∀ k, below (n + 1) q k = (decide (k = n) || below n q k) := by
  intro k
  rw [below_succ]
  split
  · rename_i hk
    simp [hk, hq]
  · rename_i hk
    simp [hk]

/-- The heaps hold the nodes of their phase among the first `n`. -/
theorem restoreIndexes_queues
    (hq : s.Queues (fun _ => false) (fun _ => false) (fun _ _ => false)) (n : ℕ) :
    (restoreIndexes n s).Queues (below n fun k => decide ((s.recs k).phase = .claimed))
      (below n fun k => decide ((s.recs k).phase = .scheduled))
      (fun kind => below n fun k =>
        decide ((s.recs k).phase = .ready) && decide ((s.recs k).kind = kind)) := by
  induction n with
  | zero => exact hq.congr (by simp [below]) (by simp [below]) (by simp [below])
  | succ n ih =>
    have hrecs := restoreIndexes_recs n s
    rw [restoreIndexes, List.range_succ, List.foldl_append, List.foldl_cons, List.foldl_nil]
    rw [restoreIndexes] at ih hrecs
    generalize (List.range n).foldl restoreIndex s = s₁ at ih hrecs
    unfold restoreIndex
    rw [hrecs]
    cases hp : (s.recs n).phase with
    | ready =>
      refine (ih.pushReady _ n).congr (below_succ_of_false (by simp [hp]))
        (below_succ_of_false (by simp [hp])) fun kind k => ?_
      by_cases hk : kind = (s.recs n).kind
      · rw [below_succ_of_true (by simp [hp, hk])]
        simp [withReady, hk]
      · rw [below_succ_of_false (by simp [hp, Ne.symm hk])]
        simp [withReady, hk]
    | claimed =>
      exact (ih.pushLease n).congr (below_succ_of_true (by simp [hp]))
        (below_succ_of_false (by simp [hp])) fun kind => below_succ_of_false (by simp [hp])
    | scheduled =>
      exact (ih.pushScheduled n).congr (below_succ_of_false (by simp [hp]))
        (below_succ_of_true (by simp [hp])) fun kind => below_succ_of_false (by simp [hp])
    | blocked | done =>
      exact ih.congr (below_succ_of_false (by simp [hp]))
        (below_succ_of_false (by simp [hp])) fun kind => below_succ_of_false (by simp [hp])

/-! ## Copies -/

/-- The old handle of the node that got handle `i`. -/
def old (hs : List ℕ) (i : ℕ) : ℕ := hs.getD i 0

/-- `s'` is `s` with the nodes `hs` renamed to their positions in the list. -/
structure Copies (hs : List ℕ) (s s' : Scope) : Prop where
  nodup : hs.Nodup
  mem : ∀ h, h ∈ hs ↔ s.Alive h
  name : s'.name = s.name
  cfg : s'.cfg = s.cfg
  isSealed : s'.isSealed = s.isSealed
  size : s'.size = hs.length
  free : s'.free = []
  nextOrd : s'.nextOrd = s.nextOrd
  nextFifo : s'.nextFifo = s.nextFifo
  epochFloor : s'.epochFloor = s.epochFloor
  stats : s'.stats = s.stats
  cursor : s'.cursor = s.cursor
  suppressed : s'.suppressed = 0
  lookup : ∀ id i, s'.lookup id = some i ↔ i < hs.length ∧ s.lookup id = some (old hs i)
  recs : ∀ i < hs.length, s'.recs i = s.recs (old hs i)
  ord : ∀ i < hs.length, s'.ord i = s.ord (old hs i)
  deadline : ∀ i < hs.length, s'.deadline i = s.deadline (old hs i)
  readyAt : ∀ i < hs.length, s'.readyAt i = s.readyAt (old hs i)
  fifo : ∀ i < hs.length, s'.fifo i = s.fifo (old hs i)
  succ : ∀ i < hs.length, (s'.succ i).map (old hs) = s.succ (old hs i) ∧
    ∀ w ∈ s'.succ i, w < hs.length
  pred : ∀ i < hs.length,
    ((s'.pred i).map fun e => { e with source := old hs e.source }) = s.pred (old hs i) ∧
      ∀ e ∈ s'.pred i, e.source < hs.length
  dead : ∀ i, hs.length ≤ i → s'.recs i = {} ∧ s'.succ i = [] ∧ s'.pred i = []
  queued : s'.Queued

/-! ## A restored scope is a copy -/

section Restore

variable {s : Scope}

theorem placed_of_lt (hi : i < hs.length)
    (g : ℕ → NodeSnapshot) (f : NodeSnapshot → α) (d : ℕ → α) :
    placed 0 (hs.map g) f d i = f (g (old hs i)) := by
  simp [placed, old, hi]

theorem placed_of_le (hi : hs.length ≤ i)
    (g : ℕ → NodeSnapshot) (f : NodeSnapshot → α) (d : ℕ → α) :
    placed 0 (hs.map g) f d i = d i := by
  simp [placed, hi]

/-- The nodes of a scope in the order of its snapshot. -/
def sortedHandles (s : Scope) : List ℕ :=
  s.aliveHandles.insertionSort fun a b => (s.recs a).id ≤ (s.recs b).id

theorem snapshotScope_nodes (s : Scope) :
    s.snapshotScope.nodes = s.sortedHandles.map s.snapshotNode :=
  (List.map_insertionSort _ _ s.snapshotNode s.aliveHandles fun _ _ _ _ => Iff.rfl).symm

theorem mem_sortedHandles (hi : s.Inv) (h : ℕ) : h ∈ s.sortedHandles ↔ s.Alive h := by
  rw [sortedHandles, (List.perm_insertionSort _ _).mem_iff]
  simp only [aliveHandles, List.mem_filter, List.mem_range]
  exact ⟨And.right, fun hh => ⟨hi.indexed.lt_size h hh, hh⟩⟩

theorem sortedHandles_nodup (s : Scope) : s.sortedHandles.Nodup :=
  (List.perm_insertionSort _ _).nodup_iff.mpr (List.nodup_range.filter _)

theorem old_eq (hi : i < hs.length) : old hs i = hs[i] := by
  simp [old, hi]

theorem old_mem (hi : i < hs.length) : old hs i ∈ hs := by
  rw [old_eq hi]
  exact List.getElem_mem hi

theorem old_inj (hnd : hs.Nodup) {j : ℕ} (hi : i < hs.length)
    (hj : j < hs.length) (heq : old hs i = old hs j) : i = j := by
  rw [old_eq hi, old_eq hj] at heq
  exact (hnd.getElem_inj_iff).mp heq

theorem exists_old (hh : h ∈ hs) : ∃ i, i < hs.length ∧ old hs i = h := by
  obtain ⟨i, hi, heq⟩ := List.mem_iff_getElem.mp hh
  exact ⟨i, hi, by rw [old_eq hi, heq]⟩

variable (hi : s.Inv)
include hi

theorem sortedIds_nodup :
    ((s.sortedHandles.map s.snapshotNode).map fun ns => ns.rec_.id).Nodup := by
  rw [List.map_map]
  refine List.Nodup.map_on (fun a ha b hb heq => ?_) s.sortedHandles_nodup
  exact hi.indexed.id_inj ((mem_sortedHandles hi a).mp ha) ((mem_sortedHandles hi b).mp hb) heq

theorem indexAll_lookup_iff (id : NodeID) (i : ℕ) :
    (indexAll 0 (s.sortedHandles.map s.snapshotNode) ∅).lookup id = some i ↔
      i < s.sortedHandles.length ∧ s.lookup id = some (old s.sortedHandles i) := by
  have hget : ∀ j, j < s.sortedHandles.length → (s.sortedHandles.map s.snapshotNode)[j]? =
      some (s.snapshotNode (old s.sortedHandles j)) := by
    intro j hj
    simp [old, hj]
  have hfound : ∀ j, j < s.sortedHandles.length →
      (indexAll 0 (s.sortedHandles.map s.snapshotNode) ∅).lookup
        (s.recs (old s.sortedHandles j)).id = some j := by
    intro j hj
    have := indexAll_lookup 0 ∅ (sortedIds_nodup hi) (hget j hj)
    rwa [Nat.zero_add] at this
  constructor
  · intro hl
    by_cases hid : id ∈ (s.sortedHandles.map s.snapshotNode).map fun ns => ns.rec_.id
    · simp only [List.map_map, List.mem_map, Function.comp] at hid
      obtain ⟨h, hh, rfl⟩ := hid
      obtain ⟨j, hj, rfl⟩ := exists_old hh
      have hij := hl.symm.trans (hfound j hj)
      obtain rfl := Option.some.inj hij
      exact ⟨hj, hi.indexed.lookup_id ((mem_sortedHandles hi _).mp (old_mem hj))⟩
    · rw [indexAll_lookup_of_notMem hid, AList.lookup_empty] at hl
      cases hl
  · rintro ⟨hlt, hl⟩
    rw [← hi.indexed.id_of_lookup hl]
    exact hfound i hlt

/-- Every live identifier resolves, to the position of its node. -/
theorem indexAll_resolves (hh : s.Alive h) :
    ∃ i < s.sortedHandles.length, old s.sortedHandles i = h ∧
      (indexAll 0 (s.sortedHandles.map s.snapshotNode) ∅).lookup (s.recs h).id = some i := by
  obtain ⟨i, hlt, hold⟩ := exists_old ((mem_sortedHandles hi h).mpr hh)
  refine ⟨i, hlt, hold, (indexAll_lookup_iff hi _ i).mpr ⟨hlt, ?_⟩⟩
  rw [hold]
  exact hi.indexed.lookup_id hh

omit hi in
/-- A restored scope before its heaps are filled. -/
def unindexed (s : Scope) (logCap : ℕ) : Scope :=
  let nodes := s.sortedHandles.map s.snapshotNode
  let index := indexAll 0 nodes ∅
  { name := s.name
    cfg := s.cfg
    isSealed := s.isSealed
    index := index
    size := nodes.length
    recs := placed 0 nodes (fun ns => { ns.rec_ with alive := true }) fun _ => {}
    succ := placed 0 nodes (fun ns => ns.succ.map fun id => (index.lookup id).getD 0) fun _ => []
    pred := placed 0 nodes (fun ns => ns.pred.map fun p =>
      { source := (index.lookup p.source).getD 0, satisfied := p.satisfied }) fun _ => []
    ord := placed 0 nodes NodeSnapshot.ord fun _ => 0
    deadline := placed 0 nodes NodeSnapshot.deadline fun _ => 0
    readyAt := placed 0 nodes NodeSnapshot.readyAt fun _ => 0
    fifo := placed 0 nodes NodeSnapshot.fifo fun _ => 0
    nextOrd := s.nextOrd
    nextFifo := s.nextFifo
    epochFloor := s.epochFloor
    stats := s.stats
    cursor := s.cursor
    logStart := s.cursor + 1
    logCap := logCap }

/-- `Restore` of a scope's own snapshot succeeds. -/
theorem restoreScope_eq (logCap : ℕ) :
    restoreScope s.snapshotScope logCap =
      .ok (restoreIndexes s.sortedHandles.length (s.unindexed logCap)) := by
  have hsome : ∀ h, s.Alive h →
      ((indexAll 0 (s.sortedHandles.map s.snapshotNode) ∅).lookup (s.recs h).id).isSome =
        true := by
    intro h hh
    obtain ⟨i, -, -, hl⟩ := indexAll_resolves hi hh
    rw [hl]
    rfl
  unfold restoreScope
  rw [snapshotScope_nodes]
  simp only
  rw [restoreNodes_eq (sortedIds_nodup hi) (fun ns _ => rfl)]
  simp only [bind, Except.bind]
  rw [restoreEdges_eq]
  · rw [List.length_map]
    simp only [unindexed, handleOf, lookup, List.length_map, newScope]
    rw [show (0 : ℕ) + s.sortedHandles.length = s.sortedHandles.length from Nat.zero_add _]
    rfl
  · intro ns hns id hid
    obtain ⟨h, hh, rfl⟩ := List.mem_map.mp hns
    obtain ⟨w, hw, rfl⟩ := List.mem_map.mp hid
    exact hsome w (hi.mirrored.alive_target hw)
  · intro ns hns p hp
    obtain ⟨h, hh, rfl⟩ := List.mem_map.mp hns
    obtain ⟨e, he, rfl⟩ := List.mem_map.mp hp
    exact hsome e.source (hi.mirrored.alive_source (List.mem_map_of_mem he))

omit hi in
theorem unindexed_recs (logCap : ℕ) :
    (s.unindexed logCap).recs = placed 0 (s.sortedHandles.map s.snapshotNode)
      (fun ns => { ns.rec_ with alive := true }) fun _ => {} := rfl

theorem unindexed_recs_of_lt (logCap : ℕ) (hlt : i < s.sortedHandles.length) :
    (s.unindexed logCap).recs i = s.recs (old s.sortedHandles i) := by
  have hlive : (s.recs (old s.sortedHandles i)).alive = true :=
    (mem_sortedHandles hi _).mp (old_mem hlt)
  rw [unindexed_recs, placed_of_lt hlt, snapshotNode, ← hlive]

omit hi in
theorem unindexed_recs_of_le (logCap : ℕ) (hle : s.sortedHandles.length ≤ i) :
    (s.unindexed logCap).recs i = {} := by
  rw [unindexed_recs, placed_of_le hle]

theorem restored_queued (logCap : ℕ) :
    (restoreIndexes s.sortedHandles.length (s.unindexed logCap)).Queued := by
  have hqueues := restoreIndexes_queues (s := s.unindexed logCap)
    ⟨PQ.Heap.Holds.empty, PQ.Heap.Holds.empty, fun _ => PQ.Heap.Holds.empty⟩
    s.sortedHandles.length
  have hrecs := restoreIndexes_recs s.sortedHandles.length (s.unindexed logCap)
  -- the live slots are those below the length of the list
  have hlive : ∀ k, ((s.unindexed logCap).recs k).alive =
      decide (k < s.sortedHandles.length) := by
    intro k
    by_cases hlt : k < s.sortedHandles.length
    · rw [unindexed_recs_of_lt hi logCap hlt, decide_eq_true hlt]
      exact (mem_sortedHandles hi _).mp (old_mem hlt)
    · rw [unindexed_recs_of_le logCap (not_lt.mp hlt), decide_eq_false hlt]
  refine hqueues.congr (fun k => ?_) (fun k => ?_) fun kind k => ?_
  · simp only [inPhase, below, hrecs, hlive]
  · simp only [inPhase, below, hrecs, hlive]
  · simp only [readyOf, inPhase, below, hrecs, hlive, Bool.and_assoc]

/-- The scope `Restore` builds is a copy. -/
theorem restored_copies (logCap : ℕ) :
    Copies s.sortedHandles s (restoreIndexes s.sortedHandles.length (s.unindexed logCap)) := by
  have hqueued := restored_queued hi logCap
  obtain ⟨ready, leases, scheduled, heq⟩ :=
    restoreIndexes_eq s.sortedHandles.length (s.unindexed logCap)
  rw [heq] at hqueued ⊢
  -- the position of a live node, as an edge finds it
  have hpos : ∀ w, s.Alive w →
      old s.sortedHandles (((s.unindexed logCap).index.lookup (s.recs w).id).getD 0) = w ∧
        ((s.unindexed logCap).index.lookup (s.recs w).id).getD 0 < s.sortedHandles.length := by
    intro w hw
    obtain ⟨j, hlt, hold, hl⟩ := indexAll_resolves hi hw
    rw [show (s.unindexed logCap).index.lookup (s.recs w).id = some j from hl]
    exact ⟨hold, hlt⟩
  have hsrc : ∀ i, i < s.sortedHandles.length → ∀ e ∈ s.pred (old s.sortedHandles i),
      s.Alive e.source := fun i _ e he =>
    hi.mirrored.alive_source (List.mem_map_of_mem he)
  refine
    { nodup := s.sortedHandles_nodup
      mem := mem_sortedHandles hi
      name := rfl
      cfg := rfl
      isSealed := rfl
      size := List.length_map _
      free := rfl
      nextOrd := rfl
      nextFifo := rfl
      epochFloor := rfl
      stats := rfl
      cursor := rfl
      suppressed := rfl
      lookup := indexAll_lookup_iff hi
      recs := fun i hlt => unindexed_recs_of_lt hi logCap hlt
      ord := fun i hlt => placed_of_lt hlt s.snapshotNode NodeSnapshot.ord fun _ => 0
      deadline := fun i hlt => placed_of_lt hlt s.snapshotNode NodeSnapshot.deadline fun _ => 0
      readyAt := fun i hlt => placed_of_lt hlt s.snapshotNode NodeSnapshot.readyAt fun _ => 0
      fifo := fun i hlt => placed_of_lt hlt s.snapshotNode NodeSnapshot.fifo fun _ => 0
      succ := fun i hlt => ?_
      pred := fun i hlt => ?_
      dead := fun i hle => ⟨unindexed_recs_of_le logCap hle, ?_, ?_⟩
      queued := hqueued }
  · have hsucc : (s.unindexed logCap).succ i = (s.succ (old s.sortedHandles i)).map fun w =>
        ((s.unindexed logCap).index.lookup (s.recs w).id).getD 0 := by
      rw [show (s.unindexed logCap).succ i = placed 0 (s.sortedHandles.map s.snapshotNode)
        (fun ns => ns.succ.map fun id => ((s.unindexed logCap).index.lookup id).getD 0)
        (fun _ => []) i from rfl, placed_of_lt hlt, snapshotNode, List.map_map]
      rfl
    simp only [hsucc]
    constructor
    · rw [List.map_map]
      refine (List.map_congr_left fun w hw => ?_).trans (List.map_id _)
      exact (hpos w (hi.mirrored.alive_target hw)).1
    · intro w' hw'
      obtain ⟨w, hw, rfl⟩ := List.mem_map.mp hw'
      exact (hpos w (hi.mirrored.alive_target hw)).2
  · have hpred : (s.unindexed logCap).pred i = (s.pred (old s.sortedHandles i)).map fun e =>
        { source := ((s.unindexed logCap).index.lookup (s.recs e.source).id).getD 0
          satisfied := e.satisfied } := by
      rw [show (s.unindexed logCap).pred i = placed 0 (s.sortedHandles.map s.snapshotNode)
        (fun ns => ns.pred.map fun p =>
          { source := ((s.unindexed logCap).index.lookup p.source).getD 0
            satisfied := p.satisfied }) (fun _ => []) i from rfl,
        placed_of_lt hlt, snapshotNode, List.map_map]
      rfl
    simp only [hpred]
    constructor
    · rw [List.map_map]
      refine (List.map_congr_left fun e he => ?_).trans (List.map_id _)
      simp only [Function.comp, (hpos e.source (hsrc i hlt e he)).1, id]
    · intro e' he'
      obtain ⟨e, he, rfl⟩ := List.mem_map.mp he'
      exact (hpos e.source (hsrc i hlt e he)).2
  · exact placed_of_le hle s.snapshotNode
      (fun ns => ns.succ.map fun id => ((s.unindexed logCap).index.lookup id).getD 0) fun _ => []
  · exact placed_of_le hle s.snapshotNode (fun ns => ns.pred.map fun p =>
      PredEdge.mk (((s.unindexed logCap).index.lookup p.source).getD 0) p.satisfied) fun _ => []

end Restore

/-! ## What carries over -/

namespace Copies

variable {hs : List ℕ} {s s' : Scope} (hc : Copies hs s s')
include hc

theorem alive_iff (i : ℕ) : s'.Alive i ↔ i < hs.length := by
  by_cases hlt : i < hs.length
  · simp only [Alive, hc.recs i hlt, hlt, iff_true]
    exact (hc.mem _).mp (old_mem hlt)
  · simp [Alive, (hc.dead i (not_lt.mp hlt)).1, hlt]

theorem old_alive (hlt : i < hs.length) : s.Alive (old hs i) :=
  (hc.mem _).mp (old_mem hlt)

/-- A property of records holds of every slot of the copy if it holds of every
slot of the original and of an empty one. -/
theorem rec_induction {p : NodeRec → Prop} (hp : ∀ h, p (s.recs h)) (hempty : p {}) (i : ℕ) :
    p (s'.recs i) := by
  by_cases hlt : i < hs.length
  · rw [hc.recs i hlt]
    exact hp _
  · rw [(hc.dead i (not_lt.mp hlt)).1]
    exact hempty

theorem mem_succ_iff (u v : ℕ) : v ∈ s'.succ u ↔
    u < hs.length ∧ v < hs.length ∧ old hs v ∈ s.succ (old hs u) := by
  by_cases hu : u < hs.length
  · obtain ⟨hmap, hlt⟩ := hc.succ u hu
    rw [← hmap, List.mem_map]
    constructor
    · exact fun hv => ⟨hu, hlt v hv, v, hv, rfl⟩
    · rintro ⟨-, hv, w, hw, heq⟩
      rwa [← old_inj hc.nodup (hlt w hw) hv heq]
  · simp [(hc.dead u (not_lt.mp hu)).2.1, hu]

theorem sources_map {v : ℕ} (hv : v < hs.length) :
    (s'.sources v).map (old hs) = s.sources (old hs v) := by
  rw [sources, sources, ← (hc.pred v hv).1, List.map_map, List.map_map]
  rfl

theorem mem_sources_iff (u v : ℕ) : u ∈ s'.sources v ↔
    u < hs.length ∧ v < hs.length ∧ old hs u ∈ s.sources (old hs v) := by
  by_cases hv : v < hs.length
  · have hlt : ∀ w ∈ s'.sources v, w < hs.length := by
      intro w hw
      obtain ⟨e, he, rfl⟩ := List.mem_map.mp hw
      exact (hc.pred v hv).2 e he
    rw [← hc.sources_map hv, List.mem_map]
    constructor
    · exact fun hu => ⟨hlt u hu, hv, u, hu, rfl⟩
    · rintro ⟨hu, -, w, hw, heq⟩
      rwa [← old_inj hc.nodup (hlt w hw) hu heq]
  · simp [sources, (hc.dead v (not_lt.mp hv)).2.2, hv]

theorem indexed (hi : s.Indexed) : s'.Indexed where
  lookup_iff := by
    intro id i
    rw [hc.lookup, hc.alive_iff]
    refine and_congr_right fun hlt => ?_
    rw [hi.lookup_iff, hc.recs i hlt]
    exact and_iff_right (hc.old_alive hlt)
  free_nodup := by
    rw [hc.free]
    exact List.nodup_nil
  mem_free := by
    intro i
    rw [hc.free, hc.size, hc.alive_iff]
    simp
  lt_size := by
    intro i hh
    rw [hc.size]
    exact (hc.alive_iff i).mp hh
  dead := by
    intro i hh
    rw [hc.alive_iff] at hh
    exact (hc.dead i (not_lt.mp hh)).1

theorem mirrored (hm : s.Mirrored) : s'.Mirrored where
  dead_succ := fun i hh => (hc.dead i (not_lt.mp fun hlt => hh ((hc.alive_iff i).mpr hlt))).2.1
  dead_pred := fun i hh => (hc.dead i (not_lt.mp fun hlt => hh ((hc.alive_iff i).mpr hlt))).2.2
  succ_nodup := by
    intro i
    by_cases hlt : i < hs.length
    · refine List.Nodup.of_map (old hs) ?_
      rw [(hc.succ i hlt).1]
      exact hm.succ_nodup _
    · rw [(hc.dead i (not_lt.mp hlt)).2.1]
      exact List.nodup_nil
  sources_nodup := by
    intro i
    by_cases hlt : i < hs.length
    · refine List.Nodup.of_map (old hs) ?_
      rw [hc.sources_map hlt]
      exact hm.sources_nodup _
    · rw [sources, (hc.dead i (not_lt.mp hlt)).2.2]
      exact List.nodup_nil
  mem_succ := by
    intro u v
    rw [hc.mem_succ_iff, hc.mem_sources_iff, hm.mem_succ]

/-- An edge of the copy and the edge it was made from. -/
theorem edge {v : ℕ} {e : PredEdge} (he : e ∈ s'.pred v) :
    ∃ e₀ ∈ s.pred (old hs v), v < hs.length ∧ e₀.satisfied = e.satisfied ∧
      s'.recs e.source = s.recs e₀.source := by
  have hv : v < hs.length := by
    by_contra hv
    rw [(hc.dead v (not_lt.mp hv)).2.2] at he
    cases he
  obtain ⟨hmap, hlt⟩ := hc.pred v hv
  refine ⟨{ e with source := old hs e.source }, ?_, hv, rfl, hc.recs _ (hlt e he)⟩
  rw [← hmap]
  exact List.mem_map_of_mem he

theorem tallied (ht : s.Tallied) : s'.Tallied where
  satisfied_done := by
    intro v e he hsat
    obtain ⟨e₀, he₀, -, hsat₀, hrec⟩ := hc.edge he
    rw [hrec]
    exact ht.satisfied_done _ e₀ he₀ (hsat₀.trans hsat)
  count_eq := by
    intro v o
    by_cases hlt : v < hs.length
    · rw [hc.recs v hlt, ht.count_eq, tally, tally, ← (hc.pred v hlt).1, List.countP_map]
      refine List.countP_congr fun e he => ?_
      simp only [Function.comp, hc.recs e.source ((hc.pred v hlt).2 e he)]
    · rw [tally, (hc.dead v (not_lt.mp hlt)).1, (hc.dead v (not_lt.mp hlt)).2.2]
      cases o <;> rfl
  suppressed_eq := hc.suppressed

theorem ranked (hr : s.Ranked) : s'.Ranked where
  inj := by
    intro u v hu hv heq
    have hu := (hc.alive_iff u).mp hu
    have hv := (hc.alive_iff v).mp hv
    rw [hc.ord u hu, hc.ord v hv] at heq
    exact old_inj hc.nodup hu hv (hr.inj _ _ (hc.old_alive hu) (hc.old_alive hv) heq)
  le := by
    intro u hu
    have hu := (hc.alive_iff u).mp hu
    rw [hc.ord u hu, hc.nextOrd]
    exact hr.le _ (hc.old_alive hu)
  edge := by
    intro u v huv
    obtain ⟨hu, hv, hmem⟩ := (hc.mem_succ_iff u v).mp huv
    rw [hc.ord u hu, hc.ord v hv]
    exact hr.edge _ _ hmem

theorem inPhase_iff (p : Phase) (i : ℕ) :
    s'.inPhase p i = true ↔ i < hs.length ∧ s.inPhase p (old hs i) = true := by
  by_cases hlt : i < hs.length
  · simp [inPhase, hc.recs i hlt, hlt]
  · simp [inPhase, (hc.dead i (not_lt.mp hlt)).1, hlt]

theorem lined (hl : s.Lined) : s'.Lined where
  inj := by
    intro u v hu hv heq
    obtain ⟨hu, hu'⟩ := (hc.inPhase_iff _ u).mp hu
    obtain ⟨hv, hv'⟩ := (hc.inPhase_iff _ v).mp hv
    rw [hc.fifo u hu, hc.fifo v hv] at heq
    exact old_inj hc.nodup hu hv (hl.inj _ _ hu' hv' heq)
  le := by
    intro u hu
    obtain ⟨hu, hu'⟩ := (hc.inPhase_iff _ u).mp hu
    rw [hc.fifo u hu, hc.nextFifo]
    exact hl.le _ hu'

theorem counted (hi : s.Indexed) (hn : s.Counted) : s'.Counted where
  counter_eq := by
    intro b
    rw [hc.stats, hn.counter_eq, hc.size]
    congr 1
    have hbucket : ∀ i < hs.length, s'.inBucket b i = s.inBucket b (old hs i) := by
      intro i hlt
      simp only [inBucket, hc.recs i hlt]
    refine (Count.slots_rename (f := old hs) (fun i hlt hq => ?_) ?_ ?_).symm
    · rw [hbucket i hlt] at hq
      exact ⟨hi.lt_size _ (hc.old_alive hlt), hq⟩
    · exact fun i hlt j hlt' heq => old_inj hc.nodup hlt hlt' heq
    intro h _ hp
    have hh : s.Alive h := by
      simp only [inBucket, Bool.and_eq_true] at hp
      exact hp.1
    obtain ⟨i, hlt, rfl⟩ := exists_old ((hc.mem h).mpr hh)
    exact ⟨i, hlt, (hbucket i hlt).trans hp, rfl⟩
  total_eq := by
    rw [hc.stats]
    exact hn.total_eq

theorem inv (hi : s.Inv) : s'.Inv where
  indexed := hc.indexed hi.indexed
  queued := hc.queued
  fitted := hc.rec_induction (p := fun r => fits r.phase r.status = true) hi.fitted rfl
  counted := hc.counted hi.indexed hi.counted
  mirrored := hc.mirrored hi.mirrored
  tallied := hc.tallied hi.tallied
  ranked := hc.ranked hi.ranked
  lined := hc.lined hi.lined
  known := hc.rec_induction (p := fun r => ∀ v, r.trigger ≠ .unknown v) hi.known (by simp)

theorem flagged (hf : s.Flagged) : s'.Flagged := by
  intro v e he hdone
  obtain ⟨e₀, he₀, -, hsat, hrec⟩ := hc.edge he
  rw [hrec] at hdone
  exact hsat.symm.trans (hf _ e₀ he₀ hdone)

theorem settled (hs₀ : s.SettledBut ∅) : s'.SettledBut ∅ := by
  intro v hv hblocked _
  have hlt := (hc.alive_iff v).mp hv
  rw [hc.recs v hlt] at hblocked ⊢
  exact hs₀ _ (hc.old_alive hlt) hblocked (Set.notMem_empty _)

theorem heldOK (hs₀ : s.HeldBut ∅) : s'.HeldBut ∅ := by
  intro v hv hheld _
  have hlt := (hc.alive_iff v).mp hv
  rw [hc.recs v hlt] at hheld ⊢
  exact hs₀ _ (hc.old_alive hlt) hheld fun _ => Set.notMem_empty _

end Copies

end DagWorker.Memory.Scope
