import DagWorker.Memory.Confluence
import DagWorker.Redis.Net

/-!
# One cascade in two stores

The in-memory store queues a reason with every entry; the Lua scripts list a set in any
order and have one reason per node in a table that is overwritten.  From one graph both
reach one graph.
-/

namespace DagWorker.Backends

open Function
open DagWorker.Graph (Cell Net)

/-- The two stores have the same messages. -/
theorem terminalMessage_eq : Redis.terminalMessage = Memory.Scope.terminalMessage := by
  funext reason
  cases reason <;> rfl

/-- A scope of the in-memory store whose lists are in order holds the graph. -/
structure HeldInMemory (s : Memory.Scope) (g : Net NodeID) : Prop where
  laid : s.Laid
  net : s.net = g

/-- The keys of a scope in Redis, with both sides of every edge, hold the graph. -/
structure HeldInRedis (t : Redis.State) (g : Net NodeID) : Prop where
  wired : t.Wired
  net : t.net = g

section Cascade

variable {g : Net NodeID} {id : NodeID} {c : Cell} {s : Memory.Scope} {t : Redis.State} {h : ℕ}

/-- Both `terminate` functions reach the same graph. -/
theorem terminate_same (hg : g.Tallied) (hc : g.cell id = some c) (hcalm : g.Calm id)
    (hs : HeldInMemory s g) (ht : HeldInRedis t g) (hh : s.lookup id = some h)
    (status : Status) (reason : Reason) (msg : String) (nowMs : Int) (out : List Effect) :
    (s.terminate h status reason msg out).All fun r =>
      (t.terminate id status reason msg nowMs).All fun t' =>
        ∃ g', HeldInMemory r.1 g' ∧ HeldInRedis t' g' := by
  obtain ⟨hlaid, rfl⟩ := hs
  have hid := hlaid.indexed.id_of_lookup hh
  refine (Memory.Scope.terminate_net hlaid (hlaid.indexed.alive_of_lookup hh)).mono ?_
  rintro r ⟨hk, hd⟩
  refine (Redis.State.terminate_net ht.wired id status reason msg nowMs).mono ?_
  rintro t' ⟨hwired, hd'⟩
  rw [hid] at hd
  rw [ht.net, terminalMessage_eq] at hd'
  refine ⟨r.1.net, ⟨hk.laid, rfl⟩, hwired, ?_⟩
  by_cases hdone : c.phase = .done
  · rw [hd.of_done hc hdone, hd'.of_done hc hdone]
  · exact hd'.unique hg hcalm hc hdone hd

theorem settle_same (hg : g.Tallied) (hc : g.cell id = some c) (hcalm : g.Calm id)
    (hs : HeldInMemory s g) (ht : HeldInRedis t g) (hh : s.lookup id = some h) (nowMs : Int)
    (out : List Effect) :
    (s.settle h out).All fun r =>
      (t.settle id nowMs).All fun t' =>
        ∃ g', HeldInMemory r.1 g' ∧ HeldInRedis t' g' := by
  obtain ⟨hlaid, rfl⟩ := hs
  have hid := hlaid.indexed.id_of_lookup hh
  obtain ⟨n, hn⟩ : ∃ n, t.node id = some n := by
    rw [← ht.net] at hc
    obtain ⟨n, hn, -⟩ := Option.map_eq_some_iff.mp hc
    exact ⟨n, hn⟩
  refine (Memory.Scope.settle_net hlaid (hlaid.indexed.alive_of_lookup hh)).mono ?_
  rintro r ⟨hk, hd⟩
  refine (Redis.State.settle_net ht.wired hn nowMs).mono ?_
  rintro t' ⟨hwired, hd'⟩
  rw [hid] at hd
  rw [ht.net, terminalMessage_eq] at hd'
  exact ⟨r.1.net, ⟨hk.laid, rfl⟩, hwired, hd'.unique hg hcalm hd⟩

end Cascade

/-! ## A fork in both stores -/

/-- The hash of a node without options. -/
def plain (id : NodeID) (phase : Phase) (deps : DepCounts) : Redis.NodeHash :=
  { id := id, kind := "", phase := phase, priority := 0, trigger := .allSuccess,
    retryMaxAttempts := 0, retryBaseMs := 0, retryMaxMs := 0, epoch := 0, createdAt := 0,
    updatedAt := 0, ord := 0, deps := deps }

def forkKeys : Redis.State :=
  { nodes := ((∅ : GoMap NodeID Redis.NodeHash).insert "a" (plain "a" .ready {})).insert "b"
      (plain "b" .blocked { unsatisfied := 1 }) |>.insert "c"
      (plain "c" .blocked { unsatisfied := 1 })
    succ := fun u => if u = "a" then ["c", "b"] else []
    pred := fun w => if w = "b" ∨ w = "c" then (∅ : GoMap NodeID Bool).insert "a" false else ∅
    stats := { total := 3, blocked := 2, ready := 1 } }

theorem forkKeys_node (id : NodeID) :
    forkKeys.node id =
      if id = "c" then some (plain "c" .blocked { unsatisfied := 1 })
      else if id = "b" then some (plain "b" .blocked { unsatisfied := 1 })
      else if id = "a" then some (plain "a" .ready {}) else none := by
  by_cases hc : id = "c"
  · subst hc
    rfl
  by_cases hb : id = "b"
  · subst hb
    rfl
  by_cases ha : id = "a"
  · subst ha
    rfl
  · simp [Redis.State.node, forkKeys, AList.lookup_insert_ne, ha, hb, hc,
      -AList.insert_empty]

theorem forkKeys_edge (u w : NodeID) :
    (forkKeys.pred w).lookup u =
      if u = "a" ∧ (w = "b" ∨ w = "c") then some false else none := by
  by_cases hw : w = "b" ∨ w = "c"
  · by_cases hu : u = "a"
    · subst hu
      simp [forkKeys, hw, -AList.insert_empty]
    · simp [forkKeys, hw, hu, AList.lookup_insert_ne, -AList.insert_empty]
  · simp [forkKeys, hw]

theorem forkKeys_wired : forkKeys.Wired where
  mirrored u w := by
    rw [Redis.State.hasEdge, forkKeys_edge]
    by_cases hu : u = "a"
    · subst hu
      simp [forkKeys, or_comm]
    · simp [forkKeys, hu]
  exist u w huw := by
    rw [Redis.State.hasEdge, forkKeys_edge] at huw
    by_cases huw' : u = "a" ∧ (w = "b" ∨ w = "c")
    · obtain ⟨rfl, rfl | rfl⟩ := huw' <;> simp [Redis.State.has, forkKeys_node]
    · simp [huw'] at huw

theorem forkKeys_net : forkKeys.net = Memory.Scope.fork.net := by
  rw [Net.mk.injEq]
  refine ⟨?_, ?_, ?_, rfl⟩
  · funext id
    change (forkKeys.node id).map _ = (Memory.Scope.fork.lookup id).map _
    rw [forkKeys_node, Memory.Scope.fork_lookup]
    split_ifs <;> rfl
  · funext u w
    change (forkKeys.pred w).lookup u = (Memory.Scope.fork.lookup u).bind fun a =>
      (Memory.Scope.fork.lookup w).bind fun b => _
    rw [forkKeys_edge, Memory.Scope.fork_lookup, Memory.Scope.fork_lookup]
    split_ifs <;> simp_all [Memory.Scope.fork]
  · funext b
    cases b <;> rfl

/-! ## Refinement -/

section Refinement

variable {g : Net NodeID} {id : NodeID} {c : Cell} {s : Memory.Scope} {t : Redis.State} {h : ℕ}

/-- **The Lua cascade refines the in-memory one.**  From keys and a scope that hold one
graph whose tallies are right, and a node of it such that no other node has lost its rule,
`terminate` with any outcome and `settle` lead both stores to one graph, whatever the clock
says and in whatever order the members of the successor sets are listed: every node has the
same phase, status, reason, message, attempt and tally in both, and so have all counters. -/
theorem cascade_refines (hg : g.Tallied) (hc : g.cell id = some c) (hcalm : g.Calm id)
    (hs : HeldInMemory s g) (ht : HeldInRedis t g) (hh : s.lookup id = some h) (nowMs : Int)
    (out : List Effect) :
    (∀ status reason msg,
      (s.terminate h status reason msg out).All fun r =>
        (t.terminate id status reason msg nowMs).All fun t' =>
          ∃ g', HeldInMemory r.1 g' ∧ HeldInRedis t' g') ∧
    ((s.settle h out).All fun r =>
      (t.settle id nowMs).All fun t' =>
        ∃ g', HeldInMemory r.1 g' ∧ HeldInRedis t' g') := by
  constructor
  · intro status reason msg
    exact terminate_same hg hc hcalm hs ht hh status reason msg nowMs out
  · exact settle_same hg hc hcalm hs ht hh nowMs out

/-- The failure of a fork, in both stores. -/
theorem fork_refined :
    ∃ (r : Memory.Scope × List Effect) (t : Redis.State),
      (Memory.Scope.fork.terminate 0 .error .workerError "boom" []).Yields r ∧
      (forkKeys.terminate "a" .error .workerError "boom" 0).Yields t ∧
      (t.stats.failed = 3 ∧ (t.node "c").map Redis.NodeHash.reason = some .upstreamFailed) ∧
      t.net = r.1.net := by
  have hrun : ((forkKeys.terminate "a" .error .workerError "boom" 0).run [] []).any fun t =>
      t.stats.failed = 3 ∧ (t.node "c").map Redis.NodeHash.reason = some .upstreamFailed := by
    decide +kernel
  obtain ⟨t, ht, hfacts⟩ := (Option.any_eq_true _ _).mp hrun
  obtain ⟨r, hr⟩ := Prog.exists_yields
    (Memory.Scope.fork.terminate 0 .error .workerError "boom" [])
  have hlaid := Memory.Scope.fork_laid
  have hall := (cascade_refines (hlaid.net_tallied Memory.Scope.fork_tallied) rfl
    (hlaid.net_calm Memory.Scope.fork_calm) ⟨hlaid, rfl⟩ ⟨forkKeys_wired, forkKeys_net⟩ rfl 0
    []).1 .error .workerError "boom"
  obtain ⟨g', hr', ht'⟩ := (hall.of_yields hr).of_yields (Prog.yields_of_run ht)
  exact ⟨r, t, hr, Prog.yields_of_run ht, of_decide_eq_true hfacts, ht'.net.trans hr'.net.symm⟩

end Refinement
end DagWorker.Backends
