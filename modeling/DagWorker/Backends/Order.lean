import DagWorker.Memory.Insertion
import DagWorker.Postgres.Insertion
import DagWorker.Redis.Order

/-!
# The three edge insertions

The in-memory store, the Redis scripts and the PostgreSQL engine each restore the
topological order for a new edge in their own way.  Each computes `Rank.insertion`, so they
agree on every finite graph.
-/

namespace DagWorker.Backends

open Function

variable {V : Type} {ord : V → ℕ} {Edge : V → V → Prop}

theorem agree_of_insertion {ins : Option (V → ℕ)} {a b : Prop} [Decidable a] {f g : V → ℕ}
    (ha : ins = if a then none else some f) (hb : b → ins = none)
    (hnb : ¬b → ins = some g) : (b ↔ a) ∧ (¬b → ∀ v, g v = f v) := by
  by_cases h : a
  · rw [if_pos h] at ha
    have hcycle : b := by
      by_contra hn
      exact absurd (ha.symm.trans (hnb hn)) (by simp)
    exact ⟨iff_of_true hcycle h, fun hn => absurd hcycle hn⟩
  · rw [if_neg h] at ha
    have hcycle : ¬b := fun hb' => absurd (ha.symm.trans (hb hb')) (by simp)
    have hgf : g = f := Option.mem_unique (hnb hcycle) ha
    exact ⟨iff_of_false hcycle h, fun _ v => congrFun hgf v⟩

/-- On every finite graph with distinct ranks that respect its edges, stored by the three
backends in any order, the three versions of `addEdgeOrder` report a cycle together or
accept together, and leave the same ranks when they accept.  The version of the engine
returns whenever its searches have fuel for every node. -/
theorem addEdgeOrder_agree [Fintype V] (hinj : Injective ord)
    (hlt : ∀ u v, Edge u v → ord u < ord v) {x y : V} (hne : x ≠ y)
    {s : Memory.Scope} {slot : V → ℕ} (hs : s.Stores slot ord Edge)
    {r : Redis.State} {name : V → NodeID} (hr : r.Stores name ord Edge)
    {e : Postgres.Engine} {id : V → ℕ} (he : Postgres.Tx.Stores e id ord Edge)
    (srv : Postgres.Server) {fuel : ℕ} (hfuel : e.rows.keys.length < fuel) :
    ((r.addEdgeOrder (name x) (name y)).All fun out => out.1 ≠ .crash ∧
      (out.1 = .cycle ↔ (s.addEdgeOrder (slot x) (slot y)).1.cyclePath.isSome) ∧
      (out.1 ≠ .cycle → ∀ v,
        out.2.ordOf (name v) = (s.addEdgeOrder (slot x) (slot y)).2.ord (slot v))) ∧
    (Postgres.Tx.addEdgeOrder fuel (id x) (id y)).Halts srv e ∧
    (Postgres.Tx.addEdgeOrder fuel (id x) (id y)).Wp srv (fun path e' =>
      (path.isSome ↔ (s.addEdgeOrder (slot x) (slot y)).1.cyclePath.isSome) ∧
      (¬path.isSome → ∀ v,
        e'.rankOf (id v) = (s.addEdgeOrder (slot x) (slot y)).2.ord (slot v))) e := by
  have hmemory := s.addEdgeOrder_insertion hs hinj hlt hne
  obtain ⟨hhalts, hengine⟩ := Postgres.Tx.addEdgeOrder_insertion srv he hinj hlt hne hfuel
  refine ⟨?_, hhalts, ?_⟩
  · apply (r.addEdgeOrder_insertion hr hinj hlt hne).mono
    rintro out ⟨hcrash, hcycle, haccept⟩
    exact ⟨hcrash, agree_of_insertion hmemory hcycle haccept⟩
  · apply hengine.mono
    rintro path e' ⟨hcycle, haccept⟩
    exact agree_of_insertion hmemory hcycle fun h => haccept (Option.not_isSome_iff_eq_none.mp h)

/-! ## Three nodes in the three backends -/

/-- One edge, from the first of three nodes to the second. -/
def firstEdge (u v : Fin 3) : Prop := u = 0 ∧ v = 1

/-- The slots, and the ranks, of three nodes. -/
def place (v : Fin 3) : ℕ := v + 1

theorem place_injective : Injective place := by decide

theorem exists_firstEdge {K : Type} {key : Fin 3 → K} {a b : K} :
    (∃ u v, firstEdge u v ∧ key u = a ∧ key v = b) ↔ key 0 = a ∧ key 1 = b := by
  constructor
  · rintro ⟨u, v, ⟨rfl, rfl⟩, h⟩
    exact h
  · exact fun h => ⟨0, 1, ⟨rfl, rfl⟩, h⟩

theorem scope_stores : Memory.Scope.threeNodes.Stores place place firstEdge := by
  constructor
  · refine ⟨place_injective, fun _ => Iff.rfl, fun a b => ?_, fun _ => rfl⟩
    rw [exists_firstEdge]
    by_cases ha : a = 1 <;> simp [Memory.Scope.Arc, Memory.Scope.threeNodes, update, place, ha] <;>
      omega
  · exact Memory.Scope.threeNodes_ordered.mem_succ

def redisName (v : Fin 3) : NodeID := if v = 0 then "a" else if v = 1 then "b" else "c"

def redisHash (v : Fin 3) : Redis.NodeHash :=
  { id := redisName v, kind := "", priority := 0, trigger := .allSuccess
    retryMaxAttempts := 0, retryBaseMs := 0, retryMaxMs := 0, epoch := 0, createdAt := 0
    updatedAt := 0, ord := place v }

def redisThree : Redis.State :=
  { nodes := ((AList.singleton "a" (redisHash 0)).insert "b" (redisHash 1)).insert "c" (redisHash 2)
    succ := update (fun _ => []) "a" ["b"]
    pred := update (fun _ => ∅) "b" (AList.singleton "a" false) }

theorem redis_stores : redisThree.Stores redisName place firstEdge := by
  constructor
  · constructor
    · decide
    · intro k
      constructor
      · intro hk
        have hmem : k ∈ ["c", "b", "a"] := Redis.State.Node.mem_keys hk
        simp only [List.mem_cons, List.not_mem_nil, or_false] at hmem
        rcases hmem with rfl | rfl | rfl
        · exact ⟨2, rfl⟩
        · exact ⟨1, rfl⟩
        · exact ⟨0, rfl⟩
      · rintro ⟨v, rfl⟩
        have hall : ∀ v, (redisThree.node (redisName v)).isSome := by decide
        exact hall v
    · intro a b
      rw [exists_firstEdge]
      by_cases ha : a = "a" <;> simp [Redis.State.Arc, redisThree, update, redisName, ha, eq_comm]
    · decide
  · intro a b
    by_cases ha : a = "a" <;> by_cases hb : b = "b" <;>
      simp [Redis.State.Arc, redisThree, update, ha, hb, AList.keys_singleton]

def tableRow (v : Fin 3) : Postgres.NodeRow := { nodeID := redisName v, rank := place v }

def tablesThree : Postgres.Engine :=
  { rows := ((AList.singleton 1 (tableRow 0)).insert 2 (tableRow 1)).insert 3 (tableRow 2)
    edges := AList.singleton (1, 2) false }

theorem tables_lookup {k : ℕ} {r : Postgres.NodeRow} (hr : tablesThree.rows.lookup k = some r) :
    ∃ v, place v = k ∧ r = tableRow v := by
  have hmem : k ∈ [3, 2, 1] := Postgres.Tx.Node.mem_keys (.of_some hr)
  simp only [List.mem_cons, List.not_mem_nil, or_false] at hmem
  rcases hmem with rfl | rfl | rfl
  · exact ⟨2, rfl, (Option.some.inj hr).symm⟩
  · exact ⟨1, rfl, (Option.some.inj hr).symm⟩
  · exact ⟨0, rfl, (Option.some.inj hr).symm⟩

theorem tables_stores : Postgres.Tx.Stores tablesThree place place firstEdge := by
  constructor
  · constructor
    · exact place_injective
    · intro k
      constructor
      · intro hk
        obtain ⟨r, hr⟩ := Option.isSome_iff_exists.mp hk
        obtain ⟨v, hv, -⟩ := tables_lookup hr
        exact ⟨v, hv⟩
      · rintro ⟨v, rfl⟩
        have hall : ∀ v, (tablesThree.rows.lookup (place v)).isSome := by decide
        exact hall v
    · intro a b
      rw [exists_firstEdge, Postgres.Db.Linked, AList.lookup_isSome]
      simp [tablesThree, place, AList.mem_keys, AList.keys_singleton, eq_comm]
    · decide
  · intro k r hr
    obtain ⟨v, -, rfl⟩ := tables_lookup hr
    rfl

/-- An edge from the third node to the first is accepted by all three. -/
theorem three_agree :
    (Memory.Scope.threeNodes.addEdgeOrder 3 1).1.cyclePath = none ∧
    ((redisThree.addEdgeOrder "c" "a").All fun out => out.2.ordOf "c" = 1) ∧
    (Postgres.Tx.addEdgeOrder 4 3 1).Halts Postgres.countingServer tablesThree ∧
    (Postgres.Tx.addEdgeOrder 4 3 1).Wp Postgres.countingServer
      (fun _ e' => e'.rankOf 3 = 1) tablesThree := by
  have hnone : (Memory.Scope.threeNodes.addEdgeOrder 3 1).1.cyclePath = none := by
    decide +kernel
  have hnot : ¬(Memory.Scope.threeNodes.addEdgeOrder 3 1).1.cyclePath.isSome := by simp [hnone]
  have hrank : (Memory.Scope.threeNodes.addEdgeOrder 3 1).2.ord 3 = 1 := by decide +kernel
  obtain ⟨hredis, hhalts, htables⟩ := addEdgeOrder_agree place_injective
    (by rintro u v ⟨rfl, rfl⟩; decide) (x := 2) (y := 0) (by decide) scope_stores redis_stores
    tables_stores Postgres.countingServer (show tablesThree.rows.keys.length < 4 by decide)
  refine ⟨hnone, ?_, hhalts, ?_⟩
  · apply hredis.mono
    rintro out ⟨-, hiff, heq⟩
    exact (heq (fun h => hnot (hiff.mp h)) 2).trans hrank
  · apply htables.mono
    rintro path e' ⟨hiff, heq⟩
    exact (heq (fun h => hnot (hiff.mp h)) 2).trans hrank

end DagWorker.Backends
