import DagWorker.Http.Config
import DagWorker.Postgres.Insertion
import DagWorker.Redis.Config

/-!
# What becomes of a configuration

Redis keeps a configuration in a hash, PostgreSQL in the columns of a row, and the HTTP
adapter sends it as text.  None of the three has a place for `MaxClaimBatch`; the other
fields come back as they were.
-/

namespace DagWorker

variable {c : ScopeConfig} (defaults : ScopeConfig)

namespace Postgres

variable {srv : Server} {e : Engine}

theorem storedConfig_eq (hc : c.Portable) : storedConfig c = { c with maxClaimBatch := 0 } := by
  have hcounts := hc.counts
  have hsizes := hc.sizes
  simp only [List.mem_cons, List.not_mem_nil, or_false, forall_eq_or_imp, forall_eq]
    at hcounts hsizes
  obtain ⟨hattempts, hinFlight, hpartitions⟩ := hcounts
  obtain ⟨hcap, hbatch, hsweep⟩ := hsizes
  have hcount : ∀ n : ℕ, n < 2 ^ 31 → narrowI32 n = n := by
    intro n hn
    rw [narrowI32]
    omega
  have hsize : ∀ n : Int, -2 ^ 31 ≤ n ∧ n < 2 ^ 31 → narrowInt n = n := by
    intro n hn
    rw [narrowInt]
    omega
  rw [storedConfig, hcount _ hattempts, hcount _ hinFlight, hcount _ hpartitions,
    hsize _ hcap, hsize _ hbatch, hsize _ hsweep]

instance : Nonempty Answer := ⟨{}⟩

namespace Tx

/-- Every run of the program ends, with a result that satisfies `Q`. -/
abbrev Returns {α : Type} (srv : Server) (Q : α → Engine → Prop) (p : Tx α) (e : Engine) : Prop :=
  Dialogue.Returns (Stmt.exec srv) Q p e

theorem ensureScope_returns :
    (ensureScope defaults).Returns srv (fun _ e' => ∃ sc, e'.scopeRow = some sc) e := by
  cases hrow : e.scopeRow with
  | none =>
    apply Dialogue.returns_ask
      (x := ((), { e with scopeRow := some { cfg := storedConfig defaults } }))
    · intro a
      simp [Stmt.exec, Stmt.perform, hrow, Db.applyAll, Db.apply]
    · exact ⟨_, rfl⟩
  | some sc =>
    apply Dialogue.returns_ask (x := ((), e))
    · intro a
      simp [Stmt.exec, Stmt.perform, hrow, Db.applyAll]
    · exact ⟨sc, hrow⟩

theorem setScopeConfig_returns (c : ScopeConfig) :
    (setScopeConfig defaults c).Returns srv
      (fun _ e' => e'.scopeRow.map ScopeRow.cfg = some (storedConfig c)) e := by
  apply (ensureScope_returns defaults).bind
  rintro _ e ⟨sc, hrow⟩
  apply Dialogue.returns_ask
    (x := ((), { e with scopeRow := some { sc with cfg := storedConfig c } }))
  · intro a
    simp [Stmt.exec, Stmt.perform, Stmt.updateScope, hrow, Db.applyAll, Db.apply]
  · rfl

theorem scopeConfig_returns (h : e.scopeRow.map ScopeRow.cfg = some c) :
    (scopeConfig defaults).Returns srv (fun got _ => got = c) e := by
  obtain ⟨sc, hrow, rfl⟩ := Option.map_eq_some_iff.mp h
  have hload : loadScope.Returns srv (fun r _ => r = some sc) e := by
    apply Dialogue.returns_ask (x := (some sc, e))
    · intro a
      simp [Stmt.exec, Stmt.perform, hrow, Db.applyAll]
    · rfl
  apply hload.bind
  rintro _ e' rfl
  exact ⟨trivial, rfl⟩

end Tx
end Postgres

namespace Backends

open Redis (CfgHash)

/-- A configuration that passes the checks comes back from Redis, from PostgreSQL and from
the wire exactly when it leaves `MaxClaimBatch` open. -/
theorem config_kept_iff (c defaults : ScopeConfig) (hash : CfgHash) (srv : Postgres.Server)
    (e : Postgres.Engine) (parse : String → Except String Int) (hvalid : c.validate = .ok ())
    (hc : c.Portable)
    (hparse : ∀ d ∈ c.durations, 0 < d → parse (durationString d) = .ok d) :
    ((hash.setScopeConfig c).scopeConfig defaults = c ∧
      (Postgres.Tx.setScopeConfig defaults c >>= fun _ =>
        Postgres.Tx.scopeConfig defaults).Returns srv (fun got _ => got = c) e ∧
      (Http.scopeConfigToWire c).toDomain parse = .ok c) ↔ c.maxClaimBatch = 0 := by
  have hdrop : { c with maxClaimBatch := 0 } = c ↔ c.maxClaimBatch = 0 := by
    cases c
    simp [eq_comm]
  have hredis : (hash.setScopeConfig c).scopeConfig defaults = c ↔ c.maxClaimBatch = 0 := by
    rw [CfgHash.scopeConfig_eq_iff defaults hash hc.typed]
    exact and_iff_left fun d hd => (hc.durations d hd).2.2
  have hreturns : (Postgres.Tx.setScopeConfig defaults c >>= fun _ =>
      Postgres.Tx.scopeConfig defaults).Returns srv
        (fun got _ => got = Postgres.storedConfig c) e := by
    apply (Postgres.Tx.setScopeConfig_returns defaults c).bind
    intro _ e' h
    exact Postgres.Tx.scopeConfig_returns defaults h
  have hstored : (Postgres.Tx.setScopeConfig defaults c >>= fun _ =>
      Postgres.Tx.scopeConfig defaults).Returns srv (fun got _ => got = c) e ↔
        c.maxClaimBatch = 0 := by
    rw [← hdrop, ← Postgres.storedConfig_eq hc]
    exact hreturns.eq_iff
  have hwire := Http.toDomain_scopeConfigToWire (fun d hd => (hc.durations d hd).1) hparse
  rw [hredis, hstored, hwire, Except.ok.injEq, hdrop,
    and_self, and_self]

/-- A configuration with a lease timeout of a minute and five attempts. -/
def minuteLease : ScopeConfig :=
  { defaultLeaseTimeout := 60 * second, maxAttempts := 5, payloadCap := 1024 }

/-- Reads the text of one duration. -/
def parseOnly (d : Int) (s : String) : Except String Int :=
  if s = durationString d then .ok d else .error "time: invalid duration"

theorem minuteLease_kept : minuteLease.validate = .ok () ∧ minuteLease.Portable ∧
    ((∅ : CfgHash).setScopeConfig minuteLease).scopeConfig {} = minuteLease ∧
    (Postgres.Tx.setScopeConfig {} minuteLease >>= fun _ => Postgres.Tx.scopeConfig {}).Returns
      Postgres.countingServer (fun got _ => got = minuteLease) {} ∧
    (Http.scopeConfigToWire minuteLease).toDomain (parseOnly (60 * second)) =
      .ok minuteLease := by
  have hvalid : minuteLease.validate = .ok () := rfl
  have hportable : minuteLease.Portable := by
    constructor <;> decide
  have hparse : ∀ d ∈ minuteLease.durations, 0 < d →
      parseOnly (60 * second) (durationString d) = .ok d := by
    intro d hd hpos
    have hd : d = 60 * second ∨ d = 0 := by
      simpa [ScopeConfig.durations, minuteLease] using hd
    rcases hd with rfl | rfl
    · exact if_pos rfl
    · exact absurd hpos (lt_irrefl 0)
  exact ⟨hvalid, hportable,
    (config_kept_iff minuteLease {} ∅ _ {} _ hvalid hportable hparse).mpr rfl⟩

/-- A limit of five nodes for one claim. -/
def fiveClaims : ScopeConfig := { maxClaimBatch := 5 }

/-- It is valid, and reads back as no limit from all three. -/
theorem fiveClaims_dropped : fiveClaims.validate = .ok () ∧ fiveClaims.Portable ∧
    ((∅ : CfgHash).setScopeConfig fiveClaims).scopeConfig {} = {} ∧
    (Postgres.Tx.setScopeConfig {} fiveClaims >>= fun _ => Postgres.Tx.scopeConfig {}).Returns
      Postgres.countingServer (fun got _ => got = {}) {} ∧
    (Http.scopeConfigToWire fiveClaims).toDomain (parseOnly 0) = .ok {} ∧
    fiveClaims ≠ {} := by
  refine ⟨rfl, ?_, by decide, ?_, rfl, by decide⟩
  · constructor <;> decide
  · apply (Postgres.Tx.setScopeConfig_returns {} fiveClaims).bind
    intro _ e h
    exact Postgres.Tx.scopeConfig_returns {} h

end Backends
end DagWorker
