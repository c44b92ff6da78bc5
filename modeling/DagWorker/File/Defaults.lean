import DagWorker.File.Compaction

/-!
# Opening with other defaults

The log records commands, not the configuration they ran under: a scope that was created
by `AddNodes` or `Seal` gets the defaults that `Open` is called with.  A scope that was
created by `SetScopeConfig` does not, and its log is replayed alike under any defaults.
-/

namespace DagWorker.Memory.Store

open Prog

variable (name : String)

def withDefaults (st : Store) (defaults : ScopeConfig) : Store := { st with defaults := defaults }

section Commute

variable {α : Type} {st : Store} {D : ScopeConfig}

/-- A result on the store, and on the one with other defaults. -/
def renew (D : ScopeConfig) (x : α × Store) : Prog (α × Store) := pure (x.1, x.2.withDefaults D)

end Commute
end DagWorker.Memory.Store

namespace DagWorker.File

open Prog

variable {m : Mutation} {mem : Memory.Store} (D : ScopeConfig)

section Run

variable {cdc : Codec} {D₁ : ScopeConfig} {steps : List StepRecord} {s : Store}

end Run

end DagWorker.File
