import DagWorker.Backends.Cascade
import DagWorker.Backends.Config
import DagWorker.Backends.Rejection
import DagWorker.File.Defaults
import DagWorker.File.Lifetimes
import DagWorker.File.Writes
import DagWorker.Grpc.Watch
import DagWorker.Http.Leases
import DagWorker.Http.Scopes
import DagWorker.Manager.Durable
import DagWorker.Manager.Publishing
import DagWorker.Memory.Deadlines
import DagWorker.Memory.Doorbell
import DagWorker.Memory.Failing
import DagWorker.Memory.Fencing
import DagWorker.Memory.Histories
import DagWorker.Memory.Offsets
import DagWorker.Memory.Repeating
import DagWorker.Memory.Rules
import DagWorker.Memory.Sources
import DagWorker.Memory.Standing
import DagWorker.Memory.Watch
import DagWorker.Postgres.Limit
import DagWorker.Postgres.Repeating
import DagWorker.Postgres.Sealing
import DagWorker.Postgres.Settling
import DagWorker.Postgres.Statistics
import DagWorker.Postgres.Watch
import DagWorker.Redis.Doubles
import DagWorker.Redis.Errors
import DagWorker.Redis.Fencing
import DagWorker.Redis.Integrity
import DagWorker.Redis.Keys
import DagWorker.Redis.Watch
