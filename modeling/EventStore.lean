import EventStore.LTS.Basic
import EventStore.Table.Basic
import EventStore.HashChain.Basic
import EventStore.Failure.Basic
import EventStore.Lens.Basic
import EventStore.Decimal.Basic
import EventStore.Occ.Basic
import EventStore.Prog.Basic
import EventStore.Prog.Serial
import EventStore.Prog.History
import EventStore.Prog.Endless
import EventStore.SessionLock.Basic
import EventStore.Storage.Locker
import EventStore.Es.Types
import EventStore.Es.StreamID
import EventStore.Es.Shard
import EventStore.Es.Chain
import EventStore.Es.Tamper
import EventStore.Storage.Schema
import EventStore.Storage.Dialect
import EventStore.Storage.Append
import EventStore.Storage.Versions
import EventStore.Storage.Claims
import EventStore.Storage.Read
import EventStore.Paging.Keyset
import EventStore.Storage.StateScan
import EventStore.Shred.Dsar
import EventStore.Storage.Integrity
import EventStore.Storage.Backfill
import EventStore.Storage.Visibility
import EventStore.Aggregate.Runtime
import EventStore.Aggregate.Rebuild
import EventStore.Aggregate.System
import EventStore.Aggregate.Order
import EventStore.Aggregate.Apart
import EventStore.Aggregate.Serial
import EventStore.Aggregate.Cache
import EventStore.Aggregate.Scan
import EventStore.Aggregate.RebuildQuiet
import EventStore.Aggregate.RebuildRace
import EventStore.Aggregate.RebuildLive
import EventStore.Aggregate.PostgresChain
import EventStore.Shred.Keys
import EventStore.Shred.FirstUse
import EventStore.Shred.Sealing
import EventStore.Shred.Isolation
import EventStore.Shred.Retention
import EventStore.Shred.Pii
import EventStore.Shred.Redaction
import EventStore.Kms.KeyStore
import EventStore.Kms.File
import EventStore.Kms.Aws
import EventStore.Shred.Rows
import EventStore.Shred.Calls
import EventStore.Shred.Permanence
import EventStore.Shred.Late
import EventStore.Shred.Lifecycle
import EventStore.Outbox.Store
import EventStore.Outbox.Tenancy
import EventStore.Outbox.Drain
import EventStore.Outbox.History
import EventStore.Outbox.Order
import EventStore.Outbox.Account
import EventStore.Outbox.HeadRule
import EventStore.Outbox.Attempts
import EventStore.Outbox.Refused
import EventStore.Outbox.Cleanup
import EventStore.StateStream.Positions
import EventStore.StateStream.Rounds
import EventStore.StateStream.Backfill
import EventStore.Es.Identifiers
import EventStore.Codegen.Naming
import EventStore.Projection.Runtime
import EventStore.Projection.Delivery
import EventStore.Projection.Dedup
import EventStore.Linked.Projection
import EventStore.Workflow.Bus
import EventStore.Workflow.Wire
import EventStore.Workflow.State
import EventStore.Workflow.Replay
import EventStore.Workflow.HandleCmd
import EventStore.Workflow.Retries
import EventStore.Workflow.Stages
import EventStore.Workflow.Termination
import EventStore.Codegen.Schema
import EventStore.Codegen.Fields
import EventStore.Codegen.Coverage
import EventStore.Codegen.Wiring
import EventStore.Codegen.Manifest
import EventStore.Codegen.Subjects
import EventStore.Codegen.RoundTrip
import EventStore.Codegen.Values
import EventStore.Codegen.View
import EventStore.Codegen.LogValue
import EventStore.Codegen.Consumers
import EventStore.Codegen.Clone
import EventStore.Codegen.Wire
