import Sayiir.Interaction.Prog
import Sayiir.Interaction.Protocol
import Sayiir.Interaction.RelyGuarantee
import Sayiir.Interaction.Recovery
import Sayiir.Interaction.Walk
import Sayiir.Core.Error
import Sayiir.Core.Hash32
import Sayiir.Format.Json
import Sayiir.Core.Codec
import Sayiir.Core.Workflow
import Sayiir.Core.Snapshot
import Sayiir.Core.Durations
import Sayiir.Core.FlowBuilder
import Sayiir.Core.Serializable
import Sayiir.Core.Builder
import Sayiir.Core.Traversal
import Sayiir.Core.SnapshotFormat
import Sayiir.Proof.WireFormats
import Sayiir.Persistence.InMemory
import Sayiir.Persistence.Backend
import Sayiir.Runtime.Exec
import Sayiir.Runtime.Helpers
import Sayiir.Runtime.Fork
import Sayiir.Runtime.Executors
import Sayiir.Runtime.Lifecycle
import Sayiir.Runtime.Sync
import Sayiir.Runtime.Worker
import Sayiir.Runtime.Pool
import Sayiir.Proof.Meets
import Sayiir.Proof.Computes
import Sayiir.Proof.Equivalence
import Sayiir.Proof.PoolSteps
import Sayiir.Proof.Recursions
import Sayiir.Proof.Terminal
import Sayiir.Proof.Dispatch
import Sayiir.Proof.Plan
import Sayiir.Proof.Order
import Sayiir.Proof.Rehearsal
import Sayiir.Proof.Composition
import Sayiir.Proof.Inputs
import Sayiir.Proof.Agreement
import Sayiir.Proof.Claims
import Sayiir.Proof.Progress
import Sayiir.Proof.Stranding
import Sayiir.Proof.Requests
import Sayiir.Persistence.Postgres
import Sayiir.Runtime.Submit
import Sayiir.Proof.Postgres
import Sayiir.Proof.Leases
import Sayiir.Proof.Sidecar
import Sayiir.Proof.Submissions
import Sayiir.Collection.Ranking
import Sayiir.Runtime.Polls
import Sayiir.Proof.Alike
import Sayiir.Proof.Waits
import Sayiir.Proof.Vigil
import Sayiir.Proof.Conduct
import Sayiir.Proof.Pointer
import Sayiir.Runtime.Crew
import Sayiir.Proof.Routing
import Sayiir.Proof.Durations
import Sayiir.Format.Delimited
import Sayiir.Proof.DefinitionHash
import Sayiir.Persistence.D1
import Sayiir.Proof.Resumable
import Sayiir.Proof.Builder
import Sayiir.Proof.Reconfigure
import Sayiir.Proof.Metadata
import Sayiir.Proof.Rebuild
import Sayiir.Proof.Traversal
import Sayiir.Runtime.Takeover
import Sayiir.Proof.CleanSlate
import Sayiir.Runtime.Trial
import Sayiir.Proof.Attempts
import Sayiir.Proof.DurableRetries
import Sayiir.Runtime.Async
import Sayiir.Proof.Schedules
import Sayiir.Proof.Advance
import Sayiir.Proof.Joins
import Sayiir.Proof.Hints
import Sayiir.Proof.Reports
import Sayiir.Proof.Starvation
import Sayiir.Proof.Urgency
import Sayiir.Persistence.Tables
import Sayiir.Proof.Columns
import Sayiir.Proof.Backoff
import Sayiir.Proof.Deadlines
import Sayiir.Proof.Pauses
import Sayiir.Runtime.Cloudflare
import Sayiir.Proof.SignalTimeouts
