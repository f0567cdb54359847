import SimpleCache.Lib.Run
import SimpleCache.Lib.Prog
import SimpleCache.Lib.Loop
import SimpleCache.Lib.Slots
import SimpleCache.Lib.Pool
import SimpleCache.Lib.Channel
import SimpleCache.Lib.Counter
import SimpleCache.Lib.BitSet
import SimpleCache.Lib.LinkedList
import SimpleCache.Go.Text
import SimpleCache.Go.Json
import SimpleCache.Go.Url
import SimpleCache.Go.Int64
import SimpleCache.Go.Net
import SimpleCache.Cache.Errors
import SimpleCache.Cache.Lru
import SimpleCache.Cache.Resident
import SimpleCache.Cache.Accounting
import SimpleCache.Cache.Insertion
import SimpleCache.Cache.Sweep
import SimpleCache.Cache.Cursor
import SimpleCache.Cache.Admission
import SimpleCache.Cache.Bloom
import SimpleCache.Cache.Group
import SimpleCache.Cache.Floors
import SimpleCache.Cache.VersionStore
import SimpleCache.Cache.KnownKeys
import SimpleCache.Cache.Lifetime
import SimpleCache.Cache.Commute
import SimpleCache.Cache.Flight
import SimpleCache.Cache.Moves
import SimpleCache.Cache.Freshness
import SimpleCache.Cache.Sharing
import SimpleCache.Cache.Absence
import SimpleCache.Cache.Retry
import SimpleCache.Cache.Contents
import SimpleCache.Postgres.Sql
import SimpleCache.Postgres.Products
import SimpleCache.Postgres.Outbox
import SimpleCache.Postgres.Store
import SimpleCache.Postgres.Lease
import SimpleCache.Postgres.Generation
import SimpleCache.Cluster.Protocol
import SimpleCache.Cluster.Directory
import SimpleCache.Cluster.Server
import SimpleCache.Cluster.Broadcast
import SimpleCache.Cluster.Fanout
import SimpleCache.Cluster.Reports
import SimpleCache.Cluster.Canonical
import SimpleCache.Discovery.Endpoints
import SimpleCache.App.Mutations
import SimpleCache.App.Api
import SimpleCache.App.Exchange
import SimpleCache.App.Lifecycle
import SimpleCache.App.Readiness
import SimpleCache.App.Shutdown
import SimpleCache.App.Versions
import SimpleCache.App.Config
import SimpleCache.Outbox.Worker
import SimpleCache.Outbox.Finish
import SimpleCache.Outbox.Loop
import SimpleCache.Outbox.Drain
import SimpleCache.Cluster.System
import SimpleCache.Cluster.Effects
import SimpleCache.Cluster.Nodes
import SimpleCache.Cluster.Delivery
import SimpleCache.Cluster.Reads
import SimpleCache.Cluster.Contents
import SimpleCache.Cluster.Coherence
import SimpleCache.Cluster.Backoff
import SimpleCache.Cluster.Updates
import SimpleCache.Operator.Json
import SimpleCache.Operator.Spec
import SimpleCache.Operator.Objects
import SimpleCache.Operator.Resources
import SimpleCache.Operator.Agreement
import SimpleCache.Operator.Ensure
import SimpleCache.Operator.Extension
import SimpleCache.Operator.Server
import SimpleCache.Operator.Gateway
import SimpleCache.Operator.Names
import SimpleCache.Operator.Reconcile
import SimpleCache.Operator.Idempotence
import SimpleCache.Operator.Ownership
import SimpleCache.Operator.Shards
import SimpleCache.Operator.Pass
import SimpleCache.Operator.Stale
import SimpleCache.Operator.Runs
import SimpleCache.Operator.Convergence
import SimpleCache.Report.Performance
import SimpleCache.Bench.Config
import SimpleCache.Bench.Plan
import SimpleCache.Bench.Request
import SimpleCache.Bench.Arrival
import SimpleCache.Bench.Custody
import SimpleCache.Bench.Counts
import SimpleCache.Bench.Evidence
import SimpleCache.Bench.Accounting
import SimpleCache.Operator.Steady
import SimpleCache.Operator.Tended
import SimpleCache.Operator.Quiet
