import Dockfoxprox.Lib.Adjoin
import Dockfoxprox.Lib.Machine
import Dockfoxprox.Lib.MapSum
import Dockfoxprox.Lib.Reader
import Dockfoxprox.Lib.Tiered
import Dockfoxprox.Lib.Provenance
import Dockfoxprox.Model.Digest
import Dockfoxprox.Model.State
import Dockfoxprox.Model.Usage
import Dockfoxprox.Model.Calls
import Dockfoxprox.Model.Flush
import Dockfoxprox.Model.Redis
import Dockfoxprox.Model.Eviction
import Dockfoxprox.Model.Http
import Dockfoxprox.Model.Uploads
import Dockfoxprox.Model.Session
import Dockfoxprox.Model.Manifests
import Dockfoxprox.Model.Collector
import Dockfoxprox.Model.EvictLoop
import Dockfoxprox.Model.Resp
import Dockfoxprox.Model.Conn
import Dockfoxprox.Model.Wire
import Dockfoxprox.Model.Challenge
import Dockfoxprox.Model.Accept
import Dockfoxprox.Model.Pull
import Dockfoxprox.Model.Pulls
import Dockfoxprox.Model.Router
import Dockfoxprox.Model.Alloc
import Dockfoxprox.Model.Fill
import Dockfoxprox.Model.Tags
import Dockfoxprox.Model.Cache
import Dockfoxprox.Model.Blobs
import Dockfoxprox.Model.Metrics
import Dockfoxprox.Model.Server
import Dockfoxprox.Model.Snapshot
import Dockfoxprox.Model.Node
import Dockfoxprox.Proofs.State
import Dockfoxprox.Proofs.Usage
import Dockfoxprox.Proofs.Redis
import Dockfoxprox.Proofs.Calls
import Dockfoxprox.Proofs.Flush
import Dockfoxprox.Proofs.Spill
import Dockfoxprox.Proofs.Promotion
import Dockfoxprox.Proofs.Readers
import Dockfoxprox.Proofs.Eviction
import Dockfoxprox.Proofs.Scan
import Dockfoxprox.Proofs.Candidates
import Dockfoxprox.Proofs.Effects
import Dockfoxprox.Proofs.Collection
import Dockfoxprox.Proofs.Agreement
import Dockfoxprox.Proofs.Queues
import Dockfoxprox.Proofs.Accumulators
import Dockfoxprox.Proofs.Pools
import Dockfoxprox.Proofs.Lru
import Dockfoxprox.Proofs.Published
import Dockfoxprox.Proofs.Minimal
import Dockfoxprox.Proofs.Termination
import Dockfoxprox.Proofs.EvictUsage
import Dockfoxprox.Proofs.EvictRace
import Dockfoxprox.Proofs.Uploads
import Dockfoxprox.Proofs.Session
import Dockfoxprox.Proofs.Rejection
import Dockfoxprox.Proofs.Fill
import Dockfoxprox.Proofs.Manifests
import Dockfoxprox.Proofs.Router
import Dockfoxprox.Proofs.Collector
import Dockfoxprox.Proofs.Resp
import Dockfoxprox.Proofs.Alloc
import Dockfoxprox.Proofs.Scanner
import Dockfoxprox.Proofs.Boundaries
import Dockfoxprox.Proofs.Challenge
import Dockfoxprox.Proofs.Accept
import Dockfoxprox.Proofs.Pull
import Dockfoxprox.Proofs.Pulls
import Dockfoxprox.Proofs.Credentials
import Dockfoxprox.Proofs.Server
import Dockfoxprox.Proofs.Outgoing
import Dockfoxprox.Proofs.Discretion
import Dockfoxprox.Proofs.Conn
import Dockfoxprox.Proofs.Tags
import Dockfoxprox.Proofs.Cache
import Dockfoxprox.Proofs.Backing
import Dockfoxprox.Proofs.Serial
import Dockfoxprox.Proofs.RedisMap
import Dockfoxprox.Proofs.Leaks
import Dockfoxprox.Proofs.SpillSize
import Dockfoxprox.Proofs.Tiers
import Dockfoxprox.Proofs.Digest
import Dockfoxprox.Proofs.ReadBack
import Dockfoxprox.Proofs.Loading
import Dockfoxprox.Proofs.Saving
import Dockfoxprox.Proofs.Metadata
import Dockfoxprox.Proofs.Refresh
import Dockfoxprox.Proofs.Restart
import Dockfoxprox.Proofs.Node
import Dockfoxprox.Proofs.Provenance
import Dockfoxprox.Proofs.Lives
import Dockfoxprox.Proofs.References
import Dockfoxprox.Proofs.Budgets
import Dockfoxprox.Proofs.DiskBudget
import Dockfoxprox.Proofs.SharedBlobs
import Dockfoxprox.Proofs.Reordered
import Dockfoxprox.Proofs.Lockstep
import Dockfoxprox.Proofs.Order
import Dockfoxprox.Proofs.Progress
import Dockfoxprox.Proofs.Integrity
import Dockfoxprox.Proofs.Genuine
import Dockfoxprox.Proofs.Wire
import Dockfoxprox.Proofs.EvictLoop
import Dockfoxprox.Proofs.LoopRest
import Dockfoxprox.Proofs.Accounting
