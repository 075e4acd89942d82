import CachePool.Cache.Model
import CachePool.Pool.Model
import CachePool.Session.Arena
import CachePool.Session.Metrics
import CachePool.Session.PoolCounts
import CachePool.Session.Shared
import CachePool.Session.Sharded
import CachePool.Session.Stack
import CachePool.Session.Weak
import CachePool.Proofs.Recency.Thread
import CachePool.Proofs.Recency.Sequence
import CachePool.Proofs.Index.Chains
import CachePool.Proofs.Cache.Sketch
import CachePool.Proofs.Cache.Steps
import CachePool.Proofs.Cache.Rules
import CachePool.Proofs.Cache.Portrait
import CachePool.Proofs.Cache.Transfers
import CachePool.Proofs.Cache.Settled
import CachePool.Proofs.Cache.Operations
import CachePool.Proofs.Cache.Consistency
import CachePool.Proofs.Cache.History
import CachePool.Proofs.Cache.Pairs
import CachePool.Proofs.Cache.Coherence
import CachePool.Proofs.Cache.RecencyOrder
import CachePool.Proofs.Cache.Hashing
import CachePool.Proofs.Cache.Ownership
import CachePool.Proofs.Cache.ScanResistance
import CachePool.Proofs.Lockstep
import CachePool.Proofs.Pool.Stack
import CachePool.Proofs.Pool.Layout
import CachePool.Proofs.Pool.Refinement
import CachePool.Proofs.Cache.Accounts
import CachePool.Proofs.Cache.Reset
import CachePool.Proofs.Cache.Lookups
import CachePool.Proofs.Cache.Interleaving
import CachePool.Proofs.Cache.Ripening
import CachePool.Proofs.Index.Buckets
import CachePool.Proofs.Index.Order
import CachePool.Proofs.Index.Shape
import CachePool.Proofs.Index.Map
import CachePool.Proofs.Recency.Family
import CachePool.Proofs.Recency.Touch
import CachePool.Proofs.Projection
import CachePool.Proofs.Pool.Chronicle
import CachePool.Proofs.Pool.Tally
import CachePool.Proofs.Pool.Course
import CachePool.Proofs.Pool.Slots
import CachePool.Proofs.Pool.Shards
import CachePool.Proofs.Pool.Ledger
import CachePool.Proofs.Pool.Disposal
import CachePool.Proofs.Pool.Recycling
import CachePool.Proofs.Pool.Clients
import CachePool.Proofs.Pool.Isolation
import CachePool.Proofs.Arena.Agreement
import CachePool.Proofs.Arena.Contract
import CachePool.Proofs.Arena.Misuse
import CachePool.Proofs.Arena.Commuting
import CachePool.Proofs.Cache.Expiry
import CachePool.Proofs.Pool.Sums
import CachePool.Proofs.Cache.Split
import CachePool.Proofs.Pool.Piles
import CachePool.Proofs.Pool.RoundRobin
import CachePool.Proofs.Arena.Iteration
import CachePool.Proofs.Index.Range
