import CachePool.Pool.Basic

/-!
# Sharded pools

A sharded pool is a fixed number of independent pools under one manager. Clients
work through handles, each bound to one shard for good; new handles are bound to
the shards in turn.
-/

namespace CachePool

open Text

/-- A client's binding to one of the shards. -/
abbrev Handle (shards : Size) := Fin shards.val

/-- Independent pools, as many as there are shards. -/
structure ShardedPool (τ : Type) (shards : Size) where
  pools : Vector (Pool τ) shards.val
  /-- The number of handles bound so far, modulo the word. -/
  bound : UInt64 := 0

namespace ShardedPool

variable {μ τ ρ : Type} {shards : Size}

/-- The number of shards where the machine does not say how many suit it. -/
def fallbackShards : Size := ⟨16, by decide, by decide⟩

/-- Pools of the same capacity in every shard. -/
def ofShardCapacity (shards shardCapacity : Size) : ShardedPool τ shards where
  pools := .replicate shards.val (.ofConfig { capacity := shardCapacity })

/-- The number of shards where none is configured: as many as the machine can work on at once, if it
says so. -/
def defaultShards (parallelism : Option Size) : Size := parallelism.getD fallbackShards

/-- The number of shards of a configuration on a machine. -/
def shardsOf (config : ShardingConfig) (parallelism : Option Size) : Size :=
  config.shards.getD (defaultShards parallelism)

/-- Pools of a configuration on a machine, each with an equal share of the capacity. -/
def ofConfig (config : ShardingConfig) (parallelism : Option Size := none) :
    ShardedPool τ (shardsOf config parallelism) :=
  ofShardCapacity (shardsOf config parallelism)
    (config.shardCapacity (shardsOf config parallelism))

/-- The configuration of a capacity and a number of shards, unless one of them is zero. -/
def configOf (capacity shards : Nat) : Except Refusal ShardingConfig :=
  match Size.ofNat? capacity, Size.ofNat? shards with
  | none, _ => .error .zeroCapacity
  | _, none => .error .zeroShards
  | some capacity, some shards => .ok { capacity, shards := some shards }

/-- Bind a handle to the next shard in turn. -/
def handle (p : ShardedPool τ shards) : Handle shards × ShardedPool τ shards :=
  (⟨p.bound.toNat % shards.val, Nat.mod_lt _ shards.pos⟩, { p with bound := p.bound + 1 })

/-- The pool of a shard. -/
def shard (p : ShardedPool τ shards) (h : Handle shards) : Pool τ := p.pools[h]

/-- Replace the pool of a shard. -/
def putShard (p : ShardedPool τ shards) (h : Handle shards) (shard : Pool τ) :
    ShardedPool τ shards :=
  { p with pools := p.pools.set h shard }

/-- Act on the shard of a handle. -/
def onShard (h : Handle shards) (action : Action (Pool τ × μ) ρ) :
    Action (ShardedPool τ shards × μ) ρ :=
  action.within (fun (p, m) => (p.shard h, m)) fun (p, _) (shard, m) => (p.putShard h shard, m)

/-- Ask the shard of a handle for a payload. -/
def acquire (manager : Manager μ τ) (h : Handle shards) :
    Action (ShardedPool τ shards × μ) τ :=
  onShard h (Pool.acquire manager)

/-- Hand a payload back to the shard of a handle. -/
def release (manager : Manager μ τ) (h : Handle shards) (payload : τ) :
    Action (ShardedPool τ shards × μ) Unit :=
  onShard h (Pool.release manager payload)

/-- End the pools, from the first shard on. -/
def drain (manager : Manager μ τ) : Action (ShardedPool τ shards × μ) Unit :=
  (List.finRange shards.val).forM fun h => onShard h (Pool.drain manager)

/-- The capacity of each shard. -/
def shardCapacity (p : ShardedPool τ shards) : Nat :=
  (p.pools.get ⟨0, shards.pos⟩).capacity.val

/-- The payloads that all shards can park together. -/
def capacity (p : ShardedPool τ shards) : Nat :=
  (p.pools.toList.map (·.capacity.val)).foldr (· + ·) 0

/-- The payloads parked in all shards. -/
def idle (p : ShardedPool τ shards) : Nat :=
  (p.pools.toList.map (·.idle.toNat)).foldr (· + ·) 0

/-- The counters of a shard, if there is one of that number. -/
def shardStats (p : ShardedPool τ shards) (shard : Nat) : Option PoolCounts :=
  p.pools[shard]?.map (·.stats)

/-- The counters of all shards together. -/
def stats (p : ShardedPool τ shards) : Except Fault PoolCounts :=
  PoolCounts.sum (p.pools.toList.map (·.stats))

/-- The described shape of a sharded pool. -/
def outline (p : ShardedPool τ shards) : Except Fault Outline := do
  let stats ← p.stats
  return .record "ShardedPool" [
    ("shards", .number shards.val),
    ("shard_capacity", .number p.shardCapacity),
    ("stats", stats.outline)]

/-- The described shape of a handle. -/
def handleOutline (h : Handle shards) : Outline :=
  .record "ShardHandle" [("shard", .number h.val)]

end ShardedPool

end CachePool
