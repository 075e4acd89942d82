import CachePool.Pool.Sharded
import CachePool.Session.Pool

/-!
# Sessions with a sharded pool of probes

The session keeps its handles in the order in which they were made, and works on
the pool through them. All shards share one manager.
-/

namespace CachePool.Session

open PoolWorld Text

/-- A command of a session with a sharded pool; handles are named by their position. -/
inductive ShardedCommand where
  | bench (command : BenchCommand)
  /-- Make a handle. -/
  | handle
  /-- Copy a handle. -/
  | copy (position : Nat)
  | acquire (position : Nat)
  | release (position : Nat) (id : Nat)
  /-- Release a probe that the pool has not handed out. -/
  | releaseForeign (position : Nat) (p : Probe)
  | shardStats (shard : Nat)
  | handleStats (position : Nat)
  | describeHandle (position : Nat)
  | stats
  | describe (form : Form)

/-- A sharded pool and the handles that were made. -/
structure Fleet (shards : Size) where
  pool : ShardedPool Probe shards
  handles : List (Handle shards) := []

namespace Fleet

variable {shards : Size} {ρ : Type}

/-- Act on the pool of a fleet and its manager. -/
def onShards (action : Action (ShardedPool Probe shards × ProbeBench) ρ) :
    Action (Fleet shards × ProbeBench) ρ :=
  action.within (fun (f, b) => (f.pool, b)) fun (f, _) (pool, b) => ({ f with pool }, b)

/-- Keep one more handle. -/
def keep (f : Fleet shards) (h : Handle shards) : Fleet shards :=
  { f with handles := f.handles ++ [h] }

end Fleet

variable {shards : Size}

/-- Do something with the handle at a position. -/
def withHandle (position : Nat)
    (action : Handle shards → Action (PoolWorld (Fleet shards)) PoolReply) :
    Action (PoolWorld (Fleet shards)) PoolReply := do
  match (← get).pool.handles[position]? with
  | none => return .notHeld
  | some h => action h

/-- Keep one more handle and reply with its shard. -/
def keepHandle (h : Handle shards) : Action (PoolWorld (Fleet shards)) PoolReply := do
  modify fun w => { w with pool := w.pool.keep h }
  return .number h.val

/-- The reply to a command. -/
def ShardedCommand.reply (manager : Manager ProbeBench Probe) :
    ShardedCommand → Action (PoolWorld (Fleet shards)) PoolReply
  | .bench command => command.reply manager
  | .handle => do
    let next := (← get).pool.pool.handle
    modify fun w => { w with pool := { w.pool with pool := next.2 } }
    keepHandle next.1
  | .copy position => withHandle position keepHandle
  | .acquire position => withHandle position fun h => do
    let p ← onPool (Fleet.onShards (ShardedPool.acquire manager h))
    hold p
  | .release position id => withHandle position fun h => withHeld id fun p => do
    onPool (Fleet.onShards (ShardedPool.release manager h p))
    return .done
  | .releaseForeign position p => withHandle position fun h => do
    onPool (Fleet.onShards (ShardedPool.release manager h p))
    return .done
  | .shardStats shard => return .counters ((← get).pool.pool.shardStats shard)
  | .handleStats position => withHandle position fun h =>
    return .counters ((← get).pool.pool.shardStats h.val)
  | .describeHandle position => withHandle position fun h =>
    return .text (ShardedPool.handleOutline h).inline
  | .stats => do
    match (← get).pool.pool.stats with
    | .ok s => return .stats s
    | .error fault => throw fault
  | .describe form => do
    match (← get).pool.pool.outline with
    | .ok o => return .text (o.write form)
    | .error fault => throw fault

/-- Play commands on a sharded pool and end it. -/
def playSharded (manager : Manager ProbeBench Probe) (pool : ShardedPool Probe shards)
    (commands : List ShardedCommand) : PoolTranscript :=
  let play (command : ShardedCommand) :=
    playPoolCommand (fun f : Fleet shards => f.pool.idle) (fun f => f.pool.stats)
      (command.reply manager)
  let (lines, last) := (commands.mapM play).run { pool := { pool } }
  { lines, ending := poolEnding (Fleet.onShards (ShardedPool.drain manager)) last }

/-- Whether a pool whose shard count is left to the machine has that count, covers the capacity
asked for, and has the capacity of all its shards. -/
def defaultShardsReport (capacity : Size) (parallelism : Option Size := none) :
    Bool × Bool × Bool :=
  let config : ShardingConfig := { capacity }
  let pool : ShardedPool Probe (ShardedPool.shardsOf config parallelism) :=
    .ofConfig config parallelism
  let shards := (ShardedPool.shardsOf config parallelism).val
  (shards = (ShardedPool.defaultShards parallelism).val, capacity.val ≤ pool.capacity,
    pool.capacity = shards * pool.shardCapacity)

end CachePool.Session
