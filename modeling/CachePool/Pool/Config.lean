import CachePool.Text.Outline
import CachePool.Word

/-!
# Configuration of pools

A sharded pool splits its capacity evenly and rounds each share up, so that the
shards together never hold less than was asked for.
-/

namespace CachePool

open Text

/-- What a pool is built from. -/
structure PoolConfig where
  /-- The largest number of payloads parked at once. -/
  capacity : Size
  deriving BEq

/-- The described shape of a configuration. -/
def PoolConfig.outline (c : PoolConfig) : Outline :=
  .record "PoolConfig" [("capacity", .number c.capacity.val)]

/-- What a sharded pool is built from. -/
structure ShardingConfig where
  /-- The largest number of payloads parked at once, across all shards. -/
  capacity : Size
  /-- The number of shards, or the default of the machine. -/
  shards : Option Size := none
  deriving BEq

namespace ShardingConfig

/-- The least share with which the shards together reach the capacity. -/
def shardCapacity (c : ShardingConfig) (shards : Size) : Size :=
  ⟨(c.capacity.val + shards.val - 1) / shards.val, by
    have hc := c.capacity.pos
    exact Nat.div_pos (by omega) shards.pos, by
    have hc := c.capacity.pos
    have hs := shards.pos
    refine Nat.lt_of_le_of_lt ?_ c.capacity.lt
    rw [Nat.div_le_iff_le_mul_add_pred hs]
    have hm : c.capacity.val ≤ shards.val * c.capacity.val := Nat.le_mul_of_pos_left _ hs
    omega⟩

/-- The described shape of a configuration. -/
def outline (c : ShardingConfig) : Outline :=
  .record "ShardedPoolConfig" [
    ("capacity", .number c.capacity.val),
    ("shards", match c.shards with
      | none => .word "None"
      | some n => .tuple "Some" [.number n.val])]

end ShardingConfig

end CachePool
