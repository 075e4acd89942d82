import CachePool.Pool.Sharded
import CachePool.Proofs.Pool.Refinement
import Mathlib.Algebra.BigOperators.Fin

/-!
# Calls to sharded pools

A call through a handle is a call to the pool of its shard and touches no other pool,
and to bind a handle touches none at all. The pools are read by their shards.
-/

namespace CachePool

/-- A call to a sharded pool. -/
inductive ShardedCall (τ : Type) (shards : Size) where
  /-- Bind a handle. -/
  | bind
  /-- Make a call through a handle. -/
  | through (h : Handle shards) (call : PoolCall τ)

namespace ShardedPool

variable {μ τ β : Type} {shards : Size}

/-- Make a call; binding answers with the handle, and an acquire with a payload. -/
def perform (manager : Manager μ τ) :
    ShardedCall τ shards → Action (ShardedPool τ shards × μ) (Handle shards ⊕ Option τ)
  | .bind => fun (p, m) => .ok (.inl p.handle.1) (p.handle.2, m)
  | .through h .acquire => do
    let payload ← acquire manager h
    return .inr (some payload)
  | .through h (.release payload) => do
    release manager h payload
    return .inr none

/-- Make calls one after the other, each of which answers or stops at a fault. -/
def run (manager : Manager μ τ) (calls : List (ShardedCall τ shards))
    (s : ShardedPool τ shards × μ) :
    List (Except Fault (Handle shards ⊕ Option τ)) × (ShardedPool τ shards × μ) :=
  Action.attemptAll (perform manager) calls s

variable (p : ShardedPool τ shards) (h : Handle shards) (m : μ)

theorem shard_putShard (k : Handle shards) (pool : Pool τ) :
    (p.putShard h pool).shard k = if k = h then pool else p.shard k := by
  simp [shard, putShard, Vector.getElem_set, Fin.ext_iff, eq_comm]

/-- To act on a shard is to act on its pool. -/
theorem attempt_onShard {ρ : Type} (action : Action (Pool τ × μ) ρ) :
    (onShard h action).attempt (p, m) =
      ((action.attempt (p.shard h, m)).1,
        p.putShard h (action.attempt (p.shard h, m)).2.1,
        (action.attempt (p.shard h, m)).2.2) := by
  rw [onShard, Action.attempt_within]

/-- A call through a handle is one to the pool of its shard. -/
theorem attempt_through (manager : Manager μ τ) (call : PoolCall τ) :
    (perform manager (.through h call)).attempt (p, m) =
      (((Pool.perform manager call).attempt (p.shard h, m)).1.map .inr,
        p.putShard h ((Pool.perform manager call).attempt (p.shard h, m)).2.1,
        ((Pool.perform manager call).attempt (p.shard h, m)).2.2) := by
  cases call with
  | acquire =>
    rw [perform, Pool.perform, acquire, Action.attempt_bind_pure, Action.attempt_bind_pure,
      attempt_onShard]
    cases ((Pool.acquire manager).attempt (p.shard h, m)).1 <;> rfl
  | release payload =>
    rw [perform, Pool.perform, release, Action.attempt_bind_pure, Action.attempt_bind_pure,
      attempt_onShard]
    cases ((Pool.release manager payload).attempt (p.shard h, m)).1 <;> rfl

/-- The pools in their order are those of the shards. -/
theorem map_pools (f : Pool τ → β) :
    p.pools.toList.map f = (List.finRange shards.val).map fun h => f (p.shard h) := by
  apply List.ext_getElem
  · simp
  · intro k hk hk'
    simp [shard]

end ShardedPool

end CachePool
