import CachePool.Pool.Counts

/-!
# Sessions with snapshots of pools

A list of snapshots is added up in three ways: as a sum from the first on, as a
sum from the last on, and step by step onto one accumulator, which shows how far
an addition got that stopped at a fault.
-/

namespace CachePool.Session

/-- The steps of adding snapshots onto an accumulator, and the accumulator after each. -/
def accumulateAll (stats : List PoolCounts) : List (Except Fault Unit × PoolCounts) :=
  let step (s : PoolCounts) : StateM PoolCounts (Except Fault Unit × PoolCounts) := fun total =>
    let (reply, total) := (PoolCounts.accumulate s).attempt total
    ((reply, total), total)
  ((stats.mapM step).run {}).1

/-- The transcript of adding up snapshots. -/
structure PoolCountsTranscript where
  sum : Except Fault PoolCounts
  backwards : Except Fault PoolCounts
  steps : List (Except Fault Unit × PoolCounts)

/-- Add up snapshots. -/
def addUp (stats : List PoolCounts) : PoolCountsTranscript :=
  ⟨PoolCounts.sum stats, PoolCounts.sum stats.reverse, accumulateAll stats⟩

end CachePool.Session
