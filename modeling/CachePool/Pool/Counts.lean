import CachePool.Report
import CachePool.Text.Outline
import CachePool.Word

/-!
# Counters of a pool

A snapshot holds four lifetime counters. Snapshots of several pools are added
field by field, in a fixed order; the first sum that leaves its word stops the
addition, and the fields added before it stay added.
-/

namespace CachePool

open Text

/-- A snapshot of what a pool has done. -/
structure PoolCounts where
  /-- Payloads built because nothing reusable was parked. -/
  creates : UInt64 := 0
  /-- Payloads asked for. -/
  acquires : UInt64 := 0
  /-- Payloads handed back. -/
  releases : UInt64 := 0
  /-- Payloads that the pool gave up. -/
  destroyed : UInt64 := 0
  deriving DecidableEq

namespace PoolCounts

/-- The payloads that were handed out again instead of built anew. -/
def recycled (s : PoolCounts) : UInt64 :=
  if s.creates ≤ s.acquires then s.acquires - s.creates else 0

/-- The share of requests that a parked payload served. -/
def reuseRate (s : PoolCounts) : Float := ratio s.recycled s.acquires

/-- The report of a pool. -/
def report (s : PoolCounts) : Report :=
  Report.ofMeasurements [
    ("creates", s.creates.toFloat),
    ("acquires", s.acquires.toFloat),
    ("releases", s.releases.toFloat),
    ("destroyed", s.destroyed.toFloat),
    ("recycled", s.recycled.toFloat),
    ("reuse_rate", s.reuseRate)]

/-- The described shape of a snapshot. -/
def outline (s : PoolCounts) : Outline :=
  .record "PoolStats" [
    ("creates", .number s.creates.toNat),
    ("acquires", .number s.acquires.toNat),
    ("releases", .number s.releases.toNat),
    ("destroyed", .number s.destroyed.toNat)]

/-- Add a snapshot onto the one held as state, one field after the other. -/
def accumulate (b : PoolCounts) : Action PoolCounts Unit := fun a =>
  match Counter.add a.creates b.creates with
  | .error fault => .error fault a
  | .ok creates =>
    let a := { a with creates }
    match Counter.add a.acquires b.acquires with
    | .error fault => .error fault a
    | .ok acquires =>
      let a := { a with acquires }
      match Counter.add a.releases b.releases with
      | .error fault => .error fault a
      | .ok releases =>
        let a := { a with releases }
        match Counter.add a.destroyed b.destroyed with
        | .error fault => .error fault a
        | .ok destroyed => .ok () { a with destroyed }

/-- The sum of two snapshots. -/
def add (a b : PoolCounts) : Except Fault PoolCounts :=
  match accumulate b a with
  | .ok () total => .ok total
  | .error fault _ => .error fault

/-- The sum of a list of snapshots, from the first on. -/
def sum (stats : List PoolCounts) : Except Fault PoolCounts :=
  stats.foldlM add {}

end PoolCounts

end CachePool
