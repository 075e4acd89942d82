import CachePool.Report
import CachePool.Text.Outline
import CachePool.Word

/-!
# Metrics of a two-generation cache

Eleven counters grow for the life of a cache, two gauges follow the sizes of its
generations, and one holds the capacity of the old one. Each is addressed by a
`Counter`, so that a recorded event is the list of counters it raises. A counter
that would leave its word stops the event, and the counters raised before it stay
raised.
-/

namespace CachePool

open Text

namespace Metrics

/-- The measurements that a cache keeps. -/
inductive Counter where
  | requests
  | cacheHits
  | insertions
  | updates
  | evictions
  | removals
  | youngSize
  | oldSize
  | oldCapacity
  | promotions
  | demotions
  | youngHits
  | oldHits
  | expired
  deriving DecidableEq

namespace Counter

/-- The name under which a measurement is reported. -/
def name : Counter → String
  | requests => "requests"
  | cacheHits => "cache_hits"
  | insertions => "insertions"
  | updates => "updates"
  | evictions => "evictions"
  | removals => "removals"
  | youngSize => "young_size"
  | oldSize => "old_size"
  | oldCapacity => "old_capacity"
  | promotions => "promotions"
  | demotions => "demotions"
  | youngHits => "young_hits"
  | oldHits => "old_hits"
  | expired => "expired"

/-- The measurements that any cache has, in the order of their description. -/
def core : List Counter := [requests, cacheHits, insertions, updates, evictions, removals]

/-- The measurements that speak of generations, in the order of their description. -/
def generational : List Counter :=
  [youngSize, oldSize, oldCapacity, promotions, demotions, youngHits, oldHits, expired]

/-- All measurements. -/
def all : List Counter := core ++ generational

/-- The measurement of a name. -/
def ofName? (name : String) : Option Counter := all.find? fun c => c.name = name

end Counter

end Metrics

open Metrics

/-- The values of all measurements of a cache. -/
structure CacheMetrics where
  /-- Lookups that count: hits and misses. -/
  requests : UInt64 := 0
  /-- Lookups that found their key. -/
  cacheHits : UInt64 := 0
  /-- Keys that entered the cache. -/
  insertions : UInt64 := 0
  /-- Values that were overwritten. -/
  updates : UInt64 := 0
  /-- Entries that the young generation gave up for want of room. -/
  evictions : UInt64 := 0
  /-- Entries that were removed on demand. -/
  removals : UInt64 := 0
  /-- Entries in the young generation. -/
  youngSize : UInt64 := 0
  /-- Entries in the old generation. -/
  oldSize : UInt64 := 0
  /-- Slots of the old generation. -/
  oldCapacity : UInt64 := 0
  /-- Entries that moved from young to old. -/
  promotions : UInt64 := 0
  /-- Entries that moved from old to young. -/
  demotions : UInt64 := 0
  /-- Hits on young entries. -/
  youngHits : UInt64 := 0
  /-- Hits on old entries. -/
  oldHits : UInt64 := 0
  /-- Entries dropped because their value was gone. -/
  expired : UInt64 := 0
  deriving DecidableEq

namespace CacheMetrics

/-- The value of a measurement. -/
def get (m : CacheMetrics) : Counter → UInt64
  | .requests => m.requests
  | .cacheHits => m.cacheHits
  | .insertions => m.insertions
  | .updates => m.updates
  | .evictions => m.evictions
  | .removals => m.removals
  | .youngSize => m.youngSize
  | .oldSize => m.oldSize
  | .oldCapacity => m.oldCapacity
  | .promotions => m.promotions
  | .demotions => m.demotions
  | .youngHits => m.youngHits
  | .oldHits => m.oldHits
  | .expired => m.expired

/-- Give a measurement a new value. -/
def set (m : CacheMetrics) (value : UInt64) : Counter → CacheMetrics
  | .requests => { m with requests := value }
  | .cacheHits => { m with cacheHits := value }
  | .insertions => { m with insertions := value }
  | .updates => { m with updates := value }
  | .evictions => { m with evictions := value }
  | .removals => { m with removals := value }
  | .youngSize => { m with youngSize := value }
  | .oldSize => { m with oldSize := value }
  | .oldCapacity => { m with oldCapacity := value }
  | .promotions => { m with promotions := value }
  | .demotions => { m with demotions := value }
  | .youngHits => { m with youngHits := value }
  | .oldHits => { m with oldHits := value }
  | .expired => { m with expired := value }

/-- A new value is seen under its own measurement and nowhere else. -/
theorem get_set (m : CacheMetrics) (value : UInt64) (c d : Counter) :
    (m.set value c).get d = if d = c then value else m.get d := by
  cases c <;> cases d <;> rfl

/-- Raise a counter by one. -/
def bump (c : Counter) : Action CacheMetrics Unit := fun m =>
  match Counter.add (m.get c) 1 with
  | .ok value => .ok () (m.set value c)
  | .error fault => .error fault m

/-- A lookup found its key. -/
def countHit : Action CacheMetrics Unit := do
  bump .requests
  bump .cacheHits

/-- A lookup did not find its key. -/
def countMiss : Action CacheMetrics Unit := bump .requests

/-- A lookup found its key in the young generation. -/
def countYoungHit : Action CacheMetrics Unit := do
  countHit
  bump .youngHits

/-- A lookup found its key in the old generation. -/
def countOldHit : Action CacheMetrics Unit := do
  countHit
  bump .oldHits

/-- The sizes of the generations as they are now. -/
def withSizes (m : CacheMetrics) (young old : UInt64) : CacheMetrics :=
  { m with youngSize := young, oldSize := old }

/-- The share of lookups that found their key. -/
def hitRate (m : CacheMetrics) : Float := ratio m.cacheHits m.requests

/-- The lookups that did not find their key, a fault if more hits than lookups were counted. -/
def misses (m : CacheMetrics) : Except Fault UInt64 := Counter.subtract m.requests m.cacheHits

/-- The share of lookups that did not find their key. -/
def missRate (m : CacheMetrics) : Except Fault Float :=
  if 0 < m.requests then do
    let misses ← m.misses
    return ratio misses m.requests
  else
    return 0

/-- The share of hits that the old generation served. -/
def oldHitRatio (m : CacheMetrics) : Float := ratio m.oldHits m.cacheHits

/-- The share of the old generation that is in use. -/
def oldUtilization (m : CacheMetrics) : Float := ratio m.oldSize m.oldCapacity

/-- The measurements that any cache reports. -/
def coreMeasurements (m : CacheMetrics) : Except Fault (List (String × Float)) := do
  let misses ← m.misses
  let missRate ← m.missRate
  return Counter.core.map (fun c => (c.name, (m.get c).toFloat)) ++
    [("cache_misses", misses.toFloat), ("hit_rate", m.hitRate), ("miss_rate", missRate)] ++
    if 0 < m.requests then [("eviction_rate", ratio m.evictions m.requests)] else []

/-- The report that any cache can give. -/
def coreReport (m : CacheMetrics) : Except Fault Report :=
  Report.ofMeasurements <$> m.coreMeasurements

/-- The report with the measurements of the generations. -/
def report (m : CacheMetrics) : Except Fault Report := do
  let core ← m.coreMeasurements
  return Report.ofMeasurements <| core ++
    Counter.generational.map (fun c => (c.name, (m.get c).toFloat)) ++
    [("old_utilization", m.oldUtilization), ("old_hit_ratio", m.oldHitRatio)] ++
    if 0 < m.requests then [("promotion_rate", ratio m.promotions m.requests)] else []

/-- The name of the replacement policy that these metrics belong to. -/
def policyName : String := "Generational"

/-- The described shape of the metrics. -/
def outline (m : CacheMetrics) : Outline :=
  let fields (cs : List Counter) := cs.map fun c => (c.name, Outline.number (m.get c).toNat)
  .record "GenerationalCacheMetrics" <|
    ("core", .record "CoreCacheMetrics" (fields Counter.core)) :: fields Counter.generational

end CacheMetrics

end CachePool
