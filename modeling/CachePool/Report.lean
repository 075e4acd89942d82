/-!
# Reports of named measurements

A report lists measurements by name, in the order of the names.
-/

namespace CachePool

/-- Named measurements in the order of their names. -/
abbrev Report := List (String × Float)

/-- The report of measurements that were taken in any order. -/
def Report.ofMeasurements (measurements : List (String × Float)) : Report :=
  measurements.mergeSort fun a b => a.1 ≤ b.1

/-- The share of a whole, and nothing of an empty whole. -/
def ratio (part whole : UInt64) : Float :=
  if 0 < whole then part.toFloat / whole.toFloat else 0

end CachePool
