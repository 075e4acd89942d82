import CachePool.Refusal
import CachePool.Word

/-!
# Configuration of a two-generation cache

The capacity is raised to the configured floor and to at least two, and then
split between the generations. The split passes through floating point, but each
generation gets at least one slot and the two add up exactly
(`CacheConfig.youngSlots_add_oldSlots`), whatever the ratio.
-/

namespace CachePool

open Decimal Text

/-- What a cache is built from. -/
structure CacheConfig where
  /-- The number of entries across both generations. -/
  capacity : Size
  /-- The share of the old generation, strictly between zero and one. -/
  oldRatio : Float := 0.75
  /-- The hits that a young entry needs before it is promoted. -/
  promotionThreshold : UInt32 := 10
  /-- A floor under the capacity. -/
  minCapacity : Size := .one
  deriving BEq

namespace CacheConfig

/-- The smallest capacity with a slot for each generation. -/
def leastCapacity : Size := ⟨2, by decide, by decide⟩

/-- The ratio is checked first, then the threshold. -/
def check (c : CacheConfig) : Except Refusal Unit :=
  if !(0 < c.oldRatio && c.oldRatio < 1) then .error (.ratioOutOfRange c.oldRatio)
  else if c.promotionThreshold = 0 then .error .zeroThreshold
  else .ok ()

/-- The capacity after the configured floor and the floor of two. -/
def totalCapacity (c : CacheConfig) : Size :=
  max (max c.capacity c.minCapacity) leastCapacity

/-- The share of the old generation, cut to a whole number and into the range of words. -/
def oldShare (c : CacheConfig) : Nat :=
  (c.totalCapacity.toWord.toFloat * c.oldRatio).toUInt64.toNat

/-- The slots of the old generation: its share, but at least one and not all. -/
def oldSlots (c : CacheConfig) : Nat :=
  min (max c.oldShare 1) (c.totalCapacity.val - 1)

/-- The slots of the young generation: those that are left. -/
def youngSlots (c : CacheConfig) : Nat := c.totalCapacity.val - c.oldSlots

/-- There is room for both generations. -/
theorem two_le_totalCapacity (c : CacheConfig) : 2 ≤ c.totalCapacity.val := by
  rw [totalCapacity, Size.val_max]
  exact Nat.le_max_right _ _

/-- The old generation has a slot. -/
theorem oldSlots_pos (c : CacheConfig) : 0 < c.oldSlots := by
  have h := c.two_le_totalCapacity
  unfold oldSlots
  omega

/-- The old generation leaves a slot. -/
theorem oldSlots_lt (c : CacheConfig) : c.oldSlots < c.totalCapacity.val := by
  have h := c.two_le_totalCapacity
  unfold oldSlots
  omega

/-- The two generations use up the capacity. -/
theorem youngSlots_add_oldSlots (c : CacheConfig) :
    c.youngSlots + c.oldSlots = c.totalCapacity.val := by
  have h := c.oldSlots_lt
  unfold youngSlots
  omega

/-- The capacity of the young generation. -/
def youngCapacity (c : CacheConfig) : Size :=
  ⟨c.youngSlots, by
    have h := c.youngSlots_add_oldSlots
    have ho := c.oldSlots_lt
    omega, by
    have h := c.youngSlots_add_oldSlots
    have hl := c.totalCapacity.lt
    omega⟩

/-- The capacity of the old generation. -/
def oldCapacity (c : CacheConfig) : Size :=
  ⟨c.oldSlots, c.oldSlots_pos, by
    have ho := c.oldSlots_lt
    have hl := c.totalCapacity.lt
    omega⟩

/-- The configuration with the capacity that is in force. -/
def normalized (c : CacheConfig) : CacheConfig :=
  { c with capacity := c.totalCapacity }

/-! ## The split in words -/

/-- The capacity as words compute it, with one where it would be zero. -/
def effectiveCapacity (c : CacheConfig) : Size :=
  .orOne (max (max c.capacity.toWord c.minCapacity.toWord) 2)

/-- The words of the young and the old generation out of a capacity of which the share is to be old.
Every step is checked. -/
def divide (total share : UInt64) : Except Fault (UInt64 × UInt64) := do
  let most ← Counter.subtract total 1
  let old ← Counter.clamp share 1 most
  let young ← Counter.subtract total old
  return (young, old)

/-- The sizes of the young and the old generation, with one where a word would be zero. -/
def generationSizes (c : CacheConfig) : Except Fault (Size × Size) := do
  let total := c.effectiveCapacity.toWord
  let (young, old) ← divide total (total.toFloat * c.oldRatio).toUInt64
  return (.orOne young, .orOne old)

/-- The described shape of a configuration. -/
def outline (c : CacheConfig) : Outline :=
  .record "GenerationalCacheConfig" [
    ("capacity", .number c.capacity.val),
    ("old_ratio", .word (Style.exact.write c.oldRatio)),
    ("promotion_threshold", .number c.promotionThreshold.toNat),
    ("min_capacity", .number c.minCapacity.val)]

end CacheConfig

end CachePool
