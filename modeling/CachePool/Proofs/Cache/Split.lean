import CachePool.Cache.Basic

/-!
# The split of the capacity

The share of the old generation comes out of floating point, so nothing is known about
it: the ratio may be no number, infinite, negative or above one, and a capacity that a
word can count may not be one that floating point can. Whatever word it is, the checked
steps of the split answer, both generations get a slot, and the two use up the capacity.
A configuration with its capacity in force is split like the one that it was made from.
-/

namespace CachePool

namespace CacheConfig

/-- The words that a share divides a capacity into: every step answers, neither word is zero, and
the old generation gets its share as far as that leaves a slot to each. -/
structure Divides (total : Size) (share young old : UInt64) : Prop where
  answers : divide total.toWord share = .ok (young, old)
  young_pos : 1 ≤ young.toNat
  old_pos : 1 ≤ old.toNat
  sum : young.toNat + old.toNat = total.val
  old_eq : old.toNat = max 1 (min share.toNat (total.val - 1))

theorem exists_word {n : Nat} (h : n < UInt64.size) : ∃ a : UInt64, a.toNat = n :=
  ⟨.ofNat n, UInt64.toNat_ofNat_of_lt' h⟩

/-- A capacity of two or more is divided by every share, be it nothing or more than there is. -/
theorem exists_divides {total : Size} (h : 2 ≤ total.val) (share : UInt64) :
    ∃ young old, Divides total share young old := by
  have hword := total.toNat_toWord
  have hsize := total.lt
  have hone : (1 : UInt64).toNat = 1 := rfl
  obtain ⟨most, hmost⟩ := exists_word (n := total.val - 1) (by omega)
  obtain ⟨old, hold⟩ := exists_word (n := max 1 (min share.toNat (total.val - 1))) (by omega)
  obtain ⟨young, hyoung⟩ := exists_word (n := total.val - old.toNat) (by omega)
  have hfirst : Counter.subtract total.toWord 1 = .ok most :=
    Counter.subtract_eq_ok_iff.mpr (by omega)
  have hsecond : Counter.clamp share 1 most = .ok old :=
    Counter.clamp_eq_ok_iff.mpr (by omega)
  have hthird : Counter.subtract total.toWord old = .ok young :=
    Counter.subtract_eq_ok_iff.mpr (by omega)
  refine ⟨young, old, ?_, by omega, by omega, by omega, hold⟩
  simp only [divide, hfirst, hsecond, hthird, bind, Except.bind]
  rfl

/-- The floors are applied in words as they are to sizes, and leave no zero to be replaced. -/
theorem toNat_effectiveWord (c : CacheConfig) :
    (max (max c.capacity.toWord c.minCapacity.toWord) 2).toNat = c.totalCapacity.val := by
  have htwo : (2 : UInt64).toNat = 2 := rfl
  rw [Counter.toNat_max, Counter.toNat_max, Size.toNat_toWord, Size.toNat_toWord, htwo,
    totalCapacity, Size.val_max, Size.val_max]
  rfl

/-- The capacity that words compute is the one in force. -/
theorem effectiveCapacity_eq (c : CacheConfig) : c.effectiveCapacity = c.totalCapacity :=
  Size.orOne_eq c.toNat_effectiveWord

/-- A capacity in force is raised no further. -/
theorem totalCapacity_normalized (c : CacheConfig) :
    c.normalized.totalCapacity = c.totalCapacity := by
  apply Size.ext
  simp only [normalized, totalCapacity, Size.val_max]
  omega

/-- The split is that of the capacity in force and of the ratio, and of nothing else. -/
theorem generationSizes_normalized (c : CacheConfig) :
    c.normalized.generationSizes = c.generationSizes := by
  simp only [generationSizes, effectiveCapacity_eq, totalCapacity_normalized]
  rfl

/-- The share of the old generation in the capacity in force, as a word. -/
def shareWord (c : CacheConfig) : UInt64 := (c.totalCapacity.toWord.toFloat * c.oldRatio).toUInt64

/-- The words that the share divides the capacity into count what the two lists get. -/
theorem Divides.eq_slots {c : CacheConfig} {young old : UInt64}
    (h : Divides c.totalCapacity c.shareWord young old) :
    young.toNat = c.youngCapacity.val ∧ old.toNat = c.oldCapacity.val := by
  have hslots := c.youngSlots_add_oldSlots
  have hleast := c.two_le_totalCapacity
  have hold : old.toNat = c.oldSlots := by
    rw [h.old_eq, oldSlots, oldShare, ← shareWord]
    omega
  have hsum := h.sum
  have hyoung : young.toNat = c.youngSlots := by omega
  exact ⟨hyoung, hold⟩

/-- The split in words: its steps answer for the share at hand, and its words are the sizes of the
two generations as they are, so that no size is replaced by one. -/
structure SplitsExactly (c : CacheConfig) (young old : UInt64) : Prop where
  divides : Divides c.totalCapacity c.shareWord young old
  young : Size.ofNat? young.toNat = some c.youngCapacity
  old : Size.ofNat? old.toNat = some c.oldCapacity
  sizes : c.generationSizes = .ok (c.youngCapacity, c.oldCapacity)

theorem exists_splitsExactly (c : CacheConfig) : ∃ young old, SplitsExactly c young old := by
  obtain ⟨young, old, hdivides⟩ := exists_divides c.two_le_totalCapacity c.shareWord
  obtain ⟨hyoung, hold⟩ := hdivides.eq_slots
  refine ⟨young, old, hdivides, Size.ofNat?_eq_some_iff.mpr hyoung.symm,
    Size.ofNat?_eq_some_iff.mpr hold.symm, ?_⟩
  have hanswers := hdivides.answers
  rw [shareWord] at hanswers
  simp only [generationSizes, effectiveCapacity_eq, hanswers, ← Size.orOne_eq hyoung,
    ← Size.orOne_eq hold]
  rfl

/-- The split of a configuration never stops, replaces no zero, and is exact; the configuration with
its capacity in force has the same capacity and the same split. -/
structure SplitsSafely (c : CacheConfig) : Prop where
  capacity_eq : c.effectiveCapacity.val = max (max c.capacity.val c.minCapacity.val) 2
  /-- The capacity in words is a size as it is. -/
  effective : Size.ofNat? (max (max c.capacity.toWord c.minCapacity.toWord) 2).toNat =
    some c.effectiveCapacity
  total : c.totalCapacity = c.effectiveCapacity
  /-- Nothing hangs on the word that floating point answers with. -/
  divides : ∀ share, ∃ young old, Divides c.effectiveCapacity share young old
  exact : ∃ young old, SplitsExactly c young old
  sum : c.youngCapacity.val + c.oldCapacity.val = c.effectiveCapacity.val
  normalized : c.normalized.capacity = c.effectiveCapacity ∧
    c.normalized.effectiveCapacity = c.effectiveCapacity ∧
    c.normalized.generationSizes = c.generationSizes

/-- Every configuration is split safely, whatever its ratio is, and a cache that is built from it
has lists of the sizes that its own configuration is split into. -/
theorem splits_safely (c : CacheConfig) :
    c.SplitsSafely ∧ ∀ (κ α : Type) [DecidableEq κ] (hasher : Hasher κ),
      let cache : Cache κ α := .ofConfig c hasher
      cache.config = c.normalized ∧
        cache.config.generationSizes = .ok (cache.young.capacity, cache.old.capacity) := by
  have heffective := c.effectiveCapacity_eq
  have hword := c.toNat_effectiveWord
  obtain ⟨young, old, hsplit⟩ := c.exists_splitsExactly
  constructor
  · constructor
    case capacity_eq => rw [heffective, totalCapacity, Size.val_max, Size.val_max]; rfl
    case effective => rw [heffective, Size.ofNat?_eq_some_iff, hword]
    case total => exact heffective.symm
    case divides =>
      rw [heffective]
      exact exists_divides c.two_le_totalCapacity
    case exact => exact ⟨young, old, hsplit⟩
    case sum => rw [heffective]; exact c.youngSlots_add_oldSlots
    case normalized =>
      refine ⟨heffective.symm, ?_, c.generationSizes_normalized⟩
      rw [effectiveCapacity_eq, totalCapacity_normalized, heffective]
  · intro κ α _ hasher cache
    refine ⟨rfl, ?_⟩
    have hconfig : cache.config = c.normalized := rfl
    rw [hconfig, generationSizes_normalized, hsplit.sizes]
    rfl

/-- At the upper end of the words, a ratio that is no number leaves one slot to the old generation,
and an infinite one leaves one slot to the young. -/
example :
    let largest : Size := ⟨UInt64.size - 1, by decide, by decide⟩
    let noNumber : CacheConfig := { capacity := largest, oldRatio := .ofBits 0x7ff8000000000000 }
    let infinite : CacheConfig := { capacity := largest, oldRatio := .ofBits 0x7ff0000000000000 }
    noNumber.oldCapacity.val = 1 ∧ infinite.youngCapacity.val = 1 := by
  decide

end CacheConfig

end CachePool
