import Mathlib.Algebra.Group.Nat.Defs
import Mathlib.Data.Nat.ModEq
import Mathlib.Order.Bounds.Defs
import CachePool.Index.Basic

/-!
# Bucket arithmetic

A request for buckets is rounded up to a power of two, or cut to the largest one that a
word can count. An index has a power of two of buckets, so the low bits of a hash, which
select its bucket, are the rest of the hash modulo the number of buckets.
-/

namespace CachePool

/-- Powers of two are what their name says. -/
theorem exists_leastPowerOfTwo (n : Nat) : ∃ k, leastPowerOfTwo n = 2 ^ k := by
  unfold leastPowerOfTwo
  by_cases h : n ≤ 1
  · rw [if_pos h]
    exact ⟨0, rfl⟩
  · rw [if_neg h]
    exact ⟨(n - 1).log2 + 1, Nat.one_shiftLeft _⟩

/-- Of the powers of two that are not below a number, it is the least. -/
theorem isLeast_leastPowerOfTwo (n : Nat) :
    IsLeast {m | n ≤ m ∧ ∃ k, m = 2 ^ k} (leastPowerOfTwo n) := by
  unfold leastPowerOfTwo
  by_cases h : n ≤ 1
  · rw [if_pos h]
    refine ⟨⟨h, 0, rfl⟩, ?_⟩
    rintro m ⟨-, k, rfl⟩
    exact Nat.two_pow_pos k
  · rw [if_neg h, Nat.one_shiftLeft]
    refine ⟨⟨?_, _, rfl⟩, ?_⟩
    · have hlt : n - 1 < 2 ^ ((n - 1).log2 + 1) := Nat.lt_log2_self
      omega
    · rintro m ⟨hm, k, rfl⟩
      have hlog : (n - 1).log2 < k := (Nat.log2_lt (by omega)).mpr (by omega)
      exact Nat.pow_le_pow_right Nat.two_pos hlog

/-- A number is rounded up to a word exactly if it is not above the largest power of two that is
one. -/
theorem leastPowerOfTwo_lt_size_iff {n : Nat} : leastPowerOfTwo n < UInt64.size ↔ n ≤ 2 ^ 63 := by
  obtain ⟨⟨hle, k, hk⟩, hleast⟩ := isLeast_leastPowerOfTwo n
  have hsize : UInt64.size = 2 ^ 64 := rfl
  constructor
  · intro hlt
    rw [hsize, hk, Nat.pow_lt_pow_iff_right (by decide)] at hlt
    rw [hk] at hle
    exact hle.trans (Nat.pow_le_pow_right Nat.two_pos (by omega))
  · intro hn
    have hbound : leastPowerOfTwo n ≤ 2 ^ 63 := hleast ⟨hn, 63, rfl⟩
    omega

/-- The largest power of two that is a word. -/
theorem isGreatest_word_power : IsGreatest {m | m < UInt64.size ∧ ∃ k, m = 2 ^ k} (2 ^ 63) := by
  refine ⟨⟨by decide, 63, rfl⟩, ?_⟩
  rintro m ⟨hm, k, rfl⟩
  have hk : k < 64 := (Nat.pow_lt_pow_iff_right (by decide)).mp hm
  exact Nat.pow_le_pow_right Nat.two_pos (by omega)

/-- A request for buckets is met by a power of two. -/
theorem exists_bucketsFor (requested : Size) : ∃ k, bucketsFor requested = 2 ^ k := by
  unfold bucketsFor
  simp only
  split
  · exact exists_leastPowerOfTwo _
  · exact ⟨63, Nat.one_shiftLeft 63⟩

/-- There is a bucket. -/
theorem bucketsFor_pos (requested : Size) : 0 < bucketsFor requested := by
  obtain ⟨k, hk⟩ := exists_bucketsFor requested
  rw [hk]
  exact Nat.two_pow_pos k

/-! ## Buckets in words -/

/-- The ones are one less than the power of two. -/
theorem toNat_onesBelow (a : UInt64) :
    (Counter.onesBelow a).toNat + 1 = leastPowerOfTwo a.toNat := by
  have hone : (1 : UInt64).toNat = 1 := rfl
  unfold Counter.onesBelow leastPowerOfTwo
  by_cases h : a ≤ 1
  · have hn : a.toNat ≤ 1 := UInt64.le_iff_toNat_le.mp h
    rw [if_pos h, if_pos hn]
    rfl
  · have hn : ¬ a.toNat ≤ 1 := fun hle => h (UInt64.le_iff_toNat_le.mpr hle)
    have ha := a.toNat_lt
    have hpred : (a - 1).toNat = a.toNat - 1 :=
      UInt64.toNat_sub_of_le _ _ (UInt64.le_iff_toNat_le.mpr (by omega))
    have hlog : (a - 1).log2.toNat = (a.toNat - 1).log2 := congrArg Nat.log2 hpred
    have hlt : (a.toNat - 1).log2 < 64 := (Nat.log2_lt (by omega)).mpr (by omega)
    rw [if_neg h, if_neg hn, Nat.one_shiftLeft, ← hlog]
    rw [← hlog] at hlt
    -- From here on only the position of the highest one of the predecessor matters.
    generalize (a - 1).log2 = k at hlt ⊢
    have hmost : (63 : UInt64).toNat = 63 := rfl
    have hshift : (63 - k).toNat = 63 - k.toNat :=
      UInt64.toNat_sub_of_le _ _ (UInt64.le_iff_toNat_le.mpr (by omega))
    have hsize : UInt64.size = 2 ^ (63 - k.toNat) * 2 ^ (k.toNat + 1) := by
      rw [← Nat.pow_add, show 63 - k.toNat + (k.toNat + 1) = 64 by omega]
    have hpos := Nat.two_pow_pos (k.toNat + 1)
    have hones : (UInt64.size - 1) / 2 ^ (63 - k.toNat) = 2 ^ (k.toNat + 1) - 1 := by
      rw [hsize, Nat.mul_sub_div 0 _ _ (Nat.mul_pos (Nat.two_pow_pos _) hpos), Nat.zero_div]
    rw [UInt64.toNat_shiftRight, hshift, UInt64.toNat_ofNat_of_lt' (by decide),
      Nat.mod_eq_of_lt (by omega), Nat.shiftRight_eq_div_pow, hones]
    omega

/-- A word is rounded up exactly if the power of two fits, and then it is exact. -/
theorem nextPowerOfTwo?_eq_some_iff {a c : UInt64} :
    Counter.nextPowerOfTwo? a = some c ↔ c.toNat = leastPowerOfTwo a.toNat := by
  rw [← toNat_onesBelow]
  refine Iff.trans ?_ (Counter.add_eq_ok_iff (b := 1))
  unfold Counter.nextPowerOfTwo?
  cases Counter.add (Counter.onesBelow a) 1 <;> simp [Except.toOption]

/-- The number of buckets for a request: the request rounded up to a power of two, as long as that
is a word, and otherwise the largest power of two that is one. -/
structure MeetsRequest (requested : Size) (count : UInt64) : Prop where
  least : requested.val ≤ 2 ^ 63 →
    IsLeast {m | requested.val ≤ m ∧ ∃ k, m = 2 ^ k} count.toNat
  largest : 2 ^ 63 < requested.val →
    count.toNat = 2 ^ 63 ∧ IsGreatest {m | m < UInt64.size ∧ ∃ k, m = 2 ^ k} count.toNat
  /-- Words are rounded up as long as the power of two is one, and give it up beyond. -/
  rounds : Counter.nextPowerOfTwo? requested.toWord =
    if requested.val ≤ 2 ^ 63 then some count else none
  /-- An index for the request has as many buckets as the word counts. -/
  buckets : bucketsFor requested = count.toNat

/-- Every request is met in words, over the whole range of sizes. -/
theorem meetsRequest_bucketsWord (requested : Size) :
    MeetsRequest requested (bucketsWord requested) := by
  have hfits := leastPowerOfTwo_lt_size_iff (n := requested.val)
  have hnext : ∀ c, Counter.nextPowerOfTwo? requested.toWord = some c ↔
      c.toNat = leastPowerOfTwo requested.val := fun c => by
    rw [nextPowerOfTwo?_eq_some_iff, Size.toNat_toWord]
  by_cases h : requested.val ≤ 2 ^ 63
  · have hlt := hfits.mpr h
    have hrounds := (hnext (.ofNat (leastPowerOfTwo requested.val))).mpr
      (UInt64.toNat_ofNat_of_lt' hlt)
    have hword : bucketsWord requested = .ofNat (leastPowerOfTwo requested.val) := by
      rw [bucketsWord, hrounds, Option.getD_some]
    have hcount : (bucketsWord requested).toNat = leastPowerOfTwo requested.val := by
      rw [hword, UInt64.toNat_ofNat_of_lt' hlt]
    refine ⟨fun _ => ?_, fun hgt => absurd h (Nat.not_le.mpr hgt), ?_, ?_⟩
    · rw [hcount]
      exact isLeast_leastPowerOfTwo _
    · rw [if_pos h, hrounds, hword]
    · rw [hcount]
      exact if_pos hlt
  · have hnone : Counter.nextPowerOfTwo? requested.toWord = none := by
      refine Option.eq_none_iff_forall_ne_some.mpr fun c hc => h (hfits.mp ?_)
      rw [← (hnext c).mp hc]
      exact c.toNat_lt
    have hcount : (bucketsWord requested).toNat = 2 ^ 63 := by
      rw [bucketsWord, hnone]
      decide
    refine ⟨fun hle => absurd hle h, fun _ => ⟨hcount, ?_⟩, ?_, ?_⟩
    · rw [hcount]
      exact isGreatest_word_power
    · rw [if_neg h, hnone]
    · rw [hcount]
      exact (if_neg (mt hfits.mp h)).trans (Nat.one_shiftLeft 63)

namespace KeyIndex

variable {κ : Type} {index : KeyIndex κ}

/-- The bucket of a hash is one of those that there are. -/
theorem bucketOf_lt (h : 0 < index.bucketCount) (hash : UInt64) :
    index.bucketOf hash < index.bucketCount := by
  have hle : index.bucketOf hash ≤ index.bucketCount - 1 := Nat.and_le_right
  omega

/-- The bucket of a hash is its rest modulo the number of buckets. -/
theorem bucketOf_eq_mod {requested : Size} (h : index.bucketCount = bucketsFor requested)
    (hash : UInt64) : index.bucketOf hash = hash.toNat % index.bucketCount := by
  obtain ⟨k, hk⟩ := exists_bucketsFor requested
  rw [bucketOf, h, hk, Nat.and_two_pow_sub_one_eq_mod]

/-- The bucket of a hash is selected by a mask that is one less than the number of buckets. It is the
rest of the hash, so it is always in range, and congruent hashes share their bucket. -/
structure SelectsByMask (index : KeyIndex κ) (count : UInt64) : Prop where
  mask : ∀ hash, bucketWord count hash = .ok (hash &&& (count - 1)) ∧
    (hash &&& (count - 1)).toNat = index.bucketOf hash
  mod : ∀ hash, index.bucketOf hash = hash.toNat % count.toNat
  lt : ∀ hash, index.bucketOf hash < count.toNat
  shared : ∀ hash hash',
    index.bucketOf hash = index.bucketOf hash' ↔ hash.toNat ≡ hash'.toNat [MOD count.toNat]

/-- An index with the buckets of any request selects them by a mask. -/
theorem selectsByMask {requested : Size} (h : index.bucketCount = bucketsFor requested) :
    index.SelectsByMask (bucketsWord requested) := by
  have hmod := bucketOf_eq_mod h
  have hpos : 0 < index.bucketCount := h ▸ bucketsFor_pos requested
  rw [(meetsRequest_bucketsWord requested).buckets] at h
  have hone : (1 : UInt64) ≤ bucketsWord requested := by
    rw [UInt64.le_iff_toNat_le, ← h]
    exact hpos
  rw [h] at hmod
  refine ⟨fun hash => ⟨?_, ?_⟩, hmod, fun hash => h ▸ bucketOf_lt hpos hash, fun hash hash' => ?_⟩
  · rw [bucketWord, Counter.subtract, if_pos hone]
    rfl
  · rw [UInt64.toNat_and, UInt64.toNat_sub_of_le _ _ hone, ← h]
    rfl
  · rw [hmod, hmod, Nat.ModEq]

end KeyIndex

end CachePool
