import CachePool.Fault

/-!
# Machine words: counters and sizes

Counters are 64-bit words whose sums and differences are checked: a result
outside the word is a fault, never a wrapped value. A `Size` is a word that
counts at least one, which is what every capacity, bucket count and shard count
has to be.
-/

namespace CachePool

namespace Counter

/-- The sum of two counters, a fault where it does not fit the word. -/
def add (a b : UInt64) : Except Fault UInt64 :=
  if a.toNat + b.toNat < UInt64.size then .ok (a + b) else .error .additionOverflow

/-- The difference of two counters, a fault where it would be negative. -/
def subtract (a b : UInt64) : Except Fault UInt64 :=
  if b ≤ a then .ok (a - b) else .error .subtractionOverflow

/-- A counter cut into a range, a fault where the ends of the range are in the wrong order. -/
def clamp (a low high : UInt64) : Except Fault UInt64 :=
  if low ≤ high then .ok (if a < low then low else if high < a then high else a)
  else .error .emptyRange

/-- The word of ones below the least power of two that is not below a counter. -/
def onesBelow (a : UInt64) : UInt64 :=
  if a ≤ 1 then 0 else .ofNat (UInt64.size - 1) >>> (63 - (a - 1).log2)

/-- The least power of two that is not below a counter, none where it does not fit the word. -/
def nextPowerOfTwo? (a : UInt64) : Option UInt64 := (add (onesBelow a) 1).toOption

/-- An addition succeeds exactly when the sum fits, and then it is exact. -/
theorem add_eq_ok_iff {a b c : UInt64} :
    add a b = .ok c ↔ c.toNat = a.toNat + b.toNat := by
  unfold add
  have hc := c.toNat_lt
  by_cases h : a.toNat + b.toNat < UInt64.size
  · have hs : (a + b).toNat = a.toNat + b.toNat := by
      rw [UInt64.toNat_add]
      exact Nat.mod_eq_of_lt h
    rw [if_pos h, Except.ok.injEq, ← UInt64.toNat_inj, hs]
    exact eq_comm
  · rw [if_neg h]
    have hsize : UInt64.size = 2 ^ 64 := rfl
    constructor
    · intro he
      cases he
    · intro he
      omega

/-- A subtraction succeeds exactly when nothing is missing, and then it is exact. -/
theorem subtract_eq_ok_iff {a b c : UInt64} :
    subtract a b = .ok c ↔ a.toNat = c.toNat + b.toNat := by
  unfold subtract
  by_cases h : b ≤ a
  · have hn : b.toNat ≤ a.toNat := UInt64.le_iff_toNat_le.mp h
    rw [if_pos h, Except.ok.injEq, ← UInt64.toNat_inj, UInt64.toNat_sub_of_le _ _ h]
    omega
  · have hn : ¬ b.toNat ≤ a.toNat := fun hle => h (UInt64.le_iff_toNat_le.mpr hle)
    rw [if_neg h]
    constructor
    · intro he
      cases he
    · intro he
      omega

/-- A cut succeeds exactly when the range has a member, and then it answers with the nearest one. -/
theorem clamp_eq_ok_iff {a low high c : UInt64} :
    clamp a low high = .ok c ↔
      low.toNat ≤ high.toNat ∧ c.toNat = max low.toNat (min a.toNat high.toNat) := by
  unfold clamp
  by_cases h : low ≤ high
  · have hn : low.toNat ≤ high.toNat := UInt64.le_iff_toNat_le.mp h
    rw [if_pos h, Except.ok.injEq, ← UInt64.toNat_inj]
    split
    · next hlow =>
      have hlow := UInt64.lt_iff_toNat_lt.mp hlow
      omega
    · next hlow =>
      have hlow : ¬ a.toNat < low.toNat := fun hlt => hlow (UInt64.lt_iff_toNat_lt.mpr hlt)
      split
      · next hhigh =>
        have hhigh := UInt64.lt_iff_toNat_lt.mp hhigh
        omega
      · next hhigh =>
        have hhigh : ¬ high.toNat < a.toNat := fun hlt => hhigh (UInt64.lt_iff_toNat_lt.mpr hlt)
        omega
  · have hn : ¬ low.toNat ≤ high.toNat := fun hle => h (UInt64.le_iff_toNat_le.mpr hle)
    rw [if_neg h]
    constructor
    · intro he
      cases he
    · intro he
      exact absurd he.1 hn

/-- The larger of two counters counts the larger number. -/
theorem toNat_max (a b : UInt64) : (max a b).toNat = max a.toNat b.toNat := by
  change (if a ≤ b then b else a).toNat = _
  by_cases h : a ≤ b
  · have hn : a.toNat ≤ b.toNat := UInt64.le_iff_toNat_le.mp h
    rw [if_pos h, Nat.max_eq_right hn]
  · have hn : ¬ a.toNat ≤ b.toNat := fun hle => h (UInt64.le_iff_toNat_le.mpr hle)
    rw [if_neg h, Nat.max_eq_left (Nat.le_of_not_le hn)]

end Counter

/-- A machine word that counts at least one. -/
structure Size where
  /-- The number counted. -/
  val : Nat
  /-- A size is never zero. -/
  pos : 0 < val
  /-- A size fits the machine word. -/
  lt : val < UInt64.size

namespace Size

instance : DecidableEq Size := fun a b =>
  decidable_of_iff (a.val = b.val) (by cases a; cases b; simp)

/-- The smallest size. -/
def one : Size := ⟨1, by decide, by decide⟩

instance : Inhabited Size := ⟨one⟩

/-- A number as a size, if it is positive and fits the word. -/
def ofNat? (n : Nat) : Option Size :=
  if h : 0 < n ∧ n < UInt64.size then some ⟨n, h.1, h.2⟩ else none

/-- A word as a size, with one in the place of zero. -/
def orOne (a : UInt64) : Size := (ofNat? a.toNat).getD one

/-- The larger of two sizes counts the larger number. -/
instance : Max Size := ⟨fun a b => if a.val ≤ b.val then b else a⟩

/-- The size as a word. -/
def toWord (s : Size) : UInt64 := UInt64.ofNat s.val

/-- Two sizes that count the same are equal. -/
@[ext] theorem ext {a b : Size} (h : a.val = b.val) : a = b := by
  cases a
  cases b
  simpa using h

/-- A number becomes a size exactly when it is positive and fits, and stays itself. -/
theorem ofNat?_eq_some_iff {n : Nat} {s : Size} : ofNat? n = some s ↔ s.val = n := by
  unfold ofNat?
  have hp := s.pos
  have hl := s.lt
  by_cases h : 0 < n ∧ n < UInt64.size
  · rw [dif_pos h, Option.some.injEq]
    constructor
    · intro he
      rw [← he]
    · intro he
      exact Size.ext he.symm
  · rw [dif_neg h]
    constructor
    · intro he
      cases he
    · intro he
      omega

/-- The larger of two sizes, as a number. -/
@[simp] theorem val_max (a b : Size) : (max a b).val = max a.val b.val := by
  change (if a.val ≤ b.val then b else a).val = _
  by_cases h : a.val ≤ b.val
  · rw [if_pos h, Nat.max_eq_right h]
  · rw [if_neg h, Nat.max_eq_left (by omega)]

/-- The word of a size counts the same. -/
@[simp] theorem toNat_toWord (s : Size) : s.toWord.toNat = s.val := by
  have hl := s.lt
  rw [toWord, UInt64.toNat_ofNat']
  exact Nat.mod_eq_of_lt hl

/-- A word that counts as much as a size becomes that size. -/
theorem orOne_eq {a : UInt64} {s : Size} (h : a.toNat = s.val) : orOne a = s := by
  rw [orOne, ofNat?_eq_some_iff.mpr h.symm]
  rfl

end Size

end CachePool
