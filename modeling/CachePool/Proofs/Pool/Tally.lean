import CachePool.Pool.Counts
import Mathlib.Algebra.BigOperators.Fin

/-!
# Tallies of what pools do

A tally counts what a pool does without bound. The counters of the pool are its tally
modulo the word, and equal it as long as every count fits. Snapshots of several pools
have a sum exactly if the tallies together fit, and the sum is then exact.
-/

namespace CachePool

/-- What a pool did, counted without bound. -/
@[ext]
structure PoolTally where
  creates : Nat := 0
  acquires : Nat := 0
  releases : Nat := 0
  destroyed : Nat := 0

namespace PoolTally

instance : Add PoolTally where
  add s t := ⟨s.creates + t.creates, s.acquires + t.acquires, s.releases + t.releases,
    s.destroyed + t.destroyed⟩

variable (s t : PoolTally)

@[simp] theorem creates_add : (s + t).creates = s.creates + t.creates := rfl
@[simp] theorem acquires_add : (s + t).acquires = s.acquires + t.acquires := rfl
@[simp] theorem releases_add : (s + t).releases = s.releases + t.releases := rfl
@[simp] theorem destroyed_add : (s + t).destroyed = s.destroyed + t.destroyed := rfl

/-- Every count fits a machine word. -/
structure Fits (t : PoolTally) : Prop where
  creates : t.creates < UInt64.size
  acquires : t.acquires < UInt64.size
  releases : t.releases < UInt64.size
  destroyed : t.destroyed < UInt64.size

variable {s t}

theorem add_assoc (s t u : PoolTally) : s + t + u = s + (t + u) := by
  ext <;> simp [Nat.add_assoc]

theorem zero_add (t : PoolTally) : ({} : PoolTally) + t = t := by
  ext <;> simp

/-- A part of what fits fits. -/
theorem Fits.left (h : (s + t).Fits) : s.Fits where
  creates := Nat.lt_of_le_of_lt (Nat.le_add_right _ _) h.creates
  acquires := Nat.lt_of_le_of_lt (Nat.le_add_right _ _) h.acquires
  releases := Nat.lt_of_le_of_lt (Nat.le_add_right _ _) h.releases
  destroyed := Nat.lt_of_le_of_lt (Nat.le_add_right _ _) h.destroyed

end PoolTally

namespace PoolCounts

/-- The counters as unbounded counts. -/
def tally (s : PoolCounts) : PoolTally where
  creates := s.creates.toNat
  acquires := s.acquires.toNat
  releases := s.releases.toNat
  destroyed := s.destroyed.toNat

/-- The counters after so much more was done; they wrap around. -/
def plus (s : PoolCounts) (t : PoolTally) : PoolCounts where
  creates := s.creates + .ofNat t.creates
  acquires := s.acquires + .ofNat t.acquires
  releases := s.releases + .ofNat t.releases
  destroyed := s.destroyed + .ofNat t.destroyed

theorem plus_plus (s : PoolCounts) (t u : PoolTally) : (s.plus t).plus u = s.plus (t + u) := by
  simp only [plus, PoolTally.creates_add, PoolTally.acquires_add, PoolTally.releases_add,
    PoolTally.destroyed_add, UInt64.ofNat_add, UInt64.add_assoc]

/-- Counters that start from zero are exact as long as every count fits. -/
theorem tally_plus {t : PoolTally} (h : t.Fits) : (({} : PoolCounts).plus t).tally = t := by
  have hexact : ∀ n < UInt64.size, ((0 : UInt64) + .ofNat n).toNat = n := by
    intro n hn
    rw [UInt64.zero_add, UInt64.toNat_ofNat']
    exact Nat.mod_eq_of_lt hn
  simp only [tally, plus, hexact _ h.creates, hexact _ h.acquires, hexact _ h.releases,
    hexact _ h.destroyed]

/-- What was handed out again is exact if no more was built than was asked for. -/
theorem recycled_toNat {s : PoolCounts} (h : s.creates.toNat ≤ s.acquires.toNat) :
    s.recycled.toNat + s.creates.toNat = s.acquires.toNat := by
  have hle := UInt64.le_iff_toNat_le.mpr h
  rw [recycled, if_pos hle, UInt64.toNat_sub_of_le _ _ hle]
  omega

/-- Two snapshots have a sum exactly if every field has one, which is then exact. -/
theorem add_eq_ok_iff {a b c : PoolCounts} : add a b = .ok c ↔ c.tally = a.tally + b.tally := by
  constructor
  · intro h
    simp only [add, accumulate] at h
    cases hcreates : Counter.add a.creates b.creates with
    | error fault => simp [hcreates] at h
    | ok creates =>
      cases hacquires : Counter.add a.acquires b.acquires with
      | error fault => simp [hcreates, hacquires] at h
      | ok acquires =>
        cases hreleases : Counter.add a.releases b.releases with
        | error fault => simp [hcreates, hacquires, hreleases] at h
        | ok releases =>
          cases hdestroyed : Counter.add a.destroyed b.destroyed with
          | error fault => simp [hcreates, hacquires, hreleases, hdestroyed] at h
          | ok destroyed =>
            simp only [hcreates, hacquires, hreleases, hdestroyed, Except.ok.injEq] at h
            subst h
            exact PoolTally.ext (Counter.add_eq_ok_iff.mp hcreates)
              (Counter.add_eq_ok_iff.mp hacquires) (Counter.add_eq_ok_iff.mp hreleases)
              (Counter.add_eq_ok_iff.mp hdestroyed)
  · intro h
    have hcreates := Counter.add_eq_ok_iff.mpr (congrArg PoolTally.creates h)
    have hacquires := Counter.add_eq_ok_iff.mpr (congrArg PoolTally.acquires h)
    have hreleases := Counter.add_eq_ok_iff.mpr (congrArg PoolTally.releases h)
    have hdestroyed := Counter.add_eq_ok_iff.mpr (congrArg PoolTally.destroyed h)
    simp only [add, accumulate, hcreates, hacquires, hreleases, hdestroyed]

/-- The counts of several snapshots together. -/
def totals (stats : List PoolCounts) : PoolTally where
  creates := (stats.map (·.creates.toNat)).sum
  acquires := (stats.map (·.acquires.toNat)).sum
  releases := (stats.map (·.releases.toNat)).sum
  destroyed := (stats.map (·.destroyed.toNat)).sum

theorem totals_cons (s : PoolCounts) (stats : List PoolCounts) :
    totals (s :: stats) = s.tally + totals stats := by
  simp only [totals, List.map_cons, List.sum_cons]
  rfl

theorem tally_injective : Function.Injective tally := by
  rintro ⟨⟩ ⟨⟩ h
  simpa [tally, UInt64.toNat_inj] using h

theorem fits_tally (s : PoolCounts) : s.tally.Fits :=
  ⟨s.creates.toNat_lt, s.acquires.toNat_lt, s.releases.toNat_lt, s.destroyed.toNat_lt⟩

/-- A tally that fits is that of a snapshot. -/
theorem exists_tally {t : PoolTally} (h : t.Fits) : ∃ s : PoolCounts, s.tally = t :=
  ⟨_, tally_plus h⟩

/-- Snapshots are counted up from one to another exactly if their counts add up to it. -/
theorem foldlM_add_eq_ok_iff {stats : List PoolCounts} {a c : PoolCounts} :
    stats.foldlM add a = .ok c ↔ c.tally = a.tally + totals stats := by
  induction stats generalizing a with
  | nil =>
    constructor
    · rintro ⟨⟩
      rfl
    · intro h
      rw [tally_injective h]
      rfl
  | cons s stats ih =>
    rw [List.foldlM_cons, totals_cons]
    constructor
    · intro h
      cases hadd : add a s with
      | error fault =>
        rw [hadd] at h
        cases h
      | ok b =>
        rw [hadd] at h
        rw [ih.mp h, add_eq_ok_iff.mp hadd]
        exact PoolTally.add_assoc _ _ _
    · intro h
      rw [← PoolTally.add_assoc] at h
      obtain ⟨b, hb⟩ := exists_tally (t := a.tally + s.tally) (h ▸ c.fits_tally).left
      rw [add_eq_ok_iff.mpr hb]
      exact ih.mpr (hb ▸ h)

/-- Snapshots have a sum exactly if the counts of all fit, and the sum is exact. -/
theorem sum_eq_ok_iff {stats : List PoolCounts} {c : PoolCounts} :
    sum stats = .ok c ↔ c.tally = totals stats := by
  have hzero : ({} : PoolCounts).tally + totals stats = totals stats := PoolTally.zero_add _
  rw [sum, foldlM_add_eq_ok_iff, hzero]

end PoolCounts

end CachePool
