import CachePool.Proofs.Pool.Tally

/-!
# Sums of snapshots

Snapshots are added from the first on, one field after the other, up to the first sum
that leaves its word. Partial sums only grow, so the addition stops exactly if a field
of the exact total leaves its word, wherever that happens on the way. The outcome is
therefore one of the total alone: it is the same in every order, and a list can be
summed in parts.
-/

namespace CachePool

/-- A sum of counters that stops has overflowed. -/
theorem Counter.fault_of_add {a b : UInt64} {fault : Fault} (h : add a b = .error fault) :
    fault = .additionOverflow := by
  rw [add] at h
  split at h <;> cases h
  rfl

namespace PoolTally

variable {s t : PoolTally}

theorem Fits.right (h : (s + t).Fits) : t.Fits where
  creates := Nat.lt_of_le_of_lt (Nat.le_add_left _ _) h.creates
  acquires := Nat.lt_of_le_of_lt (Nat.le_add_left _ _) h.acquires
  releases := Nat.lt_of_le_of_lt (Nat.le_add_left _ _) h.releases
  destroyed := Nat.lt_of_le_of_lt (Nat.le_add_left _ _) h.destroyed

/-- A tally does not fit if one of its counts is beyond the largest word. -/
theorem not_fits_iff : ¬ t.Fits ↔
    2 ^ 64 - 1 < t.creates ∨ 2 ^ 64 - 1 < t.acquires ∨ 2 ^ 64 - 1 < t.releases ∨
      2 ^ 64 - 1 < t.destroyed := by
  have hsize : UInt64.size = 2 ^ 64 := rfl
  constructor
  · intro h
    by_contra hle
    exact h ⟨by omega, by omega, by omega, by omega⟩
  · rintro h ⟨hcreates, hacquires, hreleases, hdestroyed⟩
    omega

end PoolTally

namespace PoolCounts

variable {a b c : PoolCounts} {stats stats' : List PoolCounts} {fault : Fault}

theorem totals_append (first rest : List PoolCounts) :
    totals (first ++ rest) = totals first + totals rest := by
  induction first with
  | nil => exact (PoolTally.zero_add _).symm
  | cons s first ih => rw [List.cons_append, totals_cons, totals_cons, ih, PoolTally.add_assoc]

/-- The totals do not depend on the order. -/
theorem totals_perm (h : stats.Perm stats') : totals stats = totals stats' := by
  simp only [totals, (h.map _).sum_eq]

/-- The only fault of a sum of two snapshots is an overflow. -/
theorem fault_of_add (h : add a b = .error fault) : fault = .additionOverflow := by
  -- Each of the four fields can be the one at which the sum stops.
  simp only [add, accumulate] at h
  grind [Counter.fault_of_add]

/-- The only fault of counting up is an overflow. -/
theorem fault_of_foldlM_add (h : stats.foldlM add a = .error fault) :
    fault = .additionOverflow := by
  induction stats generalizing a with
  | nil => cases h
  | cons s stats ih =>
    rw [List.foldlM_cons] at h
    cases hadd : add a s with
    | ok b =>
      rw [hadd] at h
      exact ih h
    | error e =>
      rw [hadd] at h
      cases h
      exact fault_of_add hadd

/-- The only fault of a sum is an overflow. -/
theorem fault_of_sum (h : sum stats = .error fault) : fault = .additionOverflow :=
  fault_of_foldlM_add h

/-- Outcomes that have no other fault than an overflow are equal if they have the same values. -/
theorem eq_of_ok_iff {x y : Except Fault PoolCounts}
    (hx : ∀ fault, x = .error fault → fault = .additionOverflow)
    (hy : ∀ fault, y = .error fault → fault = .additionOverflow)
    (h : ∀ c, x = .ok c ↔ y = .ok c) : x = y := by
  cases x with
  | ok c => exact ((h c).mp rfl).symm
  | error fault =>
    cases y with
    | ok c => exact (h c).mpr rfl
    | error fault' => rw [hx fault rfl, hy fault' rfl]

/-- Snapshots have a sum if their counts together fit. -/
theorem exists_sum (h : (totals stats).Fits) : ∃ c, sum stats = .ok c ∧ c.tally = totals stats := by
  obtain ⟨c, hc⟩ := exists_tally h
  exact ⟨c, sum_eq_ok_iff.mpr hc, hc⟩

/-- A sum overflows exactly if the counts together do not fit. -/
theorem sum_eq_error_iff : sum stats = .error .additionOverflow ↔ ¬ (totals stats).Fits := by
  constructor
  · intro h hfits
    obtain ⟨c, hc, -⟩ := exists_sum hfits
    rw [hc] at h
    cases h
  · intro h
    cases hsum : sum stats with
    | ok c => exact (h (sum_eq_ok_iff.mp hsum ▸ c.fits_tally)).elim
    | error fault => rw [fault_of_sum hsum]

/-- A sum does not depend on the order. -/
theorem sum_perm (h : stats.Perm stats') : sum stats = sum stats' := by
  apply eq_of_ok_iff (fun _ => fault_of_sum) (fun _ => fault_of_sum)
  intro c
  rw [sum_eq_ok_iff, sum_eq_ok_iff, totals_perm h]

/-- A list is summed in two parts, whose sums are then added. -/
theorem sum_append (first rest : List PoolCounts) :
    sum (first ++ rest) = (do
      let a ← sum first
      let b ← sum rest
      add a b) := by
  cases hfirst : sum first with
  | error fault =>
    obtain rfl := fault_of_sum hfirst
    rw [sum_eq_error_iff] at hfirst
    refine sum_eq_error_iff.mpr fun hfits => hfirst ?_
    rw [totals_append] at hfits
    exact hfits.left
  | ok a =>
    cases hrest : sum rest with
    | error fault =>
      obtain rfl := fault_of_sum hrest
      rw [sum_eq_error_iff] at hrest
      refine sum_eq_error_iff.mpr fun hfits => hrest ?_
      rw [totals_append] at hfits
      exact hfits.right
    | ok b =>
      apply eq_of_ok_iff (fun _ => fault_of_sum) (fun _ => fault_of_add)
      intro c
      rw [sum_eq_ok_iff, add_eq_ok_iff, totals_append, sum_eq_ok_iff.mp hfirst,
        sum_eq_ok_iff.mp hrest]

/-- For every list of snapshots: their sum overflows exactly if a field of the exact total is beyond
the largest word, and is exact otherwise. The outcome is the same in every order, and that of a
longer list is the sum of the sums of its parts. -/
theorem sum_exact (stats : List PoolCounts) :
    let total := totals stats
    let overflows := 2 ^ 64 - 1 < total.creates ∨ 2 ^ 64 - 1 < total.acquires ∨
      2 ^ 64 - 1 < total.releases ∨ 2 ^ 64 - 1 < total.destroyed
    (sum stats = .error .additionOverflow ↔ overflows) ∧
      (¬ overflows → ∃ c, sum stats = .ok c ∧ c.creates.toNat = total.creates ∧
        c.acquires.toNat = total.acquires ∧ c.releases.toNat = total.releases ∧
        c.destroyed.toNat = total.destroyed) ∧
      Fault.message .additionOverflow = "attempt to add with overflow" ∧
      (∀ stats', stats.Perm stats' → sum stats' = sum stats) ∧
      ∀ more, sum (stats ++ more) = (do
        let a ← sum stats
        let b ← sum more
        add a b) := by
  intro total overflows
  refine ⟨sum_eq_error_iff.trans PoolTally.not_fits_iff, fun h => ?_, rfl,
    fun stats' hperm => (sum_perm hperm).symm, sum_append stats⟩
  have hfits : total.Fits := not_not.mp (mt PoolTally.not_fits_iff.mp h)
  obtain ⟨c, hc, htally⟩ := exists_sum hfits
  exact ⟨c, hc, congrArg PoolTally.creates htally, congrArg PoolTally.acquires htally,
    congrArg PoolTally.releases htally, congrArg PoolTally.destroyed htally⟩

end PoolCounts

end CachePool
