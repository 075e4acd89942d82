import CachePool.Proofs.Cache.Accounts

/-!
# A cleared cache starts again

A cleared cache shows the empty model of its configuration, as a new one does, and
what was counted stays counted. From there on both show the same model, whatever is
called and however the keys are hashed: they answer and free the same, and each
counter of the cleared cache is ahead by what it held at the clear. The histories
part in one way only, at a call that raises a counter of the cleared cache beyond
its word.
-/

namespace CachePool

open Metrics

namespace CacheModel

variable {κ α : Type} [DecidableEq κ]

/-- A hit moves items only, so a clear leaves what it left before. -/
theorem hit_clear (m : CacheModel κ α) (key : κ) :
    ((m.hit key).2.step .clear).next = (m.step .clear).next := by
  simp only [hit, promote]
  split
  · split
    · rfl
    · split <;> rfl
  · split <;> rfl

/-- No call changes the capacities or the threshold, so a clear leaves what it left before. -/
theorem step_clear (m : CacheModel κ α) (op : Operation κ α) :
    ((m.step op).next.step .clear).next = (m.step .clear).next := by
  have hput : ∀ key value, ((m.put key value).next.step .clear).next = (m.step .clear).next := by
    intro key value
    simp only [put, insert]
    split
    · rfl
    · split <;> rfl
  have hremove : ∀ key, ((m.remove key).next.step .clear).next = (m.step .clear).next := by
    intro key
    simp only [remove]
    split <;> rfl
  cases op with
  | get key => exact m.hit_clear key
  | update key f => exact m.hit_clear key
  | getLive key alive =>
    rcases m.getLive_cases key alive with ⟨-, heq⟩ | ⟨value, -, -, heq⟩ | ⟨value, -, -, heq⟩
    · rw [step, heq]
    · rw [step, heq]
      exact m.hit_clear key
    · rw [step, heq]
      rfl
  | put key value => exact hput key value
  | set key value =>
    cases value with
    | some value => exact hput key value
    | none => exact hremove key
  | remove key => exact hremove key
  | peek | contains | generationOf | clear => rfl

end CacheModel

namespace Cache

variable {κ α : Type} [DecidableEq κ] {base fresh c : Cache κ α} {m : CacheModel κ α}

/-- The cache shows what the fresh one does, and its counters are ahead by those of the base. -/
structure Resumes (base fresh c : Cache κ α) : Prop where
  counts : ∀ counter : Counter, counter.grows →
    c.counted counter = base.counted counter + fresh.counted counter
  /-- The same keys with the same values and hits, in the same order. -/
  contents : ∀ g, (c.contents g).map Entry.item = (fresh.contents g).map Entry.item
  peek : c.peek = fresh.peek
  youngLength : c.young.length = fresh.young.length
  oldLength : c.old.length = fresh.old.length
  length : c.length = fresh.length
  youngSize : c.metrics.youngSize = fresh.metrics.youngSize
  oldSize : c.metrics.oldSize = fresh.metrics.oldSize
  oldCapacity : c.metrics.oldCapacity = fresh.metrics.oldCapacity

/-- Caches that show the same model show the same to a client. -/
theorem Shows.resumes (hc : c.Shows m) (hfresh : fresh.Shows m)
    (hcounts : ∀ counter : Counter, counter.grows →
      c.counted counter = base.counted counter + fresh.counted counter) :
    Resumes base fresh c := by
  have hyoung : c.young.length = fresh.young.length := by rw [hc.young_length, hfresh.young_length]
  have hold : c.old.length = fresh.old.length := by rw [hc.old_length, hfresh.old_length]
  constructor
  case counts => exact hcounts
  case contents =>
    rintro (_ | _)
    · rw [hc.young_eq, hfresh.young_eq]
    · rw [hc.old_eq, hfresh.old_eq]
  case peek => rw [hc.lookup_eq, hfresh.lookup_eq]
  case youngLength => exact hyoung
  case oldLength => exact hold
  case length => rw [Cache.length, Cache.length, hyoung, hold]
  case youngSize => rw [← UInt64.toNat_inj, hc.youngSize, hfresh.youngSize, hyoung]
  case oldSize => rw [← UInt64.toNat_inj, hc.oldSize, hfresh.oldSize, hold]
  case oldCapacity =>
    rw [← UInt64.toNat_inj, hc.oldSlots, hfresh.oldSlots, hc.oldCapacity, hfresh.oldCapacity]

/-- After a history that answers, a clear answers, counts nothing, and leaves a cache that shows the
empty model of the configuration. -/
theorem Answers.clear {config : CacheConfig} {hasher : Hasher κ} {ops : List (Operation κ α)}
    (h : (ofConfig config hasher).Answers ops) :
    let before := ((ofConfig config hasher).run ops).2
    (∃ o, (before.step .clear).1 = .ok o) ∧
      (before.step .clear).2.Shows (CacheModel.ofConfig config) ∧
      ∀ counter : Counter, counter.grows →
        (before.step .clear).2.counted counter = before.counted counter := by
  intro before
  obtain ⟨m, hm, hclear⟩ := h.induction
    (P := fun _ m => (m.step .clear).next = CacheModel.ofConfig config) rfl
    fun past op o m _ _ hm => (m.step_clear op).trans hm
  obtain ⟨-, hshows, hcounts⟩ := hm.step hm.clear
  exact ⟨⟨_, hm.clear⟩, hclear ▸ hshows, hcounts⟩

/-- From a new cache on, a history that answers counts what its model raises. -/
theorem Answers.counted_eq {config : CacheConfig} {hasher : Hasher κ} {ops : List (Operation κ α)}
    (h : (ofConfig config hasher).Answers ops) {counter : Counter} (hgrows : counter.grows) :
    ((ofConfig config hasher).run ops).2.counted counter =
      (CacheModel.raisedBy ((CacheModel.ofConfig config).run ops).1).count counter := by
  obtain ⟨-, -, hcounts⟩ := (shows_ofConfig config hasher).run h
  have hzero := (Sketch.depicts_ofConfig (α := α) config hasher).counts counter hgrows
  rw [counted, hcounts counter hgrows, hzero]
  exact Nat.zero_add _

/-- What is answered by a cache that shows an empty model is answered by a new one, whose counters
are not ahead. -/
theorem Shows.answers_ofConfig {config : CacheConfig} {ops : List (Operation κ α)}
    (h : c.Shows (CacheModel.ofConfig config)) (hanswers : c.Answers ops) (hasher : Hasher κ) :
    (ofConfig config hasher).Answers ops := by
  obtain ⟨-, -, hcounts⟩ := h.run hanswers
  refine answers_of_fits config hasher fun counter hgrows => ?_
  have hword := UInt64.toNat_lt ((c.run ops).2.metrics.get counter)
  rw [hcounts counter hgrows] at hword
  exact Nat.lt_of_le_of_lt (Nat.le_add_left _ _) hword

/-- A clear is a full reset up to the counters. After any history that answers, a cleared cache goes
through every later history as a new one of the same configuration does, however that hashes its
keys: the calls have the same outcomes, which include what they free, and after each of them both
show the same, with every lifetime counter ahead by what it held at the clear. What follows is
nothing, or a call that overflows a counter of the cleared cache; and it is nothing if there are
fewer than `2 ^ 64` calls. -/
theorem run_after_clear (config : CacheConfig) (hasher hasher' : Hasher κ)
    (ops later : List (Operation κ α)) (hanswers : (ofConfig config hasher).Answers ops) :
    let before := ((ofConfig config hasher).run ops).2
    let cleared := (before.step .clear).2
    let fresh : Cache κ α := ofConfig config hasher'
    (∃ o, (before.step .clear).1 = .ok o) ∧
      ∃ done rest, later = done ++ rest ∧
        (∀ past, past <+: done → cleared.Answers past ∧ (cleared.run past).1 = (fresh.run past).1 ∧
          Resumes before (fresh.run past).2 (cleared.run past).2) ∧
        (∀ op tail, rest = op :: tail → (cleared.run done).2.Overflows op) ∧
        (ops.length + later.length < UInt64.size → rest = []) := by
  intro before cleared fresh
  obtain ⟨hclear, hshows, hcleared⟩ := hanswers.clear
  obtain ⟨done, rest, rfl, hdone, hstop⟩ := hshows.answers_or_overflows later
  refine ⟨hclear, done, rest, rfl, ?_, hstop, fun hlength => ?_⟩
  · rintro past ⟨tail, rfl⟩
    have hpast := (answers_append_iff.mp hdone).1
    obtain ⟨houtcomes, hlast, hcounts⟩ := hshows.run hpast
    have hfresh := hshows.answers_ofConfig hpast hasher'
    obtain ⟨houtcomes', hlast', -⟩ := (shows_ofConfig config hasher').run hfresh
    refine ⟨hpast, houtcomes.trans houtcomes'.symm, hlast.resumes hlast' fun counter hgrows => ?_⟩
    rw [hfresh.counted_eq hgrows, ← hcleared counter hgrows]
    exact hcounts counter hgrows
  · cases rest with
    | nil => rfl
    | cons op tail =>
      obtain ⟨-, hlast, hcounts⟩ := hshows.run hdone
      obtain ⟨counter, hgrows, -, hfull⟩ := hlast.full_of_overflows (hstop op tail rfl)
      have hbefore := (CacheModel.ofConfig (κ := κ) (α := α) config).count_raisedBy_le ops counter
      have hlater := (CacheModel.ofConfig (κ := κ) (α := α) config).count_raisedBy_le done counter
      have hbase := (hcleared counter hgrows).trans (hanswers.counted_eq hgrows)
      rw [hcounts counter hgrows] at hfull
      rw [counted] at hbase
      simp only [List.length_append, List.length_cons] at hlength
      omega

/-- A cache of three slots that holds the key 1 in old and the key 2 in young. -/
def threeSlots : Cache Nat Nat :=
  ((ofConfig { capacity := ⟨3, by decide, by decide⟩, promotionThreshold := 1 }
    (Hasher.constant 0)).run [.put 1 10, .get 1, .put 2 20]).2

/-- Three slots are cleared and used again as new ones. -/
theorem run_after_clear_threeSlots :
    let later : List (Operation Nat Nat) := [.get 1, .put 1 11, .set 2 (some 21), .put 3 31, .get 2]
    let cleared := (threeSlots.step .clear).2
    let fresh : Cache Nat Nat :=
      ofConfig { capacity := ⟨3, by decide, by decide⟩, promotionThreshold := 1 }
        (Hasher.constant 1)
    threeSlots.length = 2 ∧ (cleared.run later).1 = (fresh.run later).1 ∧
      Resumes threeSlots (fresh.run later).2 (cleared.run later).2 := by
  have hlength : threeSlots.length = 2 := by decide +kernel
  intro later cleared fresh
  obtain ⟨-, done, rest, hsplit, hdone, -, hrest⟩ :=
    run_after_clear { capacity := ⟨3, by decide, by decide⟩, promotionThreshold := 1 }
      (Hasher.constant 0) (Hasher.constant 1) [.put 1 10, .get 1, .put 2 20] later
      (answers_of_length _ _ _ (by decide))
  obtain rfl : later = done := by rw [hsplit, hrest (by decide), List.append_nil]
  obtain ⟨-, houtcomes, hresumes⟩ := hdone later (List.prefix_refl later)
  exact ⟨hlength, houtcomes, hresumes⟩

end Cache

end CachePool
