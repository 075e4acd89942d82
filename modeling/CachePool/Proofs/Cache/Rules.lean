import CachePool.Cache.Model
import Mathlib.Data.List.Basic
import Mathlib.Data.List.Nodup

/-!
# Keys and bounds under the rules of a cache

A model is sound if no key occurs twice and both generations keep their bounds. A
hit permutes the keys, an insertion adds the one that it is given, and everything
else only takes keys away, so every step keeps a model sound. The equations of a
promotion, an insertion and a hit name what each of them does in each case.
-/

namespace CachePool

open Metrics

namespace CacheModel

variable {κ α : Type} {items as bs : List (Item κ α)} {i o item : Item κ α} {key : κ}
  {m : CacheModel κ α}

/-- The keys of items, in their order. -/
def keys (items : List (Item κ α)) : List κ := items.map (·.key)

/-- The cached keys with their values, the young ones first. -/
def pairs (m : CacheModel κ α) : List (κ × α) := (m.young ++ m.old).map fun i => (i.key, i.value)

/-- No key occurs twice, and both generations have a slot and keep their bounds. -/
structure Sound (m : CacheModel κ α) : Prop where
  distinct : (keys (m.young ++ m.old)).Nodup
  youngBounded : m.young.length ≤ m.youngCapacity
  oldBounded : m.old.length ≤ m.oldCapacity
  youngRoom : 0 < m.youngCapacity
  oldRoom : 0 < m.oldCapacity

theorem keys_append (as bs : List (Item κ α)) : keys (as ++ bs) = keys as ++ keys bs :=
  List.map_append

theorem mem_keys_of_mem (h : i ∈ items) : i.key ∈ keys items := List.mem_map_of_mem h

theorem keys_perm (h : as.Perm bs) : (keys as).Perm (keys bs) := h.map _

/-- The keys of a model are those of its pairs. -/
theorem map_fst_pairs (m : CacheModel κ α) : m.pairs.map Prod.fst = keys (m.young ++ m.old) :=
  List.map_map

/-- The model of a configuration is sound from the start. -/
theorem sound_ofConfig (config : CacheConfig) : (ofConfig config : CacheModel κ α).Sound where
  distinct := List.nodup_nil
  youngBounded := Nat.zero_le _
  oldBounded := Nat.zero_le _
  youngRoom := config.youngCapacity.pos
  oldRoom := config.oldCapacity.pos

/-- Old takes a promoted item while it has room. -/
theorem promote_room (h : m.old.length < m.oldCapacity) (item : Item κ α) :
    m.promote item = ([.promotions], { m with old := { item with hits := 0 } :: m.old }) := by
  rw [promote, if_pos (by rwa [List.length_cons])]

/-- A full old generation takes a promoted item and sends its last one to the front of young. -/
theorem promote_full (h : m.oldCapacity ≤ m.old.length) (ho : m.old = as ++ [o])
    (item : Item κ α) :
    m.promote item = ([.promotions, .demotions],
      { m with
        young := { o with hits := 0 } :: m.young
        old := { item with hits := 0 } :: as }) := by
  rw [promote, if_neg (by rw [List.length_cons]; omega), ho, ← List.cons_append,
    List.getLast?_concat, List.dropLast_concat]
  rfl

/-- A new key enters young while there is room. -/
theorem insert_room (h : m.young.length < m.youngCapacity) (key : κ) (value : α) :
    m.insert key value =
      { outcome := { result := .value none }
        raised := [.insertions]
        next := { m with young := { key, value } :: m.young } } := by
  rw [insert, if_pos (by rwa [List.length_cons])]

/-- A new key that enters a full young generation frees the last item of it. -/
theorem insert_full (h : m.youngCapacity ≤ m.young.length) (hy : m.young = as ++ [o]) (key : κ)
    (value : α) :
    m.insert key value =
      { outcome := { result := .value none, freed := [o.value] }
        raised := [.evictions, .insertions]
        next := { m with young := { key, value } :: as } } := by
  rw [insert, if_neg (by rw [List.length_cons]; omega), hy, ← List.cons_append,
    List.getLast?_concat, List.dropLast_concat]
  rfl

/-- What fills a positive number of slots has a last one. -/
theorem exists_last {β : Type} {l : List β} {n : Nat} (hpos : 0 < n) (h : n ≤ l.length) :
    ∃ as o, l = as ++ [o] := by
  rcases List.eq_nil_or_concat l with rfl | ⟨as, o, rfl⟩
  · rw [List.length_nil] at h
    omega
  · exact ⟨as, o, List.concat_eq_append⟩

/-- A promotion puts the pair of its item in front and permutes the others. -/
theorem pairs_promote (hroom : 0 < m.oldCapacity) (item : Item κ α) :
    (m.promote item).2.pairs.Perm ((item.key, item.value) :: m.pairs) := by
  by_cases hlt : m.old.length < m.oldCapacity
  · rw [promote_room hlt]
    simp only [pairs, List.map_append, List.map_cons]
    exact List.perm_middle
  · obtain ⟨as, o, ho⟩ := exists_last hroom (Nat.le_of_not_lt hlt)
    rw [promote_full (Nat.le_of_not_lt hlt) ho]
    simp only [pairs, ho, List.map_append, List.map_cons, List.cons_append]
    refine (List.perm_middle.cons _).trans ((List.Perm.swap _ _ _).trans (.cons _ ?_))
    rw [← List.append_assoc]
    exact (List.perm_append_singleton (o.key, o.value) _).symm

/-- A promotion puts the key of its item in front and permutes the others. -/
theorem keys_promote (hroom : 0 < m.oldCapacity) (item : Item κ α) :
    (keys ((m.promote item).2.young ++ (m.promote item).2.old)).Perm
      (item.key :: keys (m.young ++ m.old)) := by
  have hpairs := (pairs_promote hroom item).map Prod.fst
  rwa [List.map_cons, map_fst_pairs, map_fst_pairs] at hpairs

/-- A promotion leaves the capacities and the threshold alone. -/
theorem promote_capacities (m : CacheModel κ α) (item : Item κ α) :
    (m.promote item).2.youngCapacity = m.youngCapacity ∧
      (m.promote item).2.oldCapacity = m.oldCapacity ∧
      (m.promote item).2.threshold = m.threshold := by
  simp only [promote]
  split <;> exact ⟨rfl, rfl, rfl⟩

/-- The item that left young makes room for what a promotion sends there. -/
theorem Sound.promote (hkeys : (item.key :: keys (m.young ++ m.old)).Nodup)
    (hyoung : m.young.length < m.youngCapacity) (hold : m.old.length ≤ m.oldCapacity)
    (hroom : 0 < m.oldCapacity) : (m.promote item).2.Sound := by
  obtain ⟨hyc, hoc, -⟩ := promote_capacities m item
  refine ⟨(keys_promote hroom item).nodup_iff.mpr hkeys, ?_, ?_, by omega, by omega⟩
  · rw [hyc]
    by_cases hlt : m.old.length < m.oldCapacity
    · rw [promote_room hlt]
      exact Nat.le_of_lt hyoung
    · obtain ⟨as, o, ho⟩ := exists_last hroom (Nat.le_of_not_lt hlt)
      rw [promote_full (Nat.le_of_not_lt hlt) ho]
      exact hyoung
  · rw [hoc]
    by_cases hlt : m.old.length < m.oldCapacity
    · rw [promote_room hlt]
      exact hlt
    · obtain ⟨as, o, ho⟩ := exists_last hroom (Nat.le_of_not_lt hlt)
      rw [promote_full (Nat.le_of_not_lt hlt) ho]
      rw [ho, List.length_append] at hold
      exact hold

/-- A new key keeps a model sound. -/
theorem Sound.insert (h : m.Sound) (hkey : key ∉ keys (m.young ++ m.old)) (value : α) :
    (m.insert key value).next.Sound := by
  have hkeys : (key :: keys (m.young ++ m.old)).Nodup := List.nodup_cons.mpr ⟨hkey, h.distinct⟩
  by_cases hlt : m.young.length < m.youngCapacity
  · rw [insert_room hlt]
    exact ⟨hkeys, hlt, h.oldBounded, h.youngRoom, h.oldRoom⟩
  · obtain ⟨as, o, hy⟩ := exists_last h.youngRoom (Nat.le_of_not_lt hlt)
    have hbounded := h.youngBounded
    rw [insert_full (Nat.le_of_not_lt hlt) hy]
    rw [hy] at hkeys hbounded
    rw [List.length_append] at hbounded
    refine ⟨hkeys.sublist (.cons_cons _ ?_), hbounded, h.oldBounded, h.youngRoom, h.oldRoom⟩
    exact ((List.sublist_append_left as [o]).append (.refl m.old)).map _

variable [DecidableEq κ]

/-- A key without an item does not occur. -/
theorem itemOf_eq_none_iff : itemOf items key = none ↔ key ∉ keys items := by
  simp [itemOf, keys]

/-- The item of a key occurs and carries it. -/
theorem itemOf_some (h : itemOf items key = some i) : i ∈ items ∧ i.key = key :=
  ⟨List.mem_of_find?_eq_some h, by simpa using List.find?_some h⟩

/-- A key that occurs once is found where it is. -/
theorem itemOf_eq_some (hnodup : (keys items).Nodup) (hi : i ∈ items) :
    itemOf items i.key = some i := by
  cases h : itemOf items i.key with
  | none => exact (itemOf_eq_none_iff.mp h (mem_keys_of_mem hi)).elim
  | some j =>
    obtain ⟨hj, hkey⟩ := itemOf_some h
    rw [List.inj_on_of_nodup_map hnodup hj hi hkey]

/-- Without a key, its item is missing. -/
theorem perm_without (h : itemOf items key = some i) : items.Perm (i :: without items key) := by
  induction items with
  | nil => cases h
  | cons j items ih =>
    rw [itemOf, List.find?_cons] at h
    by_cases hj : j.key = key
    · simp only [hj, decide_true, Option.some.injEq] at h
      subst h
      rw [without, List.eraseP_cons_of_pos (by simpa using hj)]
    · simp only [hj, decide_false] at h
      rw [without, List.eraseP_cons_of_neg (by simpa using hj)]
      exact ((ih h).cons j).trans (.swap _ _ _)

/-- To take out a key that does not occur changes nothing. -/
theorem without_of_not_mem (h : key ∉ keys items) : without items key = items :=
  List.eraseP_of_forall_not fun _ hi hkey =>
    h ((of_decide_eq_true hkey) ▸ mem_keys_of_mem hi)

theorem without_sublist (items : List (Item κ α)) (key : κ) : (without items key).Sublist items :=
  List.eraseP_sublist

/-- A revision keeps the keys in their order. -/
theorem keys_revise (items : List (Item κ α)) (key : κ) (f : α → α) :
    keys (revise items key f) = keys items := by
  simp only [keys, revise, List.map_map]
  refine List.map_congr_left fun i _ => ?_
  simp only [Function.comp]
  split <;> rfl

/-- To revise a key that does not occur changes nothing. -/
theorem revise_of_not_mem (h : key ∉ keys items) (f : α → α) : revise items key f = items := by
  have hid : ∀ i ∈ items, (if i.key = key then { i with value := f i.value } else i) = i := by
    intro i hi
    refine if_neg ?_
    rintro rfl
    exact h (mem_keys_of_mem hi)
  rw [revise, List.map_congr_left hid, List.map_id']

/-- To write to a key that does not occur changes nothing. -/
theorem write_absent (h : key ∉ keys (m.young ++ m.old)) (f : α → α) : m.write key f = m := by
  simp only [keys_append, List.mem_append, not_or] at h
  rw [write, revise_of_not_mem h.1, revise_of_not_mem h.2]

/-- A young hit below the threshold is counted and refreshes its item. -/
theorem hit_young (hitem : itemOf m.young key = some item) (hlt : item.hits + 1 < m.threshold) :
    m.hit key = ([.requests, .cacheHits, .youngHits],
      { m with young := { item with hits := item.hits + 1 } :: without m.young key }) := by
  simp only [hit, hitem, if_pos hlt]

/-- A young hit that reaches the threshold promotes its item. -/
theorem hit_ripe (hitem : itemOf m.young key = some item)
    (hle : m.threshold ≤ item.hits + 1) :
    m.hit key =
      ([.requests, .cacheHits, .youngHits] ++
          ({ m with young := without m.young key }.promote item).1,
        ({ m with young := without m.young key }.promote item).2) := by
  simp only [hit, hitem, if_neg (Nat.not_lt.mpr hle)]

/-- A young hit that reaches the threshold moves its item to old while that has room. -/
theorem hit_room (hitem : itemOf m.young key = some item) (hle : m.threshold ≤ item.hits + 1)
    (hroom : m.old.length < m.oldCapacity) :
    m.hit key = ([.requests, .cacheHits, .youngHits, .promotions],
      { m with young := without m.young key, old := { item with hits := 0 } :: m.old }) := by
  have hpromote := promote_room (m := { m with young := without m.young key }) hroom item
  rw [hit_ripe hitem hle, hpromote]
  rfl

/-- A young hit that reaches the threshold exchanges its item for the last one of a full old
generation. -/
theorem hit_full (hitem : itemOf m.young key = some item) (hle : m.threshold ≤ item.hits + 1)
    (hfull : m.oldCapacity ≤ m.old.length) (ho : m.old = as ++ [o]) :
    m.hit key = ([.requests, .cacheHits, .youngHits, .promotions, .demotions],
      { m with
        young := { o with hits := 0 } :: without m.young key
        old := { item with hits := 0 } :: as }) := by
  have hpromote := promote_full (m := { m with young := without m.young key }) hfull ho item
  rw [hit_ripe hitem hle, hpromote]
  rfl

/-- An old hit refreshes its item. -/
theorem hit_old (hyoung : key ∉ keys m.young) (hitem : itemOf m.old key = some item) :
    m.hit key = ([.requests, .cacheHits, .oldHits],
      { m with old := item :: without m.old key }) := by
  simp only [hit, itemOf_eq_none_iff.mpr hyoung, hitem]

/-- A miss changes nothing. -/
theorem hit_absent (h : key ∉ keys (m.young ++ m.old)) : m.hit key = ([.requests], m) := by
  simp only [keys_append, List.mem_append, not_or] at h
  simp only [hit, itemOf_eq_none_iff.mpr h.1, itemOf_eq_none_iff.mpr h.2]

/-- Everything that a hit can do. -/
theorem Sound.hit_cases (h : m.Sound) (key : κ) :
    (∃ item, itemOf m.young key = some item ∧ item.hits + 1 < m.threshold ∧
      m.hit key = ([.requests, .cacheHits, .youngHits],
        { m with young := { item with hits := item.hits + 1 } :: without m.young key })) ∨
    (∃ item, itemOf m.young key = some item ∧ m.threshold ≤ item.hits + 1 ∧
      m.hit key = ([.requests, .cacheHits, .youngHits, .promotions],
        { m with young := without m.young key, old := { item with hits := 0 } :: m.old })) ∨
    (∃ item as o, itemOf m.young key = some item ∧ m.threshold ≤ item.hits + 1 ∧
      m.old = as ++ [o] ∧ m.hit key = ([.requests, .cacheHits, .youngHits, .promotions, .demotions],
        { m with
          young := { o with hits := 0 } :: without m.young key
          old := { item with hits := 0 } :: as })) ∨
    (∃ item, itemOf m.young key = none ∧ itemOf m.old key = some item ∧
      m.hit key = ([.requests, .cacheHits, .oldHits],
        { m with old := item :: without m.old key })) ∨
    (key ∉ keys (m.young ++ m.old) ∧ m.hit key = ([.requests], m)) := by
  cases hy : itemOf m.young key with
  | some item =>
    by_cases hlt : item.hits + 1 < m.threshold
    · exact .inl ⟨item, rfl, hlt, hit_young hy hlt⟩
    · have hle := Nat.le_of_not_lt hlt
      by_cases hroom : m.old.length < m.oldCapacity
      · exact .inr (.inl ⟨item, rfl, hle, hit_room hy hle hroom⟩)
      · have hfull := Nat.le_of_not_lt hroom
        obtain ⟨as, o, ho⟩ := exists_last h.oldRoom hfull
        exact .inr (.inr (.inl ⟨item, as, o, rfl, hle, ho, hit_full hy hle hfull ho⟩))
  | none =>
    have hyoung := itemOf_eq_none_iff.mp hy
    cases ho : itemOf m.old key with
    | some item => exact .inr (.inr (.inr (.inl ⟨item, rfl, rfl, hit_old hyoung ho⟩)))
    | none =>
      have hout : key ∉ keys (m.young ++ m.old) := by
        simpa only [keys_append, List.mem_append, not_or] using
          ⟨hyoung, itemOf_eq_none_iff.mp ho⟩
      exact .inr (.inr (.inr (.inr ⟨hout, hit_absent hout⟩)))

/-- A hit keeps a model sound. -/
theorem Sound.hit (h : m.Sound) (key : κ) : (m.hit key).2.Sound := by
  cases hy : itemOf m.young key with
  | some item =>
    have hperm := perm_without hy
    have hkeys : (item.key :: keys (without m.young key ++ m.old)).Nodup :=
      (keys_perm (hperm.append_right m.old)).nodup_iff.mp h.distinct
    have hbounded := h.youngBounded
    rw [hperm.length_eq, List.length_cons] at hbounded
    by_cases hlt : item.hits + 1 < m.threshold
    · rw [hit_young hy hlt]
      exact ⟨hkeys, hbounded, h.oldBounded, h.youngRoom, h.oldRoom⟩
    · rw [hit_ripe hy (Nat.le_of_not_lt hlt)]
      exact Sound.promote hkeys hbounded h.oldBounded h.oldRoom
  | none =>
    have hyoung := itemOf_eq_none_iff.mp hy
    cases ho : itemOf m.old key with
    | some item =>
      have hperm := perm_without ho
      rw [hit_old hyoung ho]
      refine ⟨?_, h.youngBounded, ?_, h.youngRoom, h.oldRoom⟩
      · exact (keys_perm (hperm.append_left m.young)).nodup_iff.mp h.distinct
      · rw [← hperm.length_eq]
        exact h.oldBounded
    | none =>
      have hold := itemOf_eq_none_iff.mp ho
      rw [hit_absent (by simpa only [keys_append, List.mem_append, not_or] using ⟨hyoung, hold⟩)]
      exact h

/-- A key without a value does not occur. -/
theorem value?_eq_none_iff : m.value? key = none ↔ key ∉ keys (m.young ++ m.old) := by
  rw [value?, Option.map_eq_none_iff, itemOf_eq_none_iff]

/-- A key with a value has it replaced by a put. -/
theorem put_known {before : α} (h : m.value? key = some before) (value : α) :
    m.put key value =
      { outcome := { result := .value (some before) }
        raised := [.updates]
        next := m.write key fun _ => value } := by
  simp only [put, h]

/-- A key without a value is inserted by a put. -/
theorem put_new (h : m.value? key = none) (value : α) : m.put key value = m.insert key value := by
  simp only [put, h]

/-- A key with a value is taken out by a removal. -/
theorem remove_known {before : α} (h : m.value? key = some before) :
    m.remove key =
      { outcome := { result := .value (some before) }
        raised := [.removals]
        next := m.erase key } := by
  simp only [remove, h]

/-- To remove a key without a value changes nothing. -/
theorem remove_absent (h : m.value? key = none) :
    m.remove key = { outcome := { result := .value none }, next := m } := by
  simp only [remove, h]

/-- Everything that a lookup of a value that may be gone can do. -/
theorem getLive_cases (m : CacheModel κ α) (key : κ) (alive : α → Bool) :
    (m.value? key = none ∧ m.getLive key alive =
      { outcome := { result := .value none }, raised := [.requests], next := m }) ∨
    (∃ value, m.value? key = some value ∧ alive value = true ∧ m.getLive key alive =
      { outcome := { result := .value (some value) }
        raised := (m.hit key).1
        next := (m.hit key).2 }) ∨
    (∃ value, m.value? key = some value ∧ alive value = false ∧ m.getLive key alive =
      { outcome := { result := .value none, freed := [value] }
        raised := [.requests, .expired]
        next := m.erase key }) := by
  cases hv : m.value? key with
  | none => exact .inl ⟨rfl, by simp only [getLive, hv]⟩
  | some value =>
    cases halive : alive value with
    | true => exact .inr (.inl ⟨value, rfl, halive, by simp only [getLive, hv, halive, if_true]⟩)
    | false =>
      refine .inr (.inr ⟨value, rfl, halive, ?_⟩)
      simp only [getLive, hv, halive, Bool.false_eq_true, if_false]

/-- An update answers with the value before, hits its key and writes to it. -/
theorem step_update (m : CacheModel κ α) (key : κ) (f : α → α) :
    m.step (.update key f) =
      { outcome := { result := .value (m.value? key) }
        raised := (m.hit key).1
        next := (m.hit key).2.write key f } := rfl

/-- A written value keeps a model sound. -/
theorem Sound.write (h : m.Sound) (key : κ) (f : α → α) : (m.write key f).Sound where
  distinct := by
    have hkeys := h.distinct
    rw [keys_append] at hkeys ⊢
    rwa [CacheModel.write, keys_revise, keys_revise]
  youngBounded := by simpa only [CacheModel.write, revise, List.length_map] using h.youngBounded
  oldBounded := by simpa only [CacheModel.write, revise, List.length_map] using h.oldBounded
  youngRoom := h.youngRoom
  oldRoom := h.oldRoom

/-- A key that is taken out leaves a model sound. -/
theorem Sound.erase (h : m.Sound) (key : κ) : (m.erase key).Sound where
  distinct := h.distinct.sublist
    (((without_sublist m.young key).append (without_sublist m.old key)).map _)
  youngBounded := Nat.le_trans (without_sublist m.young key).length_le h.youngBounded
  oldBounded := Nat.le_trans (without_sublist m.old key).length_le h.oldBounded
  youngRoom := h.youngRoom
  oldRoom := h.oldRoom

/-- A put keeps a model sound. -/
theorem Sound.put (h : m.Sound) (key : κ) (value : α) : (m.put key value).next.Sound := by
  rw [CacheModel.put]
  cases hv : m.value? key with
  | some before => exact h.write key _
  | none => exact h.insert (value?_eq_none_iff.mp hv) value

/-- A removal keeps a model sound. -/
theorem Sound.remove (h : m.Sound) (key : κ) : (m.remove key).next.Sound := by
  rw [CacheModel.remove]
  cases m.value? key with
  | some before => exact h.erase key
  | none => exact h

/-- Every step keeps a model sound. -/
theorem Sound.step (h : m.Sound) (op : Operation κ α) : (m.step op).next.Sound := by
  cases op with
  | get key => exact h.hit key
  | update key f => exact (h.hit key).write key f
  | getLive key alive =>
    rw [CacheModel.step, getLive]
    cases m.value? key with
    | none => exact h
    | some value =>
      simp only
      split
      · exact h.hit key
      · exact h.erase key
  | peek key => exact h
  | contains key => exact h
  | generationOf key => exact h
  | put key value => exact h.put key value
  | set key value =>
    cases value with
    | some value => exact h.put key value
    | none => exact h.remove key
  | remove key => exact h.remove key
  | clear =>
    exact ⟨List.nodup_nil, Nat.zero_le _, Nat.zero_le _, h.youngRoom, h.oldRoom⟩

end CacheModel

end CachePool
