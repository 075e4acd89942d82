import CachePool.Proofs.Cache.Rules

/-!
# What becomes of a cached pair

The value of a key is the one that it is paired with in the model. A hit permutes the
pairs, a write replaces the value of one, a removal takes one out, and a new key brings
one in and pushes the last young one out if there is no room. So the rules tell for
every key what a call makes of its value.
-/

namespace CachePool

namespace Operation

variable {κ α : Type}

/-- The key that a call gives a value, and that value. -/
def assigns : Operation κ α → Option (κ × α)
  | .put key value => some (key, value)
  | .set key (some value) => some (key, value)
  | _ => none

end Operation

namespace CacheModel

variable {κ α : Type} [DecidableEq κ] {m m' : CacheModel κ α} {key k : κ} {value v : α}
  {items : List (Item κ α)} {item o : Item κ α}

/-- Where no key occurs twice, the value of a key is the one that it is paired with. -/
theorem value?_eq_some_iff (h : m.Sound) : m.value? key = some v ↔ (key, v) ∈ m.pairs := by
  rw [value?, Option.map_eq_some_iff, pairs, List.mem_map]
  constructor
  · rintro ⟨i, hi, rfl⟩
    obtain ⟨hmem, rfl⟩ := itemOf_some hi
    exact ⟨i, hmem, rfl⟩
  · rintro ⟨i, hmem, hpair⟩
    obtain ⟨rfl, rfl⟩ := Prod.mk.inj hpair
    exact ⟨i, itemOf_eq_some h.distinct hmem, rfl⟩

/-- A key has a value if it occurs. -/
theorem value?_isSome_iff : (m.value? key).isSome ↔ key ∈ keys (m.young ++ m.old) := by
  rw [Option.isSome_iff_ne_none, ne_eq, value?_eq_none_iff, not_not]

/-- A young item does not carry a key without a value. -/
theorem key_ne_of_mem_young (hkey : m.value? key = none) (ho : o ∈ m.young) : o.key ≠ key := by
  rintro rfl
  exact value?_eq_none_iff.mp hkey (mem_keys_of_mem (List.mem_append_left m.old ho))

/-- Models with the same pairs have the same values. -/
theorem value?_congr (h : m.Sound) (h' : m'.Sound) (hpairs : m'.pairs.Perm m.pairs) :
    m'.value? key = m.value? key := by
  ext v
  rw [value?_eq_some_iff h', value?_eq_some_iff h, hpairs.mem_iff]

/-- A key that is taken out of the generation that has it takes its pair along. -/
theorem perm_pair_without (h : itemOf items key = some item) :
    (items.map fun i => (i.key, i.value)).Perm
      ((key, item.value) :: (without items key).map fun i => (i.key, i.value)) := by
  obtain ⟨-, rfl⟩ := itemOf_some h
  exact (perm_without h).map _

/-- A cached key is young, or it is old and not young. -/
theorem itemOf_cases (hv : m.value? key = some v) :
    (∃ item, itemOf m.young key = some item ∧ item.value = v) ∨
      key ∉ keys m.young ∧ ∃ item, itemOf m.old key = some item ∧ item.value = v := by
  rw [value?, itemOf, List.find?_append] at hv
  cases hy : itemOf m.young key with
  | some item =>
    simp only [itemOf] at hy
    rw [hy] at hv
    exact Or.inl ⟨item, rfl, Option.some.inj hv⟩
  | none =>
    have hnot := itemOf_eq_none_iff.mp hy
    simp only [itemOf] at hy
    rw [hy] at hv
    exact Or.inr ⟨hnot, Option.map_eq_some_iff.mp hv⟩

/-- A put answers with the value that the key had. -/
theorem put_result (m : CacheModel κ α) (key : κ) (value : α) :
    (m.put key value).outcome.result = .value (m.value? key) := by
  cases hv : m.value? key with
  | some before => rw [put_known hv]
  | none =>
    rw [put_new hv]
    simp only [insert]
    split <;> rfl

/-- A removal answers with the value that the key had. -/
theorem remove_result (m : CacheModel κ α) (key : κ) :
    (m.remove key).outcome.result = .value (m.value? key) := by
  cases hv : m.value? key with
  | some before => rw [remove_known hv]
  | none => rw [remove_absent hv]

/-- A lookup that minds what is gone answers with the value of the key, if that is alive. -/
theorem getLive_result (m : CacheModel κ α) (key : κ) (alive : α → Bool) :
    (m.getLive key alive).outcome.result = .value ((m.value? key).filter alive) := by
  rcases m.getLive_cases key alive with
    ⟨hv, heq⟩ | ⟨value, hv, halive, heq⟩ | ⟨value, hv, hgone, heq⟩
  · rw [heq, hv, Option.filter_none]
  · rw [heq, hv, Option.filter_some_pos halive]
  · rw [heq, hv, Option.filter_some_neg (by simp [hgone])]

/-- A hit, or a miss, permutes the pairs. -/
theorem pairs_hit (h : m.Sound) (key : κ) : (m.hit key).2.pairs.Perm m.pairs := by
  cases hy : itemOf m.young key with
  | some item =>
    have hperm := (perm_pair_without hy).append_right (m.old.map fun i => (i.key, i.value))
    rw [← List.map_append] at hperm
    by_cases hlt : item.hits + 1 < m.threshold
    · rw [hit_young hy hlt]
      obtain ⟨-, rfl⟩ := itemOf_some hy
      simpa only [pairs, List.map_append, List.cons_append, List.map_cons] using hperm.symm
    · rw [hit_ripe hy (Nat.le_of_not_lt hlt)]
      obtain ⟨-, rfl⟩ := itemOf_some hy
      have hpromote := pairs_promote (m := { m with young := without m.young item.key }) h.oldRoom item
      refine hpromote.trans ?_
      simpa only [pairs, List.map_append, List.cons_append] using hperm.symm
  | none =>
    have hyoung := itemOf_eq_none_iff.mp hy
    cases ho : itemOf m.old key with
    | some item =>
      have hperm := (perm_pair_without ho).append_left (m.young.map fun i => (i.key, i.value))
      rw [hit_old hyoung ho]
      obtain ⟨-, rfl⟩ := itemOf_some ho
      simpa only [pairs, List.map_append, List.map_cons] using hperm.symm
    | none =>
      have hold := itemOf_eq_none_iff.mp ho
      rw [hit_absent (by simpa only [keys_append, List.mem_append, not_or] using ⟨hyoung, hold⟩)]

/-- A hit, or a miss, leaves every value alone. -/
theorem value?_hit (h : m.Sound) (key k : κ) : (m.hit key).2.value? k = m.value? k :=
  value?_congr h (h.hit key) (pairs_hit h key)

/-- A key that is taken out takes its pair along. -/
theorem pairs_erase (h : m.Sound) (hv : m.value? key = some v) :
    m.pairs.Perm ((key, v) :: (m.erase key).pairs) := by
  have hdistinct := h.distinct
  rw [keys_append, List.nodup_append] at hdistinct
  rw [pairs, pairs, erase, List.map_append, List.map_append]
  rcases itemOf_cases hv with ⟨item, hitem, rfl⟩ | ⟨hyoung, item, hitem, rfl⟩
  · obtain ⟨hmem, hkey⟩ := itemOf_some hitem
    have hold : key ∉ keys m.old := fun hold =>
      hdistinct.2.2 key (hkey ▸ mem_keys_of_mem hmem) key hold rfl
    rw [without_of_not_mem hold]
    exact (perm_pair_without hitem).append_right _
  · rw [without_of_not_mem hyoung]
    exact ((perm_pair_without hitem).append_left _).trans List.perm_middle

/-- A key that is taken out has no value, and every other key keeps its own. -/
theorem value?_erase (h : m.Sound) (hv : m.value? key = some v) (k : κ) :
    (m.erase key).value? k = if k = key then none else m.value? k := by
  have hperm := pairs_erase h hv
  have hnodup := h.distinct
  rw [← map_fst_pairs, (hperm.map Prod.fst).nodup_iff, List.map_cons, List.nodup_cons,
    map_fst_pairs] at hnodup
  split_ifs with hk
  · rw [hk, value?_eq_none_iff]
    exact hnodup.1
  · ext w
    rw [value?_eq_some_iff (h.erase key), value?_eq_some_iff h, hperm.mem_iff, List.mem_cons]
    exact ⟨Or.inr, fun hw => hw.resolve_left fun he => hk (Prod.mk.inj he).1⟩

/-- A removed key has no value. -/
theorem value?_remove_self (h : m.Sound) (key : κ) : (m.remove key).next.value? key = none := by
  cases hv : m.value? key with
  | some before => rw [remove_known hv, value?_erase h hv, if_pos rfl]
  | none => rwa [remove_absent hv]

/-- A removal leaves every other key alone. -/
theorem value?_remove_of_ne (h : m.Sound) (hk : k ≠ key) :
    (m.remove key).next.value? k = m.value? k := by
  cases hv : m.value? key with
  | some before => rw [remove_known hv, value?_erase h hv, if_neg hk]
  | none => rw [remove_absent hv]

theorem write_all (m : CacheModel κ α) (key : κ) (f : α → α) :
    (m.write key f).young ++ (m.write key f).old = revise (m.young ++ m.old) key f :=
  List.map_append.symm

/-- A written key has its value replaced, and every other key keeps its own. -/
theorem value?_write (m : CacheModel κ α) (key : κ) (f : α → α) (k : κ) :
    (m.write key f).value? k = if k = key then (m.value? k).map f else m.value? k := by
  have hkeep : (fun i : Item κ α => decide
      ((if i.key = key then { i with value := f i.value } else i).key = k)) =
        fun i => decide (i.key = k) := by
    funext i
    by_cases hi : i.key = key <;> simp only [hi, if_true, if_false]
  rw [value?, value?, write_all, itemOf, revise, List.find?_map, Function.comp_def, hkeep, ← itemOf]
  cases hi : itemOf (m.young ++ m.old) k with
  | none => simp
  | some item =>
    obtain ⟨-, rfl⟩ := itemOf_some hi
    by_cases hk : item.key = key <;> simp [hk]

/-- A write replaces the value in the pair of its key. -/
theorem pairs_write (h : m.Sound) (hv : m.value? key = some v) (f : α → α) :
    ((key, v) :: (m.write key f).pairs).Perm ((key, f v) :: m.pairs) := by
  obtain ⟨item, hitem, rfl⟩ := Option.map_eq_some_iff.mp hv
  obtain ⟨-, rfl⟩ := itemOf_some hitem
  have hperm := perm_without hitem
  have hnodup := (keys_perm hperm).nodup_iff.mp h.distinct
  have hout := (List.nodup_cons.mp hnodup).1
  have hwritten : (revise (m.young ++ m.old) item.key f).Perm
      ({ item with value := f item.value } :: without (m.young ++ m.old) item.key) := by
    refine (hperm.map _).trans (.of_eq ?_)
    rw [List.map_cons, if_pos rfl]
    exact congrArg _ (revise_of_not_mem hout f)
  rw [pairs, pairs, write_all]
  refine ((hwritten.map _).cons _).trans ((List.Perm.swap _ _ _).trans ?_)
  exact ((hperm.map fun i => (i.key, i.value)).symm).cons _

/-- The young item that a new key pushes out. -/
def displaced (m : CacheModel κ α) : Option (Item κ α) :=
  if m.young.length < m.youngCapacity then none else m.young.getLast?

omit [DecidableEq κ] in
/-- Nothing is displaced while young has room. -/
theorem displaced_room (h : m.young.length < m.youngCapacity) : m.displaced = none := if_pos h

omit [DecidableEq κ] in
/-- A full young generation has its last item displaced. -/
theorem displaced_full (h : m.youngCapacity ≤ m.young.length) (hy : m.young = items ++ [o]) :
    m.displaced = some o := by
  rw [displaced, if_neg (Nat.not_lt.mpr h), hy, List.getLast?_concat]

omit [DecidableEq κ] in
/-- A displaced item was young. -/
theorem mem_of_displaced (h : m.displaced = some o) : o ∈ m.young := by
  rw [displaced] at h
  split at h
  · cases h
  · exact List.mem_of_getLast? h

omit [DecidableEq κ] in
/-- A new key frees the value of the displaced item. -/
theorem insert_freed (h : m.Sound) (key : κ) (value : α) :
    (m.insert key value).outcome.freed = m.displaced.toList.map (·.value) := by
  by_cases hlt : m.young.length < m.youngCapacity
  · rw [insert_room hlt, displaced_room hlt]
    rfl
  · obtain ⟨as, o, hy⟩ := exists_last h.youngRoom (Nat.le_of_not_lt hlt)
    rw [insert_full (Nat.le_of_not_lt hlt) hy, displaced_full (Nat.le_of_not_lt hlt) hy]
    rfl

omit [DecidableEq κ] in
/-- A new key brings its pair in, and the displaced item takes its own out. -/
theorem pairs_insert (h : m.Sound) (key : κ) (value : α) :
    ((m.displaced.toList.map fun i => (i.key, i.value)) ++ (m.insert key value).next.pairs).Perm
      ((key, value) :: m.pairs) := by
  by_cases hlt : m.young.length < m.youngCapacity
  · rw [insert_room hlt, displaced_room hlt]
    exact .refl _
  · obtain ⟨as, o, hy⟩ := exists_last h.youngRoom (Nat.le_of_not_lt hlt)
    rw [insert_full (Nat.le_of_not_lt hlt) hy, displaced_full (Nat.le_of_not_lt hlt) hy]
    simp only [pairs, hy, List.append_assoc, List.cons_append, List.map_cons, Option.toList_some,
      List.map_nil, List.nil_append]
    refine (List.Perm.swap _ _ _).trans (.cons _ ?_)
    have hmiddle : (as ++ o :: m.old).Perm (o :: (as ++ m.old)) := List.perm_middle
    exact hmiddle.symm.map fun i => (i.key, i.value)

/-- A new key has its value, the displaced one has none, and every other key keeps its own. -/
theorem value?_insert (h : m.Sound) (hkey : m.value? key = none) (value : α) (k : κ) :
    (m.insert key value).next.value? k =
      if k = key then some value
      else if m.displaced.map (·.key) = some k then none else m.value? k := by
  have hout := value?_eq_none_iff.mp hkey
  have hnext := h.insert hout value
  have hperm := pairs_insert h key value
  have hnodup : (((m.displaced.toList.map fun i => (i.key, i.value)) ++
      (m.insert key value).next.pairs).map Prod.fst).Nodup := by
    rw [(hperm.map Prod.fst).nodup_iff, List.map_cons, map_fst_pairs]
    exact List.nodup_cons.mpr ⟨hout, h.distinct⟩
  have hmem : ∀ w, (k, w) ∈ (m.displaced.toList.map fun i => (i.key, i.value)) ++
      (m.insert key value).next.pairs ↔ (k, w) = (key, value) ∨ m.value? k = some w := by
    intro w
    rw [hperm.mem_iff, List.mem_cons, value?_eq_some_iff h]
  cases ho : m.displaced with
  | none =>
    simp only [ho, Option.toList_none, List.map_nil, List.nil_append] at hmem
    ext w
    rw [value?_eq_some_iff hnext, hmem]
    by_cases hk : k = key
    · simp [hk, hkey, eq_comm]
    · simp [hk]
  | some o =>
    have hokey := key_ne_of_mem_young hkey (mem_of_displaced ho)
    rw [ho, Option.toList_some, List.map_append, map_fst_pairs] at hnodup
    have hogone : o.key ∉ keys ((m.insert key value).next.young ++
        (m.insert key value).next.old) := (List.nodup_cons.mp hnodup).1
    simp only [ho, Option.toList_some, List.map_cons, List.map_nil, List.singleton_append,
      List.mem_cons] at hmem
    by_cases hko : k = o.key
    · subst hko
      rw [value?_eq_none_iff.mpr hogone, if_neg hokey, if_pos (by simp)]
    · have hne : ∀ w, (k, w) ≠ (o.key, o.value) := fun w he => hko (Prod.mk.inj he).1
      ext w
      rw [value?_eq_some_iff hnext, ← or_iff_right (b := _ ∈ _) (hne w), hmem]
      by_cases hk : k = key
      · simp [hk, hkey, eq_comm]
      · simp [hk, Ne.symm hko]

/-- A call that gives a key a value puts it. -/
theorem step_of_assigns {op : Operation κ α} (h : op.assigns = some (key, value)) :
    m.step op = m.put key value := by
  cases op with
  | put _ _ =>
    cases h
    rfl
  | set _ v =>
    cases v with
    | some _ =>
      cases h
      rfl
    | none => cases h
  | _ => cases h

/-- A key that is put has its value. -/
theorem value?_put_self (h : m.Sound) (key : κ) (value : α) :
    (m.put key value).next.value? key = some value := by
  cases hv : m.value? key with
  | some before => rw [put_known hv, value?_write, if_pos rfl, hv, Option.map_some]
  | none => rw [put_new hv, value?_insert h hv, if_pos rfl]

/-- What another key has after a put, it had before. -/
theorem value?_put_of_ne (h : m.Sound) (hk : k ≠ key)
    (hv : (m.put key value).next.value? k = some v) : m.value? k = some v := by
  cases hkey : m.value? key with
  | some before => rwa [put_known hkey, value?_write, if_neg hk] at hv
  | none =>
    rw [put_new hkey, value?_insert h hkey, if_neg hk] at hv
    split at hv
    · cases hv
    · exact hv

end CacheModel

end CachePool
