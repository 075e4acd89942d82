import CachePool.Proofs.Cache.Coherence

/-!
# Items that leave the cache

An item is lost in a call if its key is cached before the call and not after it. What
is lost and what stays add up to what was there: a removal loses the item of its key,
an insertion the item that it displaces, a clear all of them, and no other call loses
any. The items that a history lost are gathered call by call, for each generation.
-/

namespace CachePool

namespace CacheModel

variable {κ α : Type} [DecidableEq κ] {m next : CacheModel κ α} {items gone kept : List (Item κ α)}
  {i item : Item κ α} {key k : κ} {value v : α}

/-- The items whose keys have no value in the next model. -/
def lost (next : CacheModel κ α) (items : List (Item κ α)) : List (Item κ α) :=
  items.filter fun i => (next.value? i.key).isNone

/-- What is gone is lost, and what is kept is not. -/
theorem lost_perm (hsplit : items.Perm (gone ++ kept))
    (hgone : ∀ i ∈ gone, next.value? i.key = none)
    (hkept : ∀ i ∈ kept, (next.value? i.key).isSome) : (lost next items).Perm gone := by
  have hall : gone.filter (fun i => (next.value? i.key).isNone) = gone :=
    List.filter_eq_self.mpr fun i hi => by simp [hgone i hi]
  have hnone : kept.filter (fun i => (next.value? i.key).isNone) = [] :=
    List.filter_eq_nil_iff.mpr fun i hi => by
      have hsome := hkept i hi
      rw [Option.isSome_iff_ne_none] at hsome
      simp [hsome]
  have hperm := hsplit.filter fun i => (next.value? i.key).isNone
  rwa [List.filter_append, hall, hnone, List.append_nil] at hperm

/-- Nothing is lost where every key keeps a value. -/
theorem lost_eq_nil (hkept : ∀ i ∈ items, (next.value? i.key).isSome) : lost next items = [] :=
  List.perm_nil.mp (lost_perm (List.Perm.refl ([] ++ items)) (by simp) hkept)

/-- Every key with a value has one in the next model. -/
def Keeps (m next : CacheModel κ α) : Prop :=
  ∀ key, (m.value? key).isSome → (next.value? key).isSome

/-- An item has its key among those with a value. -/
theorem value?_isSome_of_mem (hi : item ∈ m.young ++ m.old) : (m.value? item.key).isSome :=
  value?_isSome_iff.mpr (mem_keys_of_mem hi)

theorem Keeps.lost_young (h : m.Keeps next) : lost next m.young = [] :=
  lost_eq_nil fun _ hi => h _ (value?_isSome_of_mem (List.mem_append_left _ hi))

theorem Keeps.lost_old (h : m.Keeps next) : lost next m.old = [] :=
  lost_eq_nil fun _ hi => h _ (value?_isSome_of_mem (List.mem_append_right _ hi))

theorem Keeps.refl (m : CacheModel κ α) : m.Keeps m := fun _ hkey => hkey

/-- A hit, or a miss, keeps every key. -/
theorem keeps_hit (h : m.Sound) (key : κ) : m.Keeps (m.hit key).2 := by
  intro k hk
  rwa [value?_hit h]

/-- A write keeps every key. -/
theorem keeps_write (m : CacheModel κ α) (key : κ) (f : α → α) : m.Keeps (m.write key f) := by
  intro k hk
  rw [value?_write]
  split
  · rwa [Option.isSome_map]
  · exact hk

/-- A hit with a write after it keeps every key. -/
theorem keeps_update (h : m.Sound) (key : κ) (f : α → α) :
    m.Keeps ((m.hit key).2.write key f) :=
  fun k hk => keeps_write _ key f k (keeps_hit h key k hk)

/-- Where no key occurs twice, a key that is taken out is left in no other item. -/
theorem mem_without (hnodup : (keys items).Nodup) (hi : i ∈ without items key) :
    i ∈ items ∧ i.key ≠ key := by
  refine ⟨(without_sublist items key).mem hi, ?_⟩
  rintro rfl
  cases hitem : itemOf items i.key with
  | none =>
    rw [without_of_not_mem (itemOf_eq_none_iff.mp hitem)] at hi
    exact itemOf_eq_none_iff.mp hitem (mem_keys_of_mem hi)
  | some item =>
    obtain ⟨-, hkey⟩ := itemOf_some hitem
    have hnodup' := (keys_perm (perm_without hitem)).nodup_iff.mp hnodup
    rw [keys, List.map_cons, List.nodup_cons, hkey] at hnodup'
    exact hnodup'.1 (mem_keys_of_mem hi)

/-- A key that is taken out of a generation is what the generation loses. -/
theorem perm_lost_without (h : m.Sound) (hv : m.value? key = some v)
    (hsub : items.Sublist (m.young ++ m.old)) :
    items.Perm (lost (m.erase key) items ++ without items key) := by
  have hkept : ∀ i ∈ items, i.key ≠ key → ((m.erase key).value? i.key).isSome := by
    intro i hi hne
    rw [value?_erase h hv, if_neg hne]
    exact value?_isSome_of_mem (hsub.mem hi)
  cases hitem : itemOf items key with
  | none =>
    have hout := itemOf_eq_none_iff.mp hitem
    have hlost : lost (m.erase key) items = [] := by
      apply lost_eq_nil
      rintro i hi
      exact hkept i hi fun hkey => hout (hkey ▸ mem_keys_of_mem hi)
    rw [hlost, without_of_not_mem hout, List.nil_append]
  | some item =>
    obtain ⟨-, rfl⟩ := itemOf_some hitem
    have hperm := perm_without hitem
    have hnodup := h.distinct.sublist (hsub.map Item.key)
    have hlost : (lost (m.erase item.key) items).Perm [item] := by
      apply lost_perm (show items.Perm ([item] ++ without items item.key) from hperm)
      · intro i hi
        rw [List.mem_singleton.mp hi, value?_erase h hv, if_pos rfl]
      · intro i hi
        obtain ⟨hmem, hne⟩ := mem_without hnodup hi
        exact hkept i hmem hne
    exact hperm.trans (hlost.symm.append_right _)

/-- A removal splits young into the item of its key and the rest. -/
theorem perm_lost_erase_young (h : m.Sound) (hv : m.value? key = some v) :
    m.young.Perm (lost (m.erase key) m.young ++ (m.erase key).young) :=
  perm_lost_without h hv (List.sublist_append_left _ _)

/-- A removal splits old into the item of its key and the rest. -/
theorem perm_lost_erase_old (h : m.Sound) (hv : m.value? key = some v) :
    m.old.Perm (lost (m.erase key) m.old ++ (m.erase key).old) :=
  perm_lost_without h hv (List.sublist_append_right _ _)

/-- A new key enters young, and what it displaces is all that young loses. -/
theorem perm_lost_insert_young (h : m.Sound) (hkey : m.value? key = none) (value : α) :
    (lost (m.insert key value).next m.young ++ (m.insert key value).next.young).Perm
      ({ key, value } :: m.young) := by
  by_cases hlt : m.young.length < m.youngCapacity
  · have hkeeps : m.Keeps (m.insert key value).next := by
      intro k hk
      rw [value?_insert h hkey, displaced_room hlt]
      split
      · rfl
      · simpa using hk
    rw [hkeeps.lost_young, insert_room hlt]
    exact .refl _
  · obtain ⟨as, o, hy⟩ := exists_last h.youngRoom (Nat.le_of_not_lt hlt)
    have hfull := Nat.le_of_not_lt hlt
    have ho : o ∈ m.young := by simp [hy]
    have hnodup := h.distinct
    rw [hy, List.append_assoc, keys_append, keys_append, List.nodup_append] at hnodup
    have hlost : (lost (m.insert key value).next m.young).Perm [o] := by
      have hsplit : m.young.Perm ([o] ++ as) := by
        rw [hy]
        exact List.perm_append_comm
      apply lost_perm hsplit
      · intro i hi
        rw [List.mem_singleton.mp hi, value?_insert h hkey, displaced_full hfull hy,
          if_neg (key_ne_of_mem_young hkey ho), if_pos (Option.map_some ..)]
      · intro i hi
        have hne : o.key ≠ i.key := by
          intro heq
          exact hnodup.2.2 i.key (mem_keys_of_mem hi) o.key (by simp [keys]) heq.symm
        have hiy : i ∈ m.young := by simp [hy, hi]
        rw [value?_insert h hkey, displaced_full hfull hy, if_neg (key_ne_of_mem_young hkey hiy),
          if_neg (by simpa using hne)]
        exact value?_isSome_of_mem (List.mem_append_left _ hiy)
    refine (hlost.append_right _).trans ?_
    rw [insert_full hfull hy, hy]
    exact (List.Perm.swap _ _ _).trans (.cons _ (List.perm_append_singleton o as).symm)

/-- A call that retains what is cached loses no old item: what a new key displaces was young. -/
theorem lost_old_of_retains (h : m.Sound) {op : Operation κ α} (hop : op.retains m.value?) :
    lost (m.step op).next m.old = [] := by
  apply lost_eq_nil
  intro i hi
  have hcached : m.value? i.key ≠ none :=
    Option.isSome_iff_ne_none.mp (value?_isSome_of_mem (List.mem_append_right _ hi))
  have hyoung : m.displaced.map (·.key) ≠ some i.key := by
    intro hdisplaced
    obtain ⟨o, ho, hkey⟩ := Option.map_eq_some_iff.mp hdisplaced
    have hdistinct := h.distinct
    rw [keys_append, List.nodup_append] at hdistinct
    exact hdistinct.2.2 _ (mem_keys_of_mem (mem_of_displaced ho)) _ (mem_keys_of_mem hi) hkey
  rw [Option.isSome_iff_ne_none]
  intro hnone
  have hloses := (step_loses_iff h hcached op).mp hnone
  cases op with
  | getLive k alive =>
    obtain ⟨rfl, hgone⟩ := hloses
    obtain ⟨v, hv⟩ := Option.isSome_iff_exists.mp (Option.isSome_iff_ne_none.mpr hcached)
    simp only [Operation.retains, hv, Option.all_some] at hop
    simp [hv, hop] at hgone
  | put k value => exact hyoung hloses.2
  | set k value =>
    cases value with
    | some value => exact hyoung hloses.2
    | none => exact hop
  | remove k => exact hop
  | clear => exact hop
  | _ => exact hloses

end CacheModel

namespace Cache

variable {κ α : Type} [DecidableEq κ] {c : Cache κ α} {op : Operation κ α}

/-- The entries of a generation that leave the cache in a call. -/
def departures (g : Generation) (c : Cache κ α) (op : Operation κ α) : List (Entry κ α) :=
  (c.contents g).filter fun e => !(c.step op).2.contains e.key

/-- The entries of a generation that left the cache in the calls of a history, in order. -/
def departed (g : Generation) (c : Cache κ α) : List (Operation κ α) → List (Entry κ α)
  | [] => []
  | op :: rest => c.departures g op ++ (c.step op).2.departed g rest

/-- One more call adds what leaves in it. -/
theorem departed_concat (g : Generation) (c : Cache κ α) (past : List (Operation κ α))
    (op : Operation κ α) :
    c.departed g (past ++ [op]) = c.departed g past ++ (c.run past).2.departures g op := by
  induction past generalizing c with
  | nil => simp [departed, run]
  | cons first rest ih =>
    rw [List.cons_append, departed, ih, departed, List.append_assoc]
    rfl

/-- What leaves a generation are the items that are lost from it. -/
theorem Shows.map_departures {next : CacheModel κ α} (hnext : (c.step op).2.Shows next)
    (g : Generation) : (c.departures g op).map Entry.item =
      CacheModel.lost next ((c.contents g).map Entry.item) := by
  rw [departures, CacheModel.lost, List.filter_map]
  congr 1
  apply List.filter_congr
  intro e _
  rw [hnext.contains_eq]
  exact Option.not_isSome _

end Cache

end CachePool
