/-!
# Total tables over natural numbers

A table gives every number a value: the stored one, or the default outside the
stored range. A write extends the range as needed, so that reading back after a
write needs no bound (`Table.get_set`).
-/

namespace CachePool

/-- A map from all natural numbers that differs from the default at finitely many. -/
structure Table (α : Type) where
  /-- The stored values, from number zero on. -/
  cells : Array α := #[]

namespace Table

variable {α : Type} [Inhabited α]

/-- The table that holds the default everywhere. -/
def empty : Table α := {}

instance : Inhabited (Table α) := ⟨empty⟩

/-- The value at a number, the default where nothing was stored. -/
def get (t : Table α) (n : Nat) : α := t.cells.getD n default

/-- Store a value, filling a gap before it with the default. -/
def set (t : Table α) (n : Nat) (a : α) : Table α :=
  if n < t.cells.size then
    ⟨t.cells.setIfInBounds n a⟩
  else
    ⟨(t.cells ++ Array.replicate (n - t.cells.size) default).push a⟩

/-- Replace the value at a number by a function of it. -/
def modify (t : Table α) (n : Nat) (f : α → α) : Table α := t.set n (f (t.get n))

/-- A table that lists the given values from zero on. -/
def ofList (values : List α) : Table α := ⟨values.toArray⟩

/-- The table of the images of all values. -/
def map {β : Type} (f : α → β) (t : Table α) : Table β := ⟨t.cells.map f⟩

/-- Nothing was stored in the empty table. -/
@[simp] theorem get_empty (n : Nat) : (empty : Table α).get n = default := by
  simp [empty, get]

/-- A write is seen at its own number and nowhere else. -/
theorem get_set (t : Table α) (n m : Nat) (a : α) :
    (t.set n a).get m = if m = n then a else t.get m := by
  unfold set get
  by_cases hn : n < t.cells.size
  · rw [if_pos hn]
    by_cases hm : m = n
    · subst hm
      simp [hn]
    · have hne : n ≠ m := fun h => hm h.symm
      simp [hm, Array.getD_eq_getD_getElem?, hne]
  · rw [if_neg hn]
    simp only [Array.getD_eq_getD_getElem?, Array.getElem?_push, Array.getElem?_append,
      Array.size_append, Array.size_replicate, Array.getElem?_replicate]
    by_cases hm : m = n
    · subst hm
      rw [if_pos (by omega), if_pos rfl]
      rfl
    · rw [if_neg (by omega), if_neg hm]
      by_cases hs : m < t.cells.size
      · rw [if_pos hs]
      · rw [if_neg hs, Array.getElem?_eq_none (by omega)]
        by_cases hg : m - t.cells.size < n - t.cells.size
        · rw [if_pos hg]
          rfl
        · rw [if_neg hg]

/-- A write is read back. -/
@[simp] theorem get_set_self (t : Table α) (n : Nat) (a : α) : (t.set n a).get n = a := by
  rw [get_set, if_pos rfl]

/-- A write leaves every other number alone. -/
theorem get_set_ne (t : Table α) {n m : Nat} (a : α) (h : m ≠ n) :
    (t.set n a).get m = t.get m := by
  rw [get_set, if_neg h]

/-- A modification is seen at its own number and nowhere else. -/
theorem get_modify (t : Table α) (n m : Nat) (f : α → α) :
    (t.modify n f).get m = if m = n then f (t.get n) else t.get m := by
  rw [modify, get_set]

/-- The listed values are read back in order, with the default after the last. -/
theorem get_ofList (values : List α) (n : Nat) :
    (ofList values).get n = values.getD n default := by
  simp [ofList, get, Array.getD_eq_getD_getElem?, List.getD_eq_getElem?_getD]

section Map

variable {β : Type} {f : α → β}

omit [Inhabited α] in
/-- The empty table has no image. -/
@[simp] theorem map_empty : (empty : Table α).map f = empty := by
  simp [empty, map]

variable [Inhabited β]

/-- A function that keeps the default is read through. -/
theorem get_map (hf : f default = default) (t : Table α) (n : Nat) :
    (t.map f).get n = f (t.get n) := by
  unfold map get
  by_cases h : n < t.cells.size
  · simp [h]
  · simp [h, hf]

/-- A write to the images of a table writes the image. -/
theorem map_set (hf : f default = default) (t : Table α) (n : Nat) (a : α) :
    (t.set n a).map f = (t.map f).set n (f a) := by
  unfold map set
  by_cases h : n < t.cells.size
  · simp [h]
  · simp [h, hf]

end Map

end Table

end CachePool
