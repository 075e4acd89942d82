import CachePool.Proofs.Cache.History
import CachePool.Proofs.Cache.ScanResistance

/-!
# Generations in the order of their last use

Number the calls of a history, and stamp a key with the last call that inserted it, hit
it or demoted it. A call brings at most one key to the head of each generation, and
those are the keys that it stamps; the others keep their order. So the stamps fall from
the head of a generation to its tail. What a new key pushes out is the young key with
the smallest stamp, and what a promotion demotes is the old key whose last hit is the
furthest back.
-/

namespace CachePool

namespace Operation

variable {κ α : Type}

/-- The key that a call brings in, by the values that are cached. -/
def insertKey (lookup : κ → Option α) (op : Operation κ α) : Option κ :=
  (op.assigns.map Prod.fst).filter fun key => (lookup key).isNone

/-- A call that gives a key a value brings it in if it is not there. -/
theorem insertKey_of_assigns {op : Operation κ α} {lookup : κ → Option α} {key : κ} {value : α}
    (h : op.assigns = some (key, value)) :
    op.insertKey lookup = (some key).filter fun key => (lookup key).isNone := by
  rw [insertKey, h, Option.map_some]

/-- A key that is brought in was not there. -/
theorem eq_none_of_insertKey {op : Operation κ α} {lookup : κ → Option α} {key : κ}
    (h : op.insertKey lookup = some key) : lookup key = none :=
  Option.isNone_iff_eq_none.mp (Option.filter_eq_some_iff.mp h).2

/-- A call that gives a key a value hits none. -/
theorem hitKey_of_assigns [DecidableEq κ] {op : Operation κ α} {lookup : κ → Option α} {key : κ}
    {value : α} (h : op.assigns = some (key, value)) : op.hitKey lookup = none := by
  cases op with
  | put _ _ => rfl
  | set _ _ => rfl
  | _ => cases h

end Operation

namespace CacheModel

variable {κ α : Type}

/-- A call brings at most one key to the head of each generation, and the others keep their order:
to the head of young comes a key that was inserted or hit, or the last old key in exchange for one
that was young; to the head of old comes a key that was hit. -/
structure Refreshes (m next : CacheModel κ α) (inserted hit young old : Option κ) : Prop where
  young_eq : ∃ rest, keys next.young = young.toList ++ rest ∧ rest.Sublist (keys m.young)
  old_eq : ∃ rest, keys next.old = old.toList ++ rest ∧ rest.Sublist (keys m.old)
  young_head : ∀ k, young = some k → (inserted = some k ∨ hit = some k) ∧ k ∉ keys m.old ∨
    (keys m.old).getLast? = some k ∧ ∃ k' ∈ keys m.young, hit = some k' ∧ old = some k'
  old_head : ∀ k, old = some k → hit = some k
  inserted_head : ∀ k, inserted = some k → young = some k
  hit_head : ∀ k, hit = some k → young = some k ∨ old = some k

variable {m next next' : CacheModel κ α} {inserted hit young old : Option κ} {key k : κ}

/-- Nothing comes to a head where keys are only taken out. -/
theorem refreshes_of_sublist (hyoung : (keys next.young).Sublist (keys m.young))
    (hold : (keys next.old).Sublist (keys m.old)) : m.Refreshes next none none none none where
  young_eq := ⟨_, rfl, hyoung⟩
  old_eq := ⟨_, rfl, hold⟩
  young_head := by rintro k ⟨⟩
  old_head := by rintro k ⟨⟩
  inserted_head := by rintro k ⟨⟩
  hit_head := by rintro k ⟨⟩

/-- The heads are seen on the keys alone. -/
theorem Refreshes.congr (h : m.Refreshes next inserted hit young old)
    (hyoung : keys next'.young = keys next.young) (hold : keys next'.old = keys next.old) :
    m.Refreshes next' inserted hit young old where
  young_eq := hyoung ▸ h.young_eq
  old_eq := hold ▸ h.old_eq
  young_head := h.young_head
  old_head := h.old_head
  inserted_head := h.inserted_head
  hit_head := h.hit_head

/-- The keys of the generations are apart. -/
theorem Sound.not_mem_old (h : m.Sound) (hk : k ∈ keys m.young) : k ∉ keys m.old := by
  have hdistinct := h.distinct
  rw [keys_append] at hdistinct
  exact fun hold => (List.nodup_append.mp hdistinct).2.2 k hk k hold rfl

/-- A call stamps the keys that it brings to a head. -/
theorem Refreshes.stamped_iff (h : m.Refreshes next inserted hit young old) (hm : m.Sound) :
    (inserted = some k ∨ hit = some k ∨ k ∈ keys m.old ∧ k ∈ keys next.young) ↔
      young = some k ∨ old = some k := by
  constructor
  · rintro (hk | hk | ⟨hold, hyoung⟩)
    · exact Or.inl (h.inserted_head k hk)
    · exact h.hit_head k hk
    · obtain ⟨rest, heq, hsub⟩ := h.young_eq
      rw [heq, List.mem_append, Option.mem_toList] at hyoung
      exact Or.inl (hyoung.resolve_right fun hrest => hm.not_mem_old (hsub.mem hrest) hold)
  · rintro (hk | hk)
    · rcases h.young_head k hk with ⟨hbrought, -⟩ | ⟨hlast, -⟩
      · exact hbrought.imp_right Or.inl
      · obtain ⟨rest, heq, -⟩ := h.young_eq
        refine Or.inr (Or.inr ⟨List.mem_of_getLast? hlast, ?_⟩)
        rw [heq, hk]
        exact List.mem_cons_self
    · exact Or.inr (Or.inl (h.old_head k hk))

/-- A key that moved from old to young was the last old one, and a young key that was hit took its
place. -/
theorem Refreshes.demoted (h : m.Refreshes next inserted hit young old) (hm : m.Sound)
    (hold : k ∈ keys m.old) (hyoung : k ∈ keys next.young) :
    (keys m.old).getLast? = some k ∧ ∃ k' ∈ keys m.young, hit = some k' ∧ k' ∈ keys next.old := by
  obtain ⟨rest, heq, hsub⟩ := h.young_eq
  rw [heq, List.mem_append, Option.mem_toList] at hyoung
  have hhead := hyoung.resolve_right fun hrest => hm.not_mem_old (hsub.mem hrest) hold
  rcases h.young_head k hhead with ⟨-, hout⟩ | ⟨hlast, k', hk', hhit, hold'⟩
  · exact (hout hold).elim
  · obtain ⟨rest', heq', -⟩ := h.old_eq
    refine ⟨hlast, k', hk', hhit, ?_⟩
    rw [heq', hold']
    exact List.mem_cons_self

/-- A new key comes to the head of young. -/
theorem refreshes_insert (h : m.Sound) (hkey : key ∉ keys (m.young ++ m.old)) (value : α) :
    m.Refreshes (m.insert key value).next (some key) none (some key) none where
  young_eq := by
    by_cases hlt : m.young.length < m.youngCapacity
    · rw [insert_room hlt]
      exact ⟨_, rfl, .refl _⟩
    · obtain ⟨as, o, hy⟩ := exists_last h.youngRoom (Nat.le_of_not_lt hlt)
      rw [insert_full (Nat.le_of_not_lt hlt) hy, hy]
      exact ⟨_, rfl, (List.sublist_append_left as [o]).map _⟩
  old_eq := by
    refine ⟨keys m.old, ?_, .refl _⟩
    simp only [insert]
    split <;> rfl
  young_head := by
    rintro k ⟨rfl⟩
    rw [keys_append, List.mem_append, not_or] at hkey
    exact Or.inl ⟨Or.inl rfl, hkey.2⟩
  old_head := by rintro k ⟨⟩
  inserted_head := fun _ hk => hk
  hit_head := by rintro k ⟨⟩

variable [DecidableEq κ]

/-- A key that is hit comes to the head of a generation. If it leaves young for a full old
generation, the last old key comes to the head of young. -/
theorem refreshes_hit (h : m.Sound) (key : κ) :
    ∃ young old, m.Refreshes (m.hit key).2 none
      (if (m.value? key).isSome then some key else none) young old := by
  have hwithout : ∀ items : List (Item κ α), (keys (without items key)).Sublist (keys items) :=
    fun items => (without_sublist items key).map _
  have hcached : key ∈ keys m.young ∨ key ∈ keys m.old → (m.value? key).isSome := fun hmem => by
    rwa [value?_isSome_iff, keys_append, List.mem_append]
  rcases h.hit_cases key with ⟨item, hitem, -, heq⟩ | ⟨item, hitem, -, heq⟩ |
    ⟨item, as, o, hitem, -, ho, heq⟩ | ⟨item, -, hitem, heq⟩ | ⟨hout, heq⟩
  · -- refreshed in young
    obtain ⟨hmem, rfl⟩ := itemOf_some hitem
    have hyoung := mem_keys_of_mem hmem
    rw [if_pos (hcached (.inl hyoung)), heq]
    refine ⟨some item.key, none, ⟨_, rfl, hwithout _⟩, ⟨_, rfl, .refl _⟩, ?_, ?_, ?_, ?_⟩
    · rintro k ⟨rfl⟩
      exact .inl ⟨.inr rfl, h.not_mem_old hyoung⟩
    · rintro k ⟨⟩
    · rintro k ⟨⟩
    · exact fun k hk => .inl hk
  · -- promoted into room
    obtain ⟨hmem, rfl⟩ := itemOf_some hitem
    rw [if_pos (hcached (.inl (mem_keys_of_mem hmem))), heq]
    refine ⟨none, some item.key, ⟨_, rfl, hwithout _⟩, ⟨_, rfl, .refl _⟩, ?_, ?_, ?_, ?_⟩
    · rintro k ⟨⟩
    · exact fun k hk => hk
    · rintro k ⟨⟩
    · exact fun k hk => .inr hk
  · -- promoted in exchange for the last old key
    obtain ⟨hmem, rfl⟩ := itemOf_some hitem
    have hyoung := mem_keys_of_mem hmem
    rw [if_pos (hcached (.inl hyoung)), heq]
    refine ⟨some o.key, some item.key, ⟨_, rfl, hwithout _⟩, ⟨_, rfl, ?_⟩, ?_, ?_, ?_, ?_⟩
    · rw [ho]
      exact (List.sublist_append_left as [o]).map _
    · rintro k ⟨rfl⟩
      refine .inr ⟨?_, item.key, hyoung, rfl, rfl⟩
      rw [ho, keys_append]
      exact List.getLast?_concat
    · exact fun k hk => hk
    · rintro k ⟨⟩
    · exact fun k hk => .inr hk
  · -- refreshed in old
    obtain ⟨hmem, rfl⟩ := itemOf_some hitem
    rw [if_pos (hcached (.inr (mem_keys_of_mem hmem))), heq]
    refine ⟨none, some item.key, ⟨_, rfl, .refl _⟩, ⟨_, rfl, hwithout _⟩, ?_, ?_, ?_, ?_⟩
    · rintro k ⟨⟩
    · exact fun k hk => hk
    · rintro k ⟨⟩
    · exact fun k hk => .inr hk
  · -- missed
    rw [heq, if_neg (fun hcached => hout (value?_isSome_iff.mp hcached))]
    exact ⟨none, none, refreshes_of_sublist (.refl _) (.refl _)⟩

/-- A write leaves the order of the keys. -/
theorem refreshes_write (m : CacheModel κ α) (key : κ) (f : α → α) :
    m.Refreshes (m.write key f) none none none none :=
  refreshes_of_sublist (keys_revise m.young key f ▸ .refl _) (keys_revise m.old key f ▸ .refl _)

/-- A put brings a new key to the head of young, and leaves the order of the keys otherwise. -/
theorem refreshes_put (h : m.Sound) (key : κ) (value : α) :
    ∃ young old, m.Refreshes (m.put key value).next
      ((some key).filter fun key => (m.value? key).isNone) none young old := by
  cases hv : m.value? key with
  | some before =>
    rw [put_known hv, Option.filter_some_neg (by simp [hv])]
    exact ⟨none, none, m.refreshes_write key _⟩
  | none =>
    rw [put_new hv, Option.filter_some_pos (by simp [hv])]
    exact ⟨some key, none, refreshes_insert h (value?_eq_none_iff.mp hv) value⟩

/-- To take a key out brings none to a head. -/
theorem refreshes_erase (m : CacheModel κ α) (key : κ) :
    m.Refreshes (m.erase key) none none none none :=
  refreshes_of_sublist ((without_sublist _ key).map _) ((without_sublist _ key).map _)

theorem refreshes_remove (m : CacheModel κ α) (key : κ) :
    m.Refreshes (m.remove key).next none none none none := by
  cases hv : m.value? key with
  | some before =>
    rw [remove_known hv]
    exact m.refreshes_erase key
  | none =>
    rw [remove_absent hv]
    exact refreshes_of_sublist (.refl _) (.refl _)

/-- Every call brings to a head what it inserts, what it hits and what it demotes. -/
theorem refreshes_step (h : m.Sound) (op : Operation κ α) :
    ∃ young old, m.Refreshes (m.step op).next (op.insertKey m.value?) (op.hitKey m.value?) young
      old := by
  have hquiet : ∃ young old, m.Refreshes m none none young old :=
    ⟨none, none, refreshes_of_sublist (.refl _) (.refl _)⟩
  cases op with
  | get key => exact refreshes_hit h key
  | update key f =>
    obtain ⟨young, old, hhit⟩ := refreshes_hit h key
    exact ⟨young, old, hhit.congr (keys_revise _ _ _) (keys_revise _ _ _)⟩
  | getLive key alive =>
    rw [CacheModel.step, Operation.hitKey]
    rcases m.getLive_cases key alive with
      ⟨hv, heq⟩ | ⟨value, hv, halive, heq⟩ | ⟨value, hv, hgone, heq⟩
    · rw [heq, hv]
      exact hquiet
    · have hhit := refreshes_hit h key
      rw [hv, Option.isSome_some, if_pos rfl] at hhit
      rwa [heq, hv, Option.any_some, halive, if_pos rfl]
    · rw [heq, hv, Option.any_some, hgone, if_neg Bool.false_ne_true]
      exact ⟨none, none, m.refreshes_erase key⟩
  | peek key => exact hquiet
  | contains key => exact hquiet
  | generationOf key => exact hquiet
  | put key value => exact refreshes_put h key value
  | set key value =>
    cases value with
    | some value => exact refreshes_put h key value
    | none => exact ⟨none, none, m.refreshes_remove key⟩
  | remove key => exact ⟨none, none, m.refreshes_remove key⟩
  | clear => exact ⟨none, none, refreshes_of_sublist (List.nil_sublist _) (List.nil_sublist _)⟩

/-- The stamps fall from the head of each generation to its tail, and an old key was stamped by a
hit. -/
structure Sorted (m : CacheModel κ α) (stamp lastHit : κ → Nat) : Prop where
  young : (keys m.young).Pairwise fun k k' => stamp k' < stamp k
  old : (keys m.old).Pairwise fun k k' => stamp k' < stamp k
  stamped : ∀ k ∈ keys (m.young ++ m.old), 0 < stamp k
  hit : ∀ k ∈ keys m.old, lastHit k = stamp k

omit [DecidableEq κ] in
/-- A list of keys stays sorted if its new head alone is stamped, later than any other. -/
theorem pairwise_stamp {head : Option κ} {before rest : List κ} {stamp stamp' : κ → Nat} {now : Nat}
    (h : before.Pairwise fun k k' => stamp k' < stamp k) (hsub : rest.Sublist before)
    (hle : ∀ k, stamp k ≤ now) (hhead : ∀ k, head = some k → stamp' k = now + 1)
    (hrest : ∀ k ∈ rest, stamp' k = stamp k) :
    (head.toList ++ rest).Pairwise fun k k' => stamp' k' < stamp' k := by
  have hsorted : rest.Pairwise fun k k' => stamp' k' < stamp' k := by
    refine (h.sublist hsub).imp_of_mem fun {k k'} hk hk' hlt => ?_
    rwa [hrest k hk, hrest k' hk']
  cases head with
  | none => exact hsorted
  | some k =>
    refine List.pairwise_cons.mpr ⟨fun k' hk' => ?_, hsorted⟩
    rw [hrest k' hk', hhead k rfl]
    exact Nat.lt_succ_of_le (hle k')

omit [DecidableEq κ] in
/-- The generations stay sorted if a call stamps the keys that it brings to a head. -/
theorem Sorted.refreshes {stamp stamp' lastHit lastHit' : κ → Nat} {now : Nat}
    (hs : m.Sorted stamp lastHit) (h : m.Refreshes next inserted hit young old)
    (hnext : next.Sound) (hle : ∀ k, stamp k ≤ now)
    (hnew : ∀ k, young = some k ∨ old = some k → stamp' k = now + 1)
    (hkept : ∀ k, ¬ (young = some k ∨ old = some k) → stamp' k = stamp k)
    (hhit : ∀ k, hit = some k → lastHit' k = now + 1)
    (hmissed : ∀ k, hit ≠ some k → lastHit' k = lastHit k) : next.Sorted stamp' lastHit' := by
  obtain ⟨restYoung, hyoung, hsubYoung⟩ := h.young_eq
  obtain ⟨restOld, hold, hsubOld⟩ := h.old_eq
  have hdistinct := hnext.distinct
  rw [keys_append, hyoung, hold, List.nodup_append, List.nodup_append, List.nodup_append] at hdistinct
  obtain ⟨⟨-, -, hheadYoung⟩, ⟨-, -, hheadOld⟩, hapart⟩ := hdistinct
  -- what is not at a head was not brought to one, as no key occurs twice
  have hrestYoung : ∀ k ∈ restYoung, stamp' k = stamp k := by
    intro k hk
    refine hkept k ?_
    rintro (hhead | hhead)
    · exact hheadYoung k (Option.mem_toList.mpr hhead) k hk rfl
    · exact hapart k (List.mem_append_right _ hk) k
        (List.mem_append_left _ (Option.mem_toList.mpr hhead)) rfl
  have hrestOld : ∀ k ∈ restOld, stamp' k = stamp k ∧ old ≠ some k ∧ young ≠ some k := by
    intro k hk
    have hy : young ≠ some k := fun hhead =>
      hapart k (List.mem_append_left _ (Option.mem_toList.mpr hhead)) k
        (List.mem_append_right _ hk) rfl
    have ho : old ≠ some k := fun hhead =>
      hheadOld k (Option.mem_toList.mpr hhead) k hk rfl
    exact ⟨hkept k (not_or.mpr ⟨hy, ho⟩), ho, hy⟩
  refine ⟨?_, ?_, ?_, ?_⟩
  · rw [hyoung]
    exact pairwise_stamp hs.young hsubYoung hle (fun k hk => hnew k (Or.inl hk)) hrestYoung
  · rw [hold]
    exact pairwise_stamp hs.old hsubOld hle (fun k hk => hnew k (Or.inr hk))
      fun k hk => (hrestOld k hk).1
  · intro k hk
    by_cases hhead : young = some k ∨ old = some k
    · rw [hnew k hhead]
      exact Nat.succ_pos now
    · rw [hkept k hhead]
      refine hs.stamped k ?_
      rw [keys_append, hyoung, hold] at hk
      rw [not_or] at hhead
      simp only [List.mem_append, Option.mem_toList, hhead.1, hhead.2, false_or] at hk
      rw [keys_append, List.mem_append]
      exact hk.imp (fun hk => hsubYoung.mem hk) fun hk => hsubOld.mem hk
  · intro k hk
    rw [hold, List.mem_append, Option.mem_toList] at hk
    rcases hk with hk | hk
    · rw [hhit k (h.old_head k hk), hnew k (Or.inr hk)]
    · obtain ⟨hstamp, ho, hy⟩ := hrestOld k hk
      rw [hstamp, hmissed k fun hkey => (h.hit_head k hkey).elim hy ho]
      exact hs.hit k (hsubOld.mem hk)

/-- A key is told to be young if it is there. -/
theorem generationOf_eq_young_iff : m.generationOf key = some .young ↔ key ∈ keys m.young := by
  rw [generationOf]
  cases hy : itemOf m.young key with
  | some item =>
    obtain ⟨hitem, rfl⟩ := itemOf_some hy
    exact iff_of_true rfl (mem_keys_of_mem hitem)
  | none =>
    refine iff_of_false ?_ (itemOf_eq_none_iff.mp hy)
    cases itemOf m.old key <;> simp

/-- A key is told to be old if it is there. -/
theorem generationOf_eq_old_iff (h : m.Sound) :
    m.generationOf key = some .old ↔ key ∈ keys m.old := by
  rw [generationOf]
  cases hy : itemOf m.young key with
  | some item =>
    obtain ⟨hitem, rfl⟩ := itemOf_some hy
    exact iff_of_false (by simp) (h.not_mem_old (mem_keys_of_mem hitem))
  | none =>
    cases ho : itemOf m.old key with
    | some item =>
      obtain ⟨hitem, rfl⟩ := itemOf_some ho
      exact iff_of_true rfl (mem_keys_of_mem hitem)
    | none => exact iff_of_false (by simp) (itemOf_eq_none_iff.mp ho)

end CacheModel

namespace Cache

variable {κ α : Type} {c : Cache κ α} {m : CacheModel κ α} {key : κ} {op : Operation κ α}
  {o : Outcome (Answer α) α}

/-- The young keys are those of the young items. -/
theorem Shows.keys_young (h : c.Shows m) :
    (c.contents .young).map (·.key) = CacheModel.keys m.young := by
  rw [← h.young_eq, CacheModel.keys, List.map_map]
  rfl

/-- The old keys are those of the old items. -/
theorem Shows.keys_old (h : c.Shows m) :
    (c.contents .old).map (·.key) = CacheModel.keys m.old := by
  rw [← h.old_eq, CacheModel.keys, List.map_map]
  rfl

variable [DecidableEq κ]

/-- The call hits the key. -/
def hitsKey (key : κ) (c : Cache κ α) (op : Operation κ α) : Bool :=
  op.hitKey c.peek = some key

/-- The call demotes the key. -/
def demotesKey (key : κ) (c : Cache κ α) (op : Operation κ α) : Bool :=
  c.generationOf key = some .old && (c.step op).2.generationOf key = some .young

/-- The call inserts the key, hits it or demotes it. -/
def stampsKey (key : κ) (c : Cache κ α) (op : Operation κ α) : Bool :=
  op.insertKey c.peek = some key || hitsKey key c op || demotesKey key c op

/-- The number of the last call of a history that is marked, or zero if there is none. -/
def lastMarked (marked : Cache κ α → Operation κ α → Bool) (c : Cache κ α) :
    List (Operation κ α) → Nat
  | [] => 0
  | op :: rest =>
    match lastMarked marked (c.step op).2 rest with
    | 0 => if marked c op then 1 else 0
    | number + 1 => number + 2

/-- The number of the last call that inserted the key, hit it or demoted it. -/
def stamp (c : Cache κ α) (past : List (Operation κ α)) (key : κ) : Nat :=
  lastMarked (stampsKey key) c past

/-- The number of the last call that hit the key. -/
def lastHit (c : Cache κ α) (past : List (Operation κ α)) (key : κ) : Nat :=
  lastMarked (hitsKey key) c past

/-- One more call is the last one that is marked, or leaves that as it was. -/
theorem lastMarked_concat (marked : Cache κ α → Operation κ α → Bool) (c : Cache κ α)
    (past : List (Operation κ α)) (op : Operation κ α) :
    lastMarked marked c (past ++ [op]) =
      if marked (c.run past).2 op then past.length + 1 else lastMarked marked c past := by
  induction past generalizing c with
  | nil => rfl
  | cons first rest ih =>
    rw [List.cons_append, lastMarked, ih, lastMarked, run]
    by_cases hmarked : marked ((c.step first).2.run rest).2 op
    · rw [if_pos hmarked, if_pos hmarked]
      rfl
    · rw [if_neg hmarked, if_neg hmarked]

theorem lastMarked_le (marked : Cache κ α → Operation κ α → Bool) (c : Cache κ α)
    (past : List (Operation κ α)) : lastMarked marked c past ≤ past.length := by
  induction past generalizing c with
  | nil => exact Nat.le_refl 0
  | cons first rest ih =>
    have hrest := ih (c.step first).2
    rw [lastMarked, List.length_cons]
    split
    · split <;> omega
    · omega

/-- A call demotes a key that it moves from old to young. -/
theorem Shows.demotesKey_iff (h : c.Shows m) (hnext : (c.step op).2.Shows (m.step op).next) :
    c.demotesKey key op ↔
      key ∈ CacheModel.keys m.old ∧ key ∈ CacheModel.keys (m.step op).next.young := by
  rw [demotesKey, h.generationOf_eq, hnext.generationOf_eq, Bool.and_eq_true, decide_eq_true_iff,
    decide_eq_true_iff, CacheModel.generationOf_eq_old_iff h.sound,
    CacheModel.generationOf_eq_young_iff]

/-- What a call stamps is seen on the models before and after it. -/
theorem Shows.stampsKey_iff (h : c.Shows m) (hnext : (c.step op).2.Shows (m.step op).next) :
    c.stampsKey key op ↔ op.insertKey m.value? = some key ∨ op.hitKey m.value? = some key ∨
      key ∈ CacheModel.keys m.old ∧ key ∈ CacheModel.keys (m.step op).next.young := by
  rw [stampsKey, Bool.or_eq_true, Bool.or_eq_true, h.demotesKey_iff hnext, hitsKey,
    decide_eq_true_iff, decide_eq_true_iff, h.lookup_eq, or_assoc]

/-- One more call that answers keeps the generations sorted. -/
theorem Shows.sorted_step {start : Cache κ α} {past : List (Operation κ α)}
    (h : (start.run past).2.Shows m) (ho : ((start.run past).2.step op).1 = .ok o)
    (hs : m.Sorted (start.stamp past) (start.lastHit past)) :
    (m.step op).next.Sorted (start.stamp (past ++ [op])) (start.lastHit (past ++ [op])) := by
  obtain ⟨-, hnext, -⟩ := h.step ho
  obtain ⟨young, old, hheads⟩ := CacheModel.refreshes_step h.sound op
  have hstamps : ∀ key, (start.run past).2.stampsKey key op ↔ young = some key ∨ old = some key :=
    fun key => (h.stampsKey_iff hnext).trans (hheads.stamped_iff h.sound)
  have hhits : ∀ key, (start.run past).2.hitsKey key op ↔ op.hitKey m.value? = some key := by
    intro key
    rw [hitsKey, decide_eq_true_iff, h.lookup_eq]
  refine hs.refreshes hheads (h.sound.step op) (fun key => lastMarked_le _ start past) ?_ ?_ ?_ ?_
  · exact fun key hkey => (lastMarked_concat _ start past op).trans (if_pos ((hstamps key).mpr hkey))
  · exact fun key hkey => (lastMarked_concat _ start past op).trans
      (if_neg fun hmarked => hkey ((hstamps key).mp hmarked))
  · exact fun key hkey => (lastMarked_concat _ start past op).trans (if_pos ((hhits key).mpr hkey))
  · exact fun key hkey => (lastMarked_concat _ start past op).trans
      (if_neg fun hmarked => hkey ((hhits key).mp hmarked))

/-- The generations are in the order of their stamps, and this decides what the next call that answers
evicts and what it demotes. -/
structure InRecencyOrder (start : Cache κ α) (past : List (Operation κ α)) : Prop where
  /-- What is cached was stamped. -/
  stamped : ∀ g, ∀ e ∈ (start.run past).2.contents g, 0 < start.stamp past e.key
  /-- The stamps fall from the head of a generation to its tail. -/
  sorted : ∀ g, ((start.run past).2.contents g).Pairwise fun e e' =>
    start.stamp past e'.key < start.stamp past e.key
  /-- What is old was hit last. -/
  hit : ∀ e ∈ (start.run past).2.contents .old, start.lastHit past e.key = start.stamp past e.key
  /-- To overwrite a key stamps none. -/
  overwritten : ∀ op o key value, ((start.run past).2.step op).1 = .ok o →
    op.assigns = some (key, value) → (start.run past).2.contains key →
    ∀ k, start.stamp (past ++ [op]) k = start.stamp past k
  /-- A call that gives a key a value frees nothing but the young entry with the smallest stamp. -/
  evicted : ∀ op o key value, ((start.run past).2.step op).1 = .ok o →
    op.assigns = some (key, value) → o.freed ≠ [] →
    ∃ e ∈ (start.run past).2.contents .young, o.freed = [e.value] ∧ e.key ≠ key ∧
      ((start.run past).2.step op).2.contains e.key = false ∧
      ∀ e' ∈ (start.run past).2.contents .young, e'.key ≠ e.key →
        start.stamp past e.key < start.stamp past e'.key
  /-- What is demoted is the old entry whose last hit is the furthest back, for a key that was hit in
  young. -/
  demoted : ∀ op o e, ((start.run past).2.step op).1 = .ok o →
    e ∈ (start.run past).2.contents .old →
    ((start.run past).2.step op).2.generationOf e.key = some .young →
    (∃ key, (start.run past).2.generationOf key = some .young ∧
      (start.run past).2.hitsKey key op ∧
      ((start.run past).2.step op).2.generationOf key = some .old) ∧
    ∀ e' ∈ (start.run past).2.contents .old, e'.key ≠ e.key →
      start.lastHit past e.key < start.lastHit past e'.key

omit [DecidableEq κ] in
/-- In a list whose stamps fall, the last key has the smallest one. -/
theorem lt_of_getLast? {keys : List κ} {stamp : κ → Nat} {last k : κ}
    (h : keys.Pairwise fun k k' => stamp k' < stamp k) (hlast : keys.getLast? = some last)
    (hk : k ∈ keys) (hne : k ≠ last) : stamp last < stamp k := by
  obtain ⟨front, rfl⟩ := List.getLast?_eq_some_iff.mp hlast
  rcases List.mem_append.mp hk with hfront | htail
  · exact (List.pairwise_append.mp h).2.2 k hfront last List.mem_cons_self
  · exact (hne (List.mem_singleton.mp htail)).elim

/-- A cache that shows a sorted model is in the order of its stamps. -/
theorem Shows.inRecencyOrder {start : Cache κ α} {past : List (Operation κ α)}
    (h : (start.run past).2.Shows m) (hs : m.Sorted (start.stamp past) (start.lastHit past)) :
    start.InRecencyOrder past := by
  have hyoung : ∀ e ∈ (start.run past).2.contents .young, e.key ∈ CacheModel.keys m.young := by
    intro e he
    rw [← h.keys_young]
    exact List.mem_map_of_mem he
  have hold : ∀ e ∈ (start.run past).2.contents .old, e.key ∈ CacheModel.keys m.old := by
    intro e he
    rw [← h.keys_old]
    exact List.mem_map_of_mem he
  constructor
  case stamped =>
    rintro (_ | _) e he
    all_goals
      refine hs.stamped e.key ?_
      rw [CacheModel.keys_append]
    · exact List.mem_append_left _ (hyoung e he)
    · exact List.mem_append_right _ (hold e he)
  case sorted =>
    rintro (_ | _)
    · exact List.pairwise_map.mp (h.keys_young ▸ hs.young)
    · exact List.pairwise_map.mp (h.keys_old ▸ hs.old)
  case hit => exact fun e he => hs.hit e.key (hold e he)
  case overwritten =>
    intro op o key value ho hassigns hcontains k
    obtain ⟨-, hnext, -⟩ := h.step ho
    rw [h.contains_eq] at hcontains
    obtain ⟨before, hbefore⟩ := Option.isSome_iff_exists.mp hcontains
    refine (lastMarked_concat _ start past op).trans (if_neg fun hmarked => ?_)
    rw [h.stampsKey_iff hnext, CacheModel.step_of_assigns hassigns, CacheModel.put_known hbefore,
      Operation.insertKey_of_assigns hassigns, Operation.hitKey_of_assigns hassigns] at hmarked
    rcases hmarked with hinsert | hhit | ⟨hkold, hkyoung⟩
    · rw [Option.filter_some_neg (by simp [hbefore])] at hinsert
      cases hinsert
    · cases hhit
    · rw [CacheModel.write, CacheModel.keys_revise] at hkyoung
      exact h.sound.not_mem_old hkyoung hkold
  case evicted =>
    intro op o key value ho hassigns hfreed
    obtain ⟨rfl, hnext, -⟩ := h.step ho
    cases hv : m.value? key with
    | some before =>
      rw [CacheModel.step_of_assigns hassigns, CacheModel.put_known hv] at hfreed
      exact (hfreed rfl).elim
    | none =>
      rw [CacheModel.step_of_assigns hassigns, CacheModel.put_new hv,
        CacheModel.insert_freed h.sound] at hfreed ⊢
      obtain ⟨i, hi⟩ : ∃ i, m.displaced = some i := by
        cases hi : m.displaced with
        | some i => exact ⟨i, rfl⟩
        | none =>
          rw [hi] at hfreed
          exact (hfreed rfl).elim
      obtain ⟨e, hlast, rfl⟩ := h.exists_of_displaced hi
      have he := List.mem_of_getLast? hlast
      have hne : e.key ≠ key :=
        CacheModel.key_ne_of_mem_young hv (CacheModel.mem_of_displaced hi)
      refine ⟨e, he, by rw [hi]; rfl, hne, ?_, fun e' he' hne' => ?_⟩
      · rw [hnext.contains_eq, CacheModel.step_of_assigns hassigns, CacheModel.put_new hv,
          CacheModel.value?_insert h.sound hv, if_neg hne, if_pos (by rw [hi]; rfl)]
        rfl
      · refine lt_of_getLast? hs.young ?_ (hyoung e' he') hne'
        rw [← h.keys_young, List.getLast?_map, hlast]
        rfl
  case demoted =>
    intro op o e ho he hgeneration
    obtain ⟨-, hnext, -⟩ := h.step ho
    obtain ⟨young, old, hheads⟩ := CacheModel.refreshes_step h.sound op
    rw [hnext.generationOf_eq, CacheModel.generationOf_eq_young_iff] at hgeneration
    obtain ⟨hlast, key, hkey, hhit, hkold⟩ := hheads.demoted h.sound (hold e he) hgeneration
    refine ⟨⟨key, ?_, ?_, ?_⟩, fun e' he' hne => ?_⟩
    · rwa [h.generationOf_eq, CacheModel.generationOf_eq_young_iff]
    · rwa [hitsKey, decide_eq_true_iff, h.lookup_eq]
    · rwa [hnext.generationOf_eq, CacheModel.generationOf_eq_old_iff (h.sound.step op)]
    · rw [hs.hit _ (hold e he), hs.hit _ (hold e' he')]
      exact lt_of_getLast? hs.old hlast (hold e' he') hne

/-- Throughout every history, the generations are in the order of the last calls that inserted, hit or
demoted their keys. To overwrite a key leaves that order alone, an eviction takes the young key with the
smallest stamp, and a demotion the old key whose last hit is the furthest back. -/
theorem run_in_recency_order (config : CacheConfig) (hasher : Hasher κ)
    (ops : List (Operation κ α)) :
    Throughout config hasher ops (ofConfig config hasher : Cache κ α).InRecencyOrder := by
  refine throughout_of_answers (fun past hanswers => ?_) ops
  have hstart : (CacheModel.ofConfig config : CacheModel κ α).Sorted
      ((ofConfig config hasher : Cache κ α).stamp [])
      ((ofConfig config hasher : Cache κ α).lastHit []) :=
    ⟨List.Pairwise.nil, List.Pairwise.nil, by rintro k ⟨⟩, by rintro k ⟨⟩⟩
  obtain ⟨m, hm, hsorted⟩ := hanswers.induction
    (P := fun past m => m.Sorted ((ofConfig config hasher).stamp past)
      ((ofConfig config hasher).lastHit past)) hstart
    fun past op o m hm ho hsorted => hm.sorted_step ho hsorted
  exact hm.inRecencyOrder hsorted

/-- The key 2 keeps the stamp of its insertion when it is overwritten, and the key 1 has that of its
hit. -/
example : [1, 2].map ((ofConfig { capacity := ⟨10, by decide, by decide⟩ } (Hasher.constant 0) :
    Cache Nat Nat).stamp [.put 1 10, .put 2 20, .get 1, .put 2 21]) = [3, 2] := by
  decide +kernel

end Cache

end CachePool
