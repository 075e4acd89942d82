import CachePool.Proofs.Cache.Refinement
import Mathlib.Data.Finset.Card

/-!
# Scans do not displace old keys

A key at the head of the old generation loses its place there to keys that are hit,
and to nothing else. As long as fewer distinct keys than old has slots were hit, the
items in front of it are too few to push it out: they carry keys that were hit since
it was at the head. This shield is kept by every call that spares the key, however
many keys are put, removed, promoted or demoted.
-/

namespace CachePool

namespace Operation

variable {κ α : Type} [DecidableEq κ]

/-- The key that a call hits, by the values that are cached. -/
def hitKey (lookup : κ → Option α) : Operation κ α → Option κ
  | .get key => if (lookup key).isSome then some key else none
  | .update key _ => if (lookup key).isSome then some key else none
  | .getLive key alive => if (lookup key).any alive then some key else none
  | _ => none

/-- The call does not remove the key, does not find its value gone, and does not clear. -/
def spares (lookup : κ → Option α) (key : κ) : Operation κ α → Prop
  | .remove k => k ≠ key
  | .set k none => k ≠ key
  | .getLive k alive => k = key → (lookup k).all alive
  | .clear => False
  | _ => True

/-- What a call leaves of the value of a cached key that it spares. -/
def rewrite (key : κ) (value : α) : Operation κ α → α
  | .put k v => if k = key then v else value
  | .set k (some v) => if k = key then v else value
  | .update k f => if k = key then f value else value
  | _ => value

end Operation

namespace CacheModel

variable {κ α : Type} {m : CacheModel κ α} {key k : κ} {value : α} {seen : Finset κ}
  {items as bs : List (Item κ α)} {i item : Item κ α}

/-- The key is old with the value, behind items whose keys were seen. -/
def Shielded (m : CacheModel κ α) (key : κ) (value : α) (seen : Finset κ) : Prop :=
  ∃ front i rest, m.old = front ++ i :: rest ∧ i.key = key ∧ i.value = value ∧
    ∀ j ∈ front, j.key ∈ seen

/-- More keys may be seen. -/
theorem Shielded.mono {seen' : Finset κ} (h : m.Shielded key value seen) (hsub : seen ⊆ seen') :
    m.Shielded key value seen' := by
  obtain ⟨front, i, rest, hold, hkey, hvalue, hfront⟩ := h
  exact ⟨front, i, rest, hold, hkey, hvalue, fun j hj => hsub (hfront j hj)⟩

/-- The shield looks at the old generation only. -/
theorem Shielded.congr {m' : CacheModel κ α} (h : m.Shielded key value seen)
    (hold : m'.old = m.old) : m'.Shielded key value seen := by
  rwa [Shielded, hold]

variable [DecidableEq κ]

/-- To take another key out of a list leaves an item in its place, behind what is left in front. -/
theorem without_split (hkey : i.key ≠ k) (as bs : List (Item κ α)) :
    ∃ bs', without (as ++ i :: bs) k = without as k ++ i :: bs' := by
  by_cases hmem : k ∈ keys as
  · refine ⟨bs, ?_⟩
    obtain ⟨j, hj, hjk⟩ := List.mem_map.mp hmem
    exact List.eraseP_append_left (p := fun i => i.key = k) (decide_eq_true hjk) (i :: bs) hj
  · refine ⟨without bs k, ?_⟩
    have hnot : ∀ j ∈ as, ¬ decide (j.key = k) = true := by
      intro j hj hjk
      exact hmem (of_decide_eq_true hjk ▸ mem_keys_of_mem hj)
    rw [without_of_not_mem hmem, without, List.eraseP_append_right _ hnot,
      List.eraseP_cons_of_neg (by simpa using hkey)]
    rfl

/-- A shielded key is not young, and its item is found in old. -/
theorem Shielded.found (h : m.Shielded key value seen) (hsound : m.Sound) :
    key ∉ keys m.young ∧ m.value? key = some value ∧
      ∃ i, itemOf m.old key = some i ∧ i.key = key ∧ i.value = value := by
  obtain ⟨front, i, rest, hold, rfl, rfl, -⟩ := h
  have hmem : i ∈ m.old := by
    rw [hold]
    exact List.mem_append_right _ List.mem_cons_self
  have hdistinct := hsound.distinct
  have hall := itemOf_eq_some hdistinct (List.mem_append_right m.young hmem)
  rw [keys_append] at hdistinct
  have hfound := itemOf_eq_some hdistinct.of_append_right hmem
  refine ⟨fun hyoung => ?_, ?_, i, hfound, rfl, rfl⟩
  · exact (List.nodup_append.mp hdistinct).2.2 _ hyoung _ (mem_keys_of_mem hmem) rfl
  · rw [value?, hall]
    rfl

/-- A hit of the shielded key takes it to the head. -/
theorem Shielded.hit_self (h : m.Shielded key value seen) (hsound : m.Sound) :
    (m.hit key).2.Shielded key value seen := by
  obtain ⟨hyoung, -, i, hfound, hkey, hvalue⟩ := h.found hsound
  rw [hit_old hyoung hfound]
  exact ⟨[], i, without m.old key, rfl, hkey, hvalue, by simp⟩

/-- A shielded item is not the last one of a full old generation when a young key is promoted. -/
theorem rest_ne_nil {front rest : List (Item κ α)} (hsound : m.Sound)
    (hold : m.old = front ++ i :: rest) (hfront : ∀ j ∈ front, j.key ∈ seen)
    (hyoung : k ∈ keys m.young) (hfull : m.oldCapacity ≤ m.old.length)
    (hcard : (seen ∪ {k}).card < m.oldCapacity) : rest ≠ [] := by
  rintro rfl
  have hdistinct := hsound.distinct
  rw [hold, keys_append, keys_append, ← List.append_assoc] at hdistinct
  obtain ⟨-, hnodup, hdisjoint⟩ := List.nodup_append.mp hdistinct.of_append_left
  have hcons : (k :: keys front).Nodup :=
    List.nodup_cons.mpr ⟨fun hmem => hdisjoint k hyoung k hmem rfl, hnodup⟩
  have hsub : (k :: keys front).toFinset ⊆ seen ∪ {k} := by
    intro x hx
    rcases List.mem_cons.mp (List.mem_toFinset.mp hx) with rfl | hx
    · exact Finset.mem_union_right _ (Finset.mem_singleton_self x)
    · obtain ⟨j, hj, rfl⟩ := List.mem_map.mp hx
      exact Finset.mem_union_left _ (hfront j hj)
  have hcount := Finset.card_le_card hsub
  rw [List.toFinset_card_of_nodup hcons, List.length_cons, keys, List.length_map] at hcount
  rw [hold, List.length_append, List.length_singleton] at hfull
  omega

/-- A hit of another key puts at most that key in front of the shielded one. -/
theorem Shielded.hit_other (h : m.Shielded key value seen) (hsound : m.Sound) (hne : k ≠ key)
    (hcard : (seen ∪ {k}).card < m.oldCapacity) :
    (m.hit k).2.Shielded key value (seen ∪ {k}) := by
  have hwide : m.Shielded key value (seen ∪ {k}) := h.mono Finset.subset_union_left
  cases hy : itemOf m.young k with
  | some item =>
    obtain ⟨hitem, hik⟩ := itemOf_some hy
    by_cases hlt : item.hits + 1 < m.threshold
    · rw [hit_young hy hlt]
      exact hwide.congr rfl
    · have hle := Nat.le_of_not_lt hlt
      obtain ⟨front, i, rest, hold, hkey, hvalue, hfront⟩ := h
      have hpromoted : ∀ j ∈ { item with hits := 0 } :: front, j.key ∈ seen ∪ {k} := by
        rintro j (_ | ⟨_, hj⟩)
        · exact Finset.mem_union_right _ (Finset.mem_singleton.mpr hik)
        · exact Finset.mem_union_left _ (hfront j hj)
      by_cases hroom : m.old.length < m.oldCapacity
      · rw [hit_room hy hle hroom, hold]
        exact ⟨_, i, rest, rfl, hkey, hvalue, hpromoted⟩
      · have hfull := Nat.le_of_not_lt hroom
        have hrest : rest ≠ [] := rest_ne_nil hsound hold hfront (hik ▸ mem_keys_of_mem hitem)
          hfull hcard
        obtain ⟨rest', o, rfl⟩ : ∃ rest' o, rest = rest' ++ [o] :=
          exists_last (List.length_pos_of_ne_nil hrest) (Nat.le_refl _)
        have ho : m.old = (front ++ i :: rest') ++ [o] := by
          rw [hold, List.append_assoc, List.cons_append]
        rw [hit_full hy hle hfull ho]
        exact ⟨_, i, rest', rfl, hkey, hvalue, hpromoted⟩
  | none =>
    have hyoung := itemOf_eq_none_iff.mp hy
    cases ho : itemOf m.old k with
    | some item =>
      obtain ⟨front, i, rest, hold, hkey, hvalue, hfront⟩ := h
      obtain ⟨rest', hsplit⟩ := without_split (hkey.trans_ne hne.symm) front rest
      rw [hit_old hyoung ho, hold, hsplit]
      refine ⟨item :: without front k, i, rest', rfl, hkey, hvalue, ?_⟩
      rintro j (_ | ⟨_, hj⟩)
      · exact Finset.mem_union_right _ (Finset.mem_singleton.mpr (itemOf_some ho).2)
      · exact Finset.mem_union_left _ (hfront j ((without_sublist front k).mem hj))
    | none =>
      have hold := itemOf_eq_none_iff.mp ho
      rw [hit_absent (by simpa only [keys_append, List.mem_append, not_or] using ⟨hyoung, hold⟩)]
      exact hwide

/-- A written value goes into its place. -/
theorem Shielded.write (h : m.Shielded key value seen) (k : κ) (f : α → α) :
    (m.write k f).Shielded key (if k = key then f value else value) seen := by
  obtain ⟨front, i, rest, hold, rfl, rfl, hfront⟩ := h
  refine ⟨revise front k f, if i.key = k then { i with value := f i.value } else i,
    revise rest k f, ?_, ?_, ?_, ?_⟩
  · simp only [CacheModel.write, hold, revise, List.map_append, List.map_cons]
  · split <;> rfl
  · by_cases hk : i.key = k
    · rw [if_pos hk, if_pos hk.symm]
    · rw [if_neg hk, if_neg (Ne.symm hk)]
  · intro j hj
    have hkeys := mem_keys_of_mem hj
    rw [keys_revise] at hkeys
    obtain ⟨j', hj', hjk⟩ := List.mem_map.mp hkeys
    exact hjk ▸ hfront j' hj'

/-- Another key that is taken out leaves the shield up. -/
theorem Shielded.erase (h : m.Shielded key value seen) (hne : k ≠ key) :
    (m.erase k).Shielded key value seen := by
  obtain ⟨front, i, rest, hold, hkey, hvalue, hfront⟩ := h
  obtain ⟨rest', hsplit⟩ := without_split (hkey.trans_ne hne.symm) front rest
  refine ⟨without front k, i, rest', ?_, hkey, hvalue, fun j hj => ?_⟩
  · rw [CacheModel.erase, hold, hsplit]
  · exact hfront j ((without_sublist front k).mem hj)

/-- A put writes the shielded key in its place, and any other key elsewhere. -/
theorem Shielded.put (h : m.Shielded key value seen) (hsound : m.Sound) (k : κ) (v : α) :
    (m.put k v).next.Shielded key (if k = key then v else value) seen := by
  rw [CacheModel.put]
  cases hv : m.value? k with
  | some before => exact h.write k fun _ => v
  | none =>
    have hne : k ≠ key := by
      rintro rfl
      rw [(h.found hsound).2.1] at hv
      cases hv
    rw [if_neg hne]
    refine h.congr ?_
    simp only [CacheModel.insert]
    split <;> rfl

/-- A removal of another key leaves the shield up. -/
theorem Shielded.remove (h : m.Shielded key value seen) (hne : k ≠ key) :
    (m.remove k).next.Shielded key value seen := by
  rw [CacheModel.remove]
  cases m.value? k with
  | some before => exact h.erase hne
  | none => exact h

/-- A hit, or a miss, leaves the shield up behind the key that was hit. -/
theorem Shielded.hit {hits : Finset κ} (h : m.Shielded key value seen) (hsound : m.Sound) (k : κ)
    (hhits : (m.value? k).isSome → k ≠ key → k ∈ hits)
    (hcard : (seen ∪ hits).card < m.oldCapacity) :
    (m.hit k).2.Shielded key value (seen ∪ hits) := by
  by_cases hk : k = key
  · subst hk
    exact (h.hit_self hsound).mono Finset.subset_union_left
  · cases hv : m.value? k with
    | none =>
      rw [hit_absent (value?_eq_none_iff.mp hv)]
      exact h.mono Finset.subset_union_left
    | some v =>
      have hmem : k ∈ hits := hhits (by rw [hv, Option.isSome_some]) hk
      have hsub : seen ∪ {k} ⊆ seen ∪ hits :=
        Finset.union_subset_union_right (Finset.singleton_subset_iff.mpr hmem)
      exact (h.hit_other hsound hk (Nat.lt_of_le_of_lt (Finset.card_le_card hsub) hcard)).mono hsub

/-- Every call that spares the key leaves the shield up, behind the key that it hits, as long as
fewer keys are seen than old has slots. -/
theorem Shielded.step {hits : Finset κ} (h : m.Shielded key value seen) (hsound : m.Sound)
    (op : Operation κ α) (hspares : op.spares m.value? key)
    (hhits : ∀ k, op.hitKey m.value? = some k → k ≠ key → k ∈ hits)
    (hcard : (seen ∪ hits).card < m.oldCapacity) :
    (m.step op).next.Shielded key (op.rewrite key value) (seen ∪ hits) := by
  have hwide : m.Shielded key value (seen ∪ hits) := h.mono Finset.subset_union_left
  cases op with
  | get k => exact h.hit hsound k (fun hv => hhits k (if_pos hv)) hcard
  | update k f =>
    exact (h.hit hsound k (fun hv => hhits k (if_pos hv)) hcard).write k f
  | getLive k alive =>
    rw [CacheModel.step, getLive]
    cases hv : m.value? k with
    | none => exact hwide
    | some v =>
      cases halive : alive v with
      | true =>
        simp only [halive, if_true]
        refine h.hit hsound k (fun _ => hhits k (if_pos ?_)) hcard
        rw [hv, Option.any_some, halive]
      | false =>
        simp only [halive, Bool.false_eq_true, if_false]
        refine hwide.erase fun hk => ?_
        have hall := hspares hk
        rw [hv, Option.all_some, halive] at hall
        cases hall
  | peek k => exact hwide
  | contains k => exact hwide
  | generationOf k => exact hwide
  | put k v => exact hwide.put hsound k v
  | set k v =>
    cases v with
    | some v => exact hwide.put hsound k v
    | none => exact hwide.remove hspares
  | remove k => exact hwide.remove hspares
  | clear => exact hspares.elim

end CacheModel

namespace Cache

variable {κ α : Type} [DecidableEq κ]

/-- The keys that a history hits, in order. -/
def hitKeys (c : Cache κ α) : List (Operation κ α) → List κ
  | [] => []
  | op :: rest => (op.hitKey c.peek).toList ++ (c.step op).2.hitKeys rest

/-- No call of the history removes the key, finds its value gone, or clears the cache. -/
def Spares (c : Cache κ α) (key : κ) : List (Operation κ α) → Prop
  | [] => True
  | op :: rest => op.spares c.peek key ∧ (c.step op).2.Spares key rest

/-- What a history leaves of the value of a key that it spares. -/
def lastWritten (key : κ) (value : α) (ops : List (Operation κ α)) : α :=
  ops.foldl (fun value op => op.rewrite key value) value

/-- A history that begins another one hits a part of its keys. -/
theorem hitKeys_append (c : Cache κ α) (as bs : List (Operation κ α)) :
    c.hitKeys (as ++ bs) = c.hitKeys as ++ (c.run as).2.hitKeys bs := by
  induction as generalizing c with
  | nil => rfl
  | cons op as ih =>
    simp only [List.cons_append, hitKeys, ih, List.append_assoc]
    rfl

/-- What a history spares, its beginning spares. -/
theorem Spares.of_append {c : Cache κ α} {key : κ} {as bs : List (Operation κ α)}
    (h : c.Spares key (as ++ bs)) : c.Spares key as := by
  induction as generalizing c with
  | nil => trivial
  | cons op as ih => exact ⟨h.1, ih h.2⟩

/-- A history that spares a shielded key leaves its shield up, behind the keys that it hits, as long
as fewer keys are seen than old has slots. -/
theorem shielded_run {s : Sketch κ α} {c : Cache κ α} {key : κ} {value : α} {seen : Finset κ}
    (hc : s.Depicts c) (hs : s.Settled) (hshield : s.model.Shielded key value seen)
    (ops : List (Operation κ α)) (hanswers : c.Answers ops) (hspares : c.Spares key ops)
    (hcard : (seen ∪ (c.hitKeys ops).toFinset.erase key).card < s.model.oldCapacity) :
    ∃ s' : Sketch κ α, s'.Depicts (c.run ops).2 ∧ s'.Settled ∧
      s'.model.Shielded key (lastWritten key value ops)
        (seen ∪ (c.hitKeys ops).toFinset.erase key) := by
  induction ops generalizing s c value seen with
  | nil => exact ⟨s, hc, hs, hshield.mono Finset.subset_union_left⟩
  | cons op rest ih =>
    obtain ⟨hok, hrest⟩ := hanswers.cons
    obtain ⟨s', hc', hreaches⟩ := step_of_ok hc hs hok
    have hpeek : c.peek = s.model.value? := funext fun k => hs.peek_eq hc k
    let hits := (op.hitKey c.peek).toList.toFinset.erase key
    have hsplit : seen ∪ (c.hitKeys (op :: rest)).toFinset.erase key =
        (seen ∪ hits) ∪ ((c.step op).2.hitKeys rest).toFinset.erase key := by
      rw [hitKeys, List.toFinset_append, Finset.erase_union_distrib, Finset.union_assoc]
    rw [hsplit] at hcard ⊢
    have hfew : (seen ∪ hits).card < s.model.oldCapacity :=
      Nat.lt_of_le_of_lt (Finset.card_le_card Finset.subset_union_left) hcard
    have hseen : ∀ k, op.hitKey s.model.value? = some k → k ≠ key → k ∈ hits := by
      intro k hk hne
      rw [← hpeek] at hk
      exact Finset.mem_erase.mpr
        ⟨hne, List.mem_toFinset.mpr (Option.mem_toList.mpr (Option.mem_def.mpr hk))⟩
    have hstep := hshield.step hs.sound op (hpeek ▸ hspares.1) hseen hfew
    have hcapacity : s'.model.oldCapacity = s.model.oldCapacity :=
      congrArg (fun config => config.oldCapacity.val) hreaches.config
    rw [← hreaches.model] at hstep
    exact ih hc' hreaches.settled hstep hrest hspares.2 (hcapacity ▸ hcard)

/-- Take any reachable cache and the key at the head of its old generation. However a history goes
on, after each part of it whose calls answered the key is still old and has the value last written
to it, if the history spares the key and hits fewer distinct other keys than old has slots. -/
theorem scan_resistance (c : Cache κ α) (hreachable : c.Reachable) {e : Entry κ α}
    {rest : List (Entry κ α)} (hhead : c.contents .old = e :: rest)
    (ops : List (Operation κ α)) (hspares : c.Spares e.key ops)
    (hfew : ((c.hitKeys ops).toFinset.erase e.key).card < c.old.capacity.val) :
    ∀ past, past <+: ops → c.Answers past →
      (c.run past).2.generationOf e.key = some .old ∧
        (c.run past).2.peek e.key = some (lastWritten e.key e.value past) := by
  obtain ⟨s, hc, hs⟩ := hreachable.settled
  have hshield : s.model.Shielded e.key e.value ∅ := by
    refine ⟨[], e.item, rest.map Entry.item, ?_, rfl, rfl, by simp⟩
    rw [← hc.model_eq, model, hhead]
    rfl
  rintro past ⟨later, rfl⟩ hanswers
  have hsub : (c.hitKeys past).toFinset.erase e.key ⊆
      (c.hitKeys (past ++ later)).toFinset.erase e.key := by
    rw [hitKeys_append, List.toFinset_append]
    exact Finset.erase_subset_erase _ Finset.subset_union_left
  have hcard : (∅ ∪ (c.hitKeys past).toFinset.erase e.key).card < s.model.oldCapacity := by
    rw [Finset.empty_union]
    have hslots : c.old.capacity.val = s.model.oldCapacity := hc.capacity .old
    exact hslots ▸ Nat.lt_of_le_of_lt (Finset.card_le_card hsub) hfew
  obtain ⟨s', hc', hs', hshield'⟩ :=
    shielded_run hc hs hshield past hanswers hspares.of_append hcard
  obtain ⟨hyoung, hvalue, i, hfound, -⟩ := hshield'.found hs'.sound
  rw [hs'.generationOf_eq hc', hs'.peek_eq hc', hvalue, CacheModel.generationOf,
    CacheModel.itemOf_eq_none_iff.mpr hyoung, hfound]
  exact ⟨rfl, rfl⟩

/-- A cache of four slots, three of them old, in which the first hit promotes a key and the key 1
was promoted. -/
def fourSlots : Cache Nat Nat :=
  ((ofConfig { capacity := ⟨4, by decide, by decide⟩, promotionThreshold := 1 }
    (Hasher.constant 0)).run [.put 1 10, .get 1]).2

/-- The key 1 stays old in four slots while two keys are put and one of them is promoted. -/
theorem scan_resistance_fourSlots :
    fourSlots.Reachable ∧ fourSlots.contents .old = [⟨1, 10, 0, .old, 0⟩] ∧
      fourSlots.Spares 1 [.put 2 20, .put 3 30, .get 3, .put 1 11, .remove 2] ∧
      ((fourSlots.hitKeys [.put 2 20, .put 3 30, .get 3, .put 1 11, .remove 2]).toFinset.erase
        1).card < fourSlots.old.capacity.val ∧
      (fourSlots.run [.put 2 20, .put 3 30, .get 3, .put 1 11, .remove 2]).2.peek 1 = some 11 := by
  have hanswers := answers_of_length (α := Nat)
    { capacity := ⟨4, by decide, by decide⟩, promotionThreshold := 1 } (Hasher.constant 0)
    ([.put 1 10, .get 1] ++ [.put 2 20, .put 3 30, .get 3, .put 1 11, .remove 2]) (by decide)
  obtain ⟨hbefore, hafter⟩ := answers_append_iff.mp hanswers
  have hreachable : fourSlots.Reachable := ⟨_, _, _, hbefore, rfl⟩
  have hhead : fourSlots.contents .old = [⟨1, 10, 0, .old, 0⟩] := rfl
  have hspares : fourSlots.Spares 1 [.put 2 20, .put 3 30, .get 3, .put 1 11, .remove 2] :=
    ⟨trivial, trivial, trivial, trivial, (by decide : 2 ≠ 1), trivial⟩
  have hfew : ((fourSlots.hitKeys
      [.put 2 20, .put 3 30, .get 3, .put 1 11, .remove 2]).toFinset.erase 1).card <
      fourSlots.old.capacity.val := by decide +kernel
  exact ⟨hreachable, hhead, hspares, hfew,
    (scan_resistance fourSlots hreachable hhead _ hspares hfew _ (List.prefix_refl _) hafter).2⟩

end Cache

end CachePool
