import CachePool.Proofs.Cache.Transfers

/-!
# Hits on settled sketches

A sketch is settled while no operation is under way: the nodes of the generations
are the indexed ones and the only ones with an entry, each is tagged with its
generation and hashed by its key, no key occurs twice, and the gauges are up to
date. A hit leads from a settled sketch to a settled one that shows what the rules
make of the hit, whatever becomes of the node that was hit.
-/

namespace CachePool

open Metrics

namespace Entry

variable {κ α : Type}

/-- Counted hits reach a threshold as the sum does: at the largest word they have reached any. -/
theorem le_countHit_iff (e : Entry κ α) (threshold : UInt32) :
    threshold ≤ e.countHit.hits ↔ threshold.toNat ≤ e.hits.toNat + 1 := by
  have hone : (1 : UInt32).toNat = 1 := rfl
  have hlt := threshold.toNat_lt
  rw [UInt32.le_iff_toNat_le, countHit]
  by_cases hroom : e.hits.toNat + 1 < UInt32.size
  · rw [if_pos hroom, UInt32.toNat_add, hone, Nat.mod_eq_of_lt hroom]
  · have hsize : UInt32.size = 2 ^ 32 := rfl
    rw [if_neg hroom]
    change _ ≤ e.hits.toNat ↔ _
    omega

/-- A hit below a threshold is counted in full. -/
theorem toNat_countHit {e : Entry κ α} {threshold : UInt32}
    (h : e.hits.toNat + 1 < threshold.toNat) : e.countHit.hits.toNat = e.hits.toNat + 1 := by
  have hone : (1 : UInt32).toNat = 1 := rfl
  have hroom : e.hits.toNat + 1 < UInt32.size := Nat.lt_trans h threshold.toNat_lt
  rw [countHit, if_pos hroom, UInt32.toNat_add, hone, Nat.mod_eq_of_lt hroom]

end Entry

namespace Sketch

variable {κ α : Type} {s s' : Sketch κ α} {n o : NodeId} {d e : Entry κ α} {g : Generation}
  {ns order : List NodeId}

/-- The node has an entry that is tagged with the generation and hashed by its key. -/
def Filed (s : Sketch κ α) (g : Generation) (n : NodeId) : Prop :=
  ∃ e, s.entries n = some e ∧ e.generation = g ∧ e.hash = s.hasher e.key

/-- What holds of a sketch whenever no operation is under way. -/
structure Settled (s : Sketch κ α) : Prop where
  nodup : (s.young ++ s.old).Nodup
  /-- The indexed nodes are those of the generations. -/
  indexed : ∃ order, s.order = some order ∧ order.Perm (s.young ++ s.old)
  filed : ∀ g, ∀ n ∈ s.side g, s.Filed g n
  /-- No entry is left at a node outside the generations. -/
  spare : ∀ n, s.Loose n → s.entries n = none
  sound : s.model.Sound
  youngSize : s.youngSize = s.young.length
  oldSize : s.oldSize = s.old.length

/-- A node stays filed while its entry does. -/
theorem Filed.congr {m : NodeId} (h : s.Filed g m) (hentry : s'.entries m = s.entries m)
    (hhasher : s'.hasher = s.hasher) : s'.Filed g m := by
  obtain ⟨e, he, hgeneration, hhash⟩ := h
  exact ⟨e, hentry.trans he, hgeneration, hhasher ▸ hhash⟩

/-- The node of a generation carries its tag and the hash of its key. -/
theorem Settled.tags (hs : s.Settled) (hn : n ∈ s.side g) (he : s.entries n = some e) :
    e.generation = g ∧ e.hash = s.hasher e.key := by
  obtain ⟨e', he', htags⟩ := hs.filed g n hn
  obtain rfl : e = e' := Option.some.inj (he.symm.trans he')
  exact htags

/-- The node of a generation is named by its key. -/
theorem Settled.names (hs : s.Settled) (hn : n ∈ s.young ++ s.old) (he : s.entries n = some e) :
    s.Names (s.young ++ s.old) n e := by
  refine names_of_nodup ?_ hn he
  rw [items_append]
  exact hs.sound.distinct

/-- The model shows an item for each young node. -/
theorem Settled.young_length (hs : s.Settled) : s.model.young.length = s.young.length :=
  items_length fun m hm => (hs.filed .young m hm).imp fun _ h => h.1

/-- The model shows an item for each old node. -/
theorem Settled.old_length (hs : s.Settled) : s.model.old.length = s.old.length :=
  items_length fun m hm => (hs.filed .old m hm).imp fun _ h => h.1

/-- The second sketch is settled and shows the model, and the first one differs from it by the
raised counters, and not in its configuration or its hasher. -/
structure Reaches (s : Sketch κ α) (raised : List Counter) (m : CacheModel κ α)
    (s' : Sketch κ α) : Prop where
  settled : s'.Settled
  model : s'.model = m
  counts : s'.counts = (s.raise raised).counts
  config : s'.config = s.config
  hasher : s'.hasher = s.hasher

/-- The second sketch differs from the first one in the places of nodes, in entries and in counters,
and its gauges are up to date. -/
structure Reorders (s : Sketch κ α) (raised : List Counter) (s' : Sketch κ α) : Prop where
  config : s'.config = s.config
  hasher : s'.hasher = s.hasher
  order : s'.order = s.order
  counts : s'.counts = (s.raise raised).counts
  youngSize : s'.youngSize = s'.young.length
  oldSize : s'.oldSize = s'.old.length

/-- Nodes that change places, with entries that are tagged to match, reach the model that they then
show. -/
theorem Reorders.reaches {raised : List Counter} {young old : List (Item κ α)} {m : CacheModel κ α}
    (h : s.Reorders raised s') (hs : s.Settled)
    (hperm : (s'.young ++ s'.old).Perm (s.young ++ s.old))
    (hfiledYoung : ∀ n ∈ s'.young, s'.Filed .young n)
    (hfiledOld : ∀ n ∈ s'.old, s'.Filed .old n)
    (hspare : ∀ n, s'.Loose n → s'.entries n = s.entries n)
    (hm : m = { s.model with young, old }) (hyoung : s'.items s'.young = young)
    (hold : s'.items s'.old = old) (hsound : m.Sound) : s.Reaches raised m s' := by
  have hmodel : s'.model = m := by
    rw [hm, model, model, slots, slots, slots, slots, h.config, hyoung, hold]
  obtain ⟨order, ho, hindexed⟩ := hs.indexed
  refine ⟨⟨hperm.nodup_iff.mpr hs.nodup, ⟨order, h.order.trans ho, hindexed.trans hperm.symm⟩,
    ?_, ?_, hmodel ▸ hsound, h.youngSize, h.oldSize⟩, hmodel, h.counts, h.config, h.hasher⟩
  · rintro (_ | _)
    · exact hfiledYoung
    · exact hfiledOld
  intro n hn
  rw [hspare n hn]
  apply hs.spare n
  rw [loose_iff] at hn ⊢
  rwa [← hperm.mem_iff]

/-- A refreshed young node changes places only. -/
theorem reorders_young (hs : s.Settled) (hn : n ∈ s.young) (e : Entry κ α)
    (raised : List Counter) :
    s.Reorders raised ((s.counted n e raised).withSide .young (n :: s.young.erase n)) := by
  refine ⟨?_, ?_, ?_, rfl, ?_, hs.oldSize⟩
  · simp [counted]
  · simp [counted]
  · simp [counted]
  · exact hs.youngSize.trans (List.perm_cons_erase hn).length_eq

/-- A refreshed old node changes places only. -/
theorem reorders_old (hs : s.Settled) (hn : n ∈ s.old) (e : Entry κ α) (raised : List Counter) :
    s.Reorders raised ((s.counted n e raised).withSide .old (n :: s.old.erase n)) := by
  refine ⟨?_, ?_, ?_, rfl, hs.youngSize, ?_⟩
  · simp [counted]
  · simp [counted]
  · simp [counted]
  · exact hs.oldSize.trans (List.perm_cons_erase hn).length_eq

/-- A promoted node changes places only. -/
theorem reorders_room (s : Sketch κ α) (n : NodeId) (d e : Entry κ α) (raised : List Counter) :
    s.Reorders (raised ++ [.promotions])
      (((s.counted n e raised).lifted n d).withSide .old (n :: s.old)).gauge := by
  have hcounts := congrArg counts (raise_raise s raised [.promotions])
  refine ⟨?_, ?_, ?_, hcounts, rfl, rfl⟩
  · simp [counted, lifted]
  · simp [counted, lifted]
  · simp [counted, lifted]

/-- Two exchanged nodes change places only. -/
theorem reorders_full (s : Sketch κ α) (n o : NodeId) (b d e : Entry κ α) (ns : List NodeId)
    (raised : List Counter) :
    s.Reorders (raised ++ [.promotions] ++ [.demotions])
      ((s.counted n e raised).exchanged n b o d ns).gauge := by
  have hfirst := raise_raise s raised [.promotions]
  have hcounts := congrArg counts (raise_raise s (raised ++ [.promotions]) [.demotions])
  rw [← hfirst] at hcounts
  refine ⟨?_, ?_, ?_, hcounts, rfl, rfl⟩
  · simp [counted, lifted, exchanged]
  · simp [counted, lifted, exchanged]
  · simp [counted, lifted, exchanged]

variable [DecidableEq κ]

/-- The item of a young node is found under its key. -/
theorem Settled.itemOf_young (hs : s.Settled) (hn : n ∈ s.young) (he : s.entries n = some e) :
    CacheModel.itemOf s.model.young e.key = some e.item := by
  have hdistinct := hs.sound.distinct
  rw [CacheModel.keys_append] at hdistinct
  exact CacheModel.itemOf_eq_some hdistinct.of_append_left (mem_items he hn)

/-- The item of an old node is found under its key, and not in young. -/
theorem Settled.itemOf_old (hs : s.Settled) (hn : n ∈ s.old) (he : s.entries n = some e) :
    e.key ∉ CacheModel.keys s.model.young ∧
      CacheModel.itemOf s.model.old e.key = some e.item := by
  have hdistinct := hs.sound.distinct
  rw [CacheModel.keys_append] at hdistinct
  have hmem : e.item ∈ s.model.old := mem_items he hn
  refine ⟨fun hyoung => ?_, CacheModel.itemOf_eq_some hdistinct.of_append_right hmem⟩
  exact (List.nodup_append.mp hdistinct).2.2 _ hyoung _ (CacheModel.mem_keys_of_mem hmem) rfl

/-- What a young node knows of its neighbours. -/
theorem Settled.young_facts (hs : s.Settled) (hn : n ∈ s.young) (he : s.entries n = some e) :
    n ∉ s.old ∧ (∀ m, m ∈ s.young.erase n ↔ m ≠ n ∧ m ∈ s.young) ∧
      CacheModel.without s.model.young e.key = s.items (s.young.erase n) ∧
      e.item.hits = e.hits.toNat ∧ e.hash = s.hasher e.key := by
  obtain ⟨hyoung, -, hdisjoint⟩ := List.nodup_append.mp hs.nodup
  have hnames := hs.names (List.mem_append_left _ hn) he
  obtain ⟨hgeneration, hhash⟩ := hs.tags (g := .young) hn he
  refine ⟨fun hmo => hdisjoint n hn n hmo rfl, fun m => hyoung.mem_erase_iff,
    (hnames.mono fun m hm => List.mem_append_left s.old hm).without_items, ?_, hhash⟩
  simp only [Entry.item, hgeneration]

/-- A young hit below the threshold reaches what the rules say. -/
theorem reaches_hit_young (hs : s.Settled) (hn : n ∈ s.young) (he : s.entries n = some e)
    (hlt : e.hits.toNat + 1 < s.config.promotionThreshold.toNat)
    (h : s.Reorders [.requests, .cacheHits, .youngHits] s')
    (hyoung : s'.young = n :: s.young.erase n) (hold : s'.old = s.old)
    (hentry : s'.entries n = some e.countHit)
    (helse : ∀ m, m ≠ n → s'.entries m = s.entries m) :
    s.Reaches (s.model.hit e.key).1 (s.model.hit e.key).2 s' := by
  obtain ⟨hnold, hmem, hwithout, hhits, hhash⟩ := hs.young_facts hn he
  obtain ⟨hgeneration, -⟩ := hs.tags (g := .young) hn he
  have hitem : e.countHit.item = { e.item with hits := e.item.hits + 1 } := by
    rw [hhits, ← Entry.toNat_countHit hlt]
    simp only [Entry.item, Entry.countHit, hgeneration]
  have hhit := CacheModel.hit_young (hs.itemOf_young hn he) (hhits ▸ hlt)
  have hsound := hs.sound.hit e.key
  rw [hhit] at hsound ⊢
  refine h.reaches hs ?_ ?_ ?_ ?_ rfl ?_ ?_ hsound
  · rw [hyoung, hold]
    exact (List.perm_cons_erase hn).symm.append_right s.old
  · rw [hyoung]
    rintro m (_ | ⟨_, hm⟩)
    · exact ⟨e.countHit, hentry, hgeneration, h.hasher ▸ hhash⟩
    · obtain ⟨hmn, hm⟩ := (hmem m).mp hm
      exact (hs.filed .young m hm).congr (helse m hmn) h.hasher
  · rw [hold]
    intro m hm
    exact (hs.filed .old m hm).congr (helse m (ne_of_mem_of_not_mem hm hnold)) h.hasher
  · intro m hm
    exact helse m (List.ne_of_not_mem_cons (hyoung ▸ hm.1))
  · rw [hyoung, items_cons hentry, hitem, hwithout,
      items_congr fun m hm => helse m ((hmem m).mp hm).1]
  · rw [hold, items_congr fun m hm => helse m (ne_of_mem_of_not_mem hm hnold)]
    rfl

/-- An old hit reaches what the rules say. -/
theorem reaches_hit_old (hs : s.Settled) (hn : n ∈ s.old) (he : s.entries n = some e)
    (h : s.Reorders [.requests, .cacheHits, .oldHits] s')
    (hyoung : s'.young = s.young) (hold : s'.old = n :: s.old.erase n)
    (hentry : s'.entries n = some e.countHit)
    (helse : ∀ m, m ≠ n → s'.entries m = s.entries m) :
    s.Reaches (s.model.hit e.key).1 (s.model.hit e.key).2 s' := by
  obtain ⟨-, hnodup, hdisjoint⟩ := List.nodup_append.mp hs.nodup
  have hnyoung : n ∉ s.young := fun hmy => hdisjoint n hmy n hn rfl
  have hnames := hs.names (List.mem_append_right _ hn) he
  have hwithout : CacheModel.without s.model.old e.key = s.items (s.old.erase n) :=
    (hnames.mono fun m hm => List.mem_append_right s.young hm).without_items
  obtain ⟨hgeneration, hhash⟩ := hs.tags (g := .old) hn he
  obtain ⟨hmissing, hfound⟩ := hs.itemOf_old hn he
  have hitem : e.countHit.item = e.item := by
    simp only [Entry.item, Entry.countHit, hgeneration]
  have hsound := hs.sound.hit e.key
  rw [CacheModel.hit_old hmissing hfound] at hsound ⊢
  refine h.reaches hs ?_ ?_ ?_ ?_ rfl ?_ ?_ hsound
  · rw [hyoung, hold]
    exact (List.perm_cons_erase hn).symm.append_left s.young
  · rw [hyoung]
    intro m hm
    exact (hs.filed .young m hm).congr (helse m (ne_of_mem_of_not_mem hm hnyoung)) h.hasher
  · rw [hold]
    rintro m (_ | ⟨_, hm⟩)
    · exact ⟨e.countHit, hentry, hgeneration, h.hasher ▸ hhash⟩
    · obtain ⟨hmn, hm⟩ := hnodup.mem_erase_iff.mp hm
      exact (hs.filed .old m hm).congr (helse m hmn) h.hasher
  · intro m hm
    exact helse m (List.ne_of_not_mem_cons (hold ▸ hm.2))
  · rw [hyoung, items_congr fun m hm => helse m (ne_of_mem_of_not_mem hm hnyoung)]
    rfl
  · rw [hold, items_cons hentry, hitem, hwithout,
      items_congr fun m hm => helse m (hnodup.mem_erase_iff.mp hm).1]

/-- A young hit that reaches the threshold, with room in old, reaches what the rules say. -/
theorem reaches_hit_room (hs : s.Settled) (hn : n ∈ s.young) (he : s.entries n = some e)
    (hle : s.config.promotionThreshold.toNat ≤ e.hits.toNat + 1)
    (hroom : s.old.length < s.slots .old)
    (h : s.Reorders [.requests, .cacheHits, .youngHits, .promotions] s')
    (hyoung : s'.young = s.young.erase n) (hold : s'.old = n :: s.old)
    (hentry : s'.entries n = some (e.countHit.enter .old))
    (helse : ∀ m, m ≠ n → s'.entries m = s.entries m) :
    s.Reaches (s.model.hit e.key).1 (s.model.hit e.key).2 s' := by
  obtain ⟨hnold, hmem, hwithout, hhits, hhash⟩ := hs.young_facts hn he
  have hsound := hs.sound.hit e.key
  rw [CacheModel.hit_room (hs.itemOf_young hn he) (hhits ▸ hle) (hs.old_length ▸ hroom)] at hsound ⊢
  refine h.reaches hs ?_ ?_ ?_ ?_ rfl ?_ ?_ hsound
  · rw [hyoung, hold]
    exact List.perm_middle.trans ((List.perm_cons_erase hn).symm.append_right s.old)
  · rw [hyoung]
    intro m hm
    obtain ⟨hmn, hm⟩ := (hmem m).mp hm
    exact (hs.filed .young m hm).congr (helse m hmn) h.hasher
  · rw [hold]
    rintro m (_ | ⟨_, hm⟩)
    · exact ⟨e.countHit.enter .old, hentry, rfl, h.hasher ▸ hhash⟩
    · exact (hs.filed .old m hm).congr (helse m (ne_of_mem_of_not_mem hm hnold)) h.hasher
  · intro m hm
    exact helse m (List.ne_of_not_mem_cons (hold ▸ hm.2))
  · rw [hyoung, hwithout, items_congr fun m hm => helse m ((hmem m).mp hm).1]
  · rw [hold, items_cons hentry, items_congr fun m hm => helse m (ne_of_mem_of_not_mem hm hnold)]
    rfl

/-- A young hit that reaches the threshold, with old full, reaches what the rules say. -/
theorem reaches_hit_full (hs : s.Settled) (hn : n ∈ s.young) (he : s.entries n = some e)
    (hle : s.config.promotionThreshold.toNat ≤ e.hits.toNat + 1) (hns : s.old = ns ++ [o])
    (hd : s.entries o = some d) (hfull : s.slots .old ≤ s.old.length)
    (h : s.Reorders [.requests, .cacheHits, .youngHits, .promotions, .demotions] s')
    (hyoung : s'.young = o :: s.young.erase n) (hold : s'.old = n :: ns)
    (hentry : s'.entries n = some (e.countHit.enter .old))
    (hentryo : s'.entries o = some (d.enter .young))
    (helse : ∀ m, m ≠ n → m ≠ o → s'.entries m = s.entries m) :
    s.Reaches (s.model.hit e.key).1 (s.model.hit e.key).2 s' := by
  obtain ⟨-, hnodup, hdisjoint⟩ := List.nodup_append.mp hs.nodup
  obtain ⟨hnold, hmem, hwithout, hhits, hhash⟩ := hs.young_facts hn he
  have homem : o ∈ s.old := hns ▸ List.mem_append_right ns (List.mem_singleton_self o)
  have hnsub : ∀ m ∈ ns, m ∈ s.old ∧ m ≠ o := by
    intro m hm
    rw [hns] at hnodup ⊢
    exact ⟨List.mem_append_left _ hm,
      (List.nodup_append.mp hnodup).2.2 m hm o (List.mem_singleton_self o)⟩
  obtain ⟨-, hhasho⟩ := hs.tags (g := .old) homem hd
  have hlast : s.model.old = s.items ns ++ [d.item] := by
    rw [model, hns, items_concat hd]
  have hkeepYoung : ∀ m ∈ s.young.erase n, s'.entries m = s.entries m := by
    intro m hm
    obtain ⟨hmn, hm⟩ := (hmem m).mp hm
    exact helse m hmn (hdisjoint m hm o homem)
  have hkeepOld : ∀ m ∈ ns, s'.entries m = s.entries m := by
    intro m hm
    obtain ⟨hm, hmo⟩ := hnsub m hm
    exact helse m (ne_of_mem_of_not_mem hm hnold) hmo
  have hsound := hs.sound.hit e.key
  rw [CacheModel.hit_full (hs.itemOf_young hn he) (hhits ▸ hle) (hs.old_length ▸ hfull) hlast]
    at hsound ⊢
  refine h.reaches hs ?_ ?_ ?_ ?_ rfl ?_ ?_ hsound
  · have hcount := (List.perm_cons_erase hn).append_right (ns ++ [o])
    rw [hyoung, hold, hns]
    refine (List.perm_middle.cons o).trans ((List.Perm.swap _ _ _).trans (hcount.trans ?_).symm)
    rw [List.cons_append, ← List.append_assoc]
    exact (List.perm_append_singleton o _).cons n
  · rw [hyoung]
    rintro m (_ | ⟨_, hm⟩)
    · exact ⟨d.enter .young, hentryo, rfl, h.hasher ▸ hhasho⟩
    · exact (hs.filed .young m ((hmem m).mp hm).2).congr (hkeepYoung m hm) h.hasher
  · rw [hold]
    rintro m (_ | ⟨_, hm⟩)
    · exact ⟨e.countHit.enter .old, hentry, rfl, h.hasher ▸ hhash⟩
    · exact (hs.filed .old m (hnsub m hm).1).congr (hkeepOld m hm) h.hasher
  · intro m hm
    exact helse m (List.ne_of_not_mem_cons (hold ▸ hm.2))
      (List.ne_of_not_mem_cons (hyoung ▸ hm.1))
  · rw [hyoung, items_cons hentryo, hwithout, items_congr hkeepYoung]
    rfl
  · rw [hold, items_cons hentry, items_congr hkeepOld]
    rfl

/-- A hit frees nothing and reaches what the rules say, and its node keeps its key and its value. -/
theorem carries_hit (hs : s.Settled) (hn : n ∈ s.young ++ s.old) (he : s.entries n = some e) :
    ∃ s' e', Carries (Cache.hit n) s [] s' ∧
      s.Reaches (s.model.hit e.key).1 (s.model.hit e.key).2 s' ∧
      n ∈ s'.young ++ s'.old ∧ s'.entries n = some e' ∧ e'.key = e.key ∧ e'.value = e.value := by
  obtain ⟨-, -, hdisjoint⟩ := List.nodup_append.mp hs.nodup
  rcases List.mem_append.mp hn with hn | hn
  · obtain ⟨hgeneration, -⟩ := hs.tags (g := .young) hn he
    by_cases hle : s.config.promotionThreshold ≤ e.countHit.hits
    · have hle' := (e.le_countHit_iff _).mp hle
      have hentry : (s.write n (some e.countHit)).entries n = some e.countHit := if_pos rfl
      by_cases hroom : s.old.length < s.slots .old
      · refine ⟨_, e.countHit.enter .old, carries_hit_ripe he hgeneration hle
          (carries_promote_room hs.nodup hn hentry hroom), ?_, ?_, if_pos rfl, rfl, rfl⟩
        · exact reaches_hit_room hs hn he hle' hroom
            (reorders_room s n _ e [.requests, .cacheHits, .youngHits]) rfl rfl (if_pos rfl)
            fun m hmn => (if_neg hmn).trans (if_neg hmn)
        · exact List.mem_append_right _ List.mem_cons_self
      · have hfull := Nat.le_of_not_lt hroom
        obtain ⟨ns, o, hns⟩ := CacheModel.exists_last s.config.oldCapacity.pos hfull
        have homem : o ∈ s.old := hns ▸ List.mem_append_right ns (List.mem_singleton_self o)
        obtain ⟨d, hd, -⟩ := hs.filed .old o homem
        have hno : n ≠ o := hdisjoint n hn o homem
        have hyoung : s.young.length ≤ s.slots .young := hs.young_length ▸ hs.sound.youngBounded
        refine ⟨_, e.countHit.enter .old, carries_hit_ripe he hgeneration hle
          (carries_promote_full hs.nodup hn hentry hns ((if_neg hno.symm).trans hd) hfull hyoung),
          ?_, ?_, (if_neg hno).trans (if_pos rfl), rfl, rfl⟩
        · exact reaches_hit_full hs hn he hle' hns hd hfull
            (reorders_full s n o _ d e ns [.requests, .cacheHits, .youngHits]) rfl rfl
            ((if_neg hno).trans (if_pos rfl)) (if_pos rfl)
            fun m hmn hmo => (if_neg hmo).trans ((if_neg hmn).trans (if_neg hmn))
        · exact List.mem_append_right _ List.mem_cons_self
    · have hlt := Nat.lt_of_not_le (mt (e.le_countHit_iff _).mpr hle)
      refine ⟨_, e.countHit, carries_hit_young hn he hgeneration hle, ?_, ?_, if_pos rfl, rfl, rfl⟩
      · exact reaches_hit_young hs hn he hlt (reorders_young hs hn e _) rfl rfl (if_pos rfl)
          fun m hmn => if_neg hmn
      · exact List.mem_append_left _ List.mem_cons_self
  · obtain ⟨hgeneration, -⟩ := hs.tags (g := .old) hn he
    refine ⟨_, e.countHit, carries_hit_old hn he hgeneration, ?_, ?_, if_pos rfl, rfl, rfl⟩
    · exact reaches_hit_old hs hn he (reorders_old hs hn e _) rfl rfl (if_pos rfl)
        fun m hmn => if_neg hmn
    · exact List.mem_append_right _ List.mem_cons_self

end Sketch

end CachePool
