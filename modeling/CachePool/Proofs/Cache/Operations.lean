import CachePool.Proofs.Cache.Settled

/-!
# Operations along sketches

Every operation of a cache leads from a settled sketch to a settled one that shows
the next model, with the outcome and the raised counters of the rules. A key is
looked up where its entry is, whatever its hash is; a removal takes its node out of
the index, its generation and the entries; an insertion makes a node, and frees the
last young one if there was no room.
-/

namespace CachePool

open Metrics

namespace Sketch

variable {κ α : Type} {s s' : Sketch κ α} {n o : NodeId} {d e : Entry κ α} {g : Generation}
  {ns order : List NodeId} {key : κ} {raised : List Counter} {m : CacheModel κ α}

/-- Raised counters change nothing else. -/
theorem Settled.raise (hs : s.Settled) (raised : List Counter) : (s.raise raised).Settled :=
  { hs with }

/-- An event that is only counted reaches the model at which it starts. -/
theorem Settled.reaches_raise (hs : s.Settled) (raised : List Counter) :
    s.Reaches raised s.model (s.raise raised) :=
  ⟨hs.raise raised, rfl, rfl, rfl, rfl⟩

/-- Nothing done reaches the model at which it starts. -/
theorem Settled.reaches_refl (hs : s.Settled) : s.Reaches [] s.model s :=
  ⟨hs, rfl, rfl, rfl, rfl⟩

/-- The node of a key is extracted from a settled sketch. -/
theorem Settled.carries_extract (hs : s.Settled) (hn : n ∈ s.young ++ s.old)
    (he : s.entries n = some e) (ho : s.order = some order) :
    Carries (Cache.extract n) s e (s.dropped order n) := by
  obtain ⟨order', ho', hindexed⟩ := hs.indexed
  obtain rfl : order = order' := Option.some.inj (ho.symm.trans ho')
  refine Sketch.carries_extract hs.nodup he ?_ ho (hindexed.mem_iff.mpr hn)
    (hindexed.nodup_iff.mpr hs.nodup)
  rcases List.mem_append.mp hn with hn | hn
  · rw [(hs.tags (g := .young) hn he).1]
    exact hn
  · rw [(hs.tags (g := .old) hn he).1]
    exact hn

/-- A new entry of a key. -/
def newEntry (s : Sketch κ α) (key : κ) (value : α) : Entry κ α :=
  { key, value, hash := s.hasher key }

/-- The sketch with a new node, indexed but in no generation yet. -/
def admitted (s : Sketch κ α) (order : List NodeId) (e : Entry κ α) : Sketch κ α :=
  { s.write s.unused (some e) with unused := s.unused + 1, order := some (s.unused :: order) }

/-- A node that enters young in front of nodes that stay brings its item to the front of the
model. -/
theorem reaches_insert (hs : s.Settled) (hloose : s.Loose n) (e : Entry κ α)
    (hgeneration : e.generation = .young) (hhash : e.hash = s.hasher e.key)
    (hm : m = { s.model with young := e.item :: s.items ns }) (hsound : m.Sound)
    (hsub : ns.Sublist s.young) (hyoung : s'.young = n :: ns) (hold : s'.old = s.old)
    (horder : s'.order = some order) (hperm : order.Perm (n :: ns ++ s.old))
    (hentry : s'.entries n = some e) (helse : ∀ m ∈ ns ++ s.old, s'.entries m = s.entries m)
    (hspare : ∀ m, s'.Loose m → s'.entries m = none) (hconfig : s'.config = s.config)
    (hhasher : s'.hasher = s.hasher) (hcounts : s'.counts = (s.raise raised).counts)
    (hyoungSize : s'.youngSize = s'.young.length) (holdSize : s'.oldSize = s'.old.length) :
    s.Reaches raised m s' := by
  have hyoungKept : ∀ m ∈ ns, s'.entries m = s.entries m :=
    fun m hm => helse m (List.mem_append_left _ hm)
  have holdKept : ∀ m ∈ s.old, s'.entries m = s.entries m :=
    fun m hm => helse m (List.mem_append_right _ hm)
  have hmodel : s'.model = m := by
    rw [hm, model, model, slots, slots, slots, slots, hconfig, hyoung, hold, items_cons hentry,
      items_congr hyoungKept, items_congr holdKept]
  have hnot : n ∉ ns ++ s.old := fun hmem =>
    (List.mem_append.mp hmem).elim (fun hmem => hloose.1 (hsub.mem hmem)) hloose.2
  refine ⟨⟨?_, ⟨order, horder, ?_⟩, ?_, hspare, hmodel ▸ hsound, hyoungSize, holdSize⟩, hmodel,
    hcounts, hconfig, hhasher⟩
  · rw [hyoung, hold, List.cons_append]
    exact List.nodup_cons.mpr ⟨hnot, hs.nodup.sublist (hsub.append (.refl _))⟩
  · rw [hyoung, hold]
    exact hperm
  · rintro (_ | _)
    · change ∀ m ∈ s'.young, s'.Filed .young m
      rw [hyoung]
      rintro m (_ | ⟨_, hm⟩)
      · exact ⟨e, hentry, hgeneration, hhasher ▸ hhash⟩
      · exact (hs.filed .young m (hsub.mem hm)).congr (hyoungKept m hm) hhasher
    · change ∀ m ∈ s'.old, s'.Filed .old m
      rw [hold]
      exact fun m hm => (hs.filed .old m hm).congr (holdKept m hm) hhasher

/-- Every node of a settled sketch has an entry. -/
theorem Settled.filled (hs : s.Settled) : ∀ m ∈ s.young ++ s.old, ∃ e, s.entries m = some e := by
  intro m hm
  rcases List.mem_append.mp hm with hm | hm
  · exact (hs.filed .young m hm).imp fun _ h => h.1
  · exact (hs.filed .old m hm).imp fun _ h => h.1

/-- The values of nodes are those of their items. -/
theorem valuesUp_eq (s : Sketch κ α) (ns : List NodeId) :
    s.valuesUp ns = (s.items ns).reverse.map (·.value) := by
  rw [valuesUp, items, ← List.filterMap_reverse, List.map_filterMap, List.map_filterMap]
  refine List.filterMap_congr fun m _ => ?_
  rw [Option.map_map]
  rfl

/-- The values of both generations are freed as the model says. -/
theorem ending_eq (s : Sketch κ α) : s.valuesUp s.young ++ s.valuesUp s.old = s.model.ending := by
  rw [valuesUp_eq, valuesUp_eq, CacheModel.ending, List.map_append]
  rfl

/-- A clear reaches the empty model. -/
theorem reaches_clear (hs : s.Settled) :
    s.Reaches [] { s.model with young := [], old := [] }
      (Sketch.gauge { (Sketch.emptied { s with order := none } .young).emptied .old with
        order := some [] }) := by
  refine ⟨⟨List.nodup_nil, ⟨[], rfl, .refl _⟩, ?_, ?_, ?_, rfl, rfl⟩, rfl, rfl, rfl, rfl⟩
  · rintro (_ | _) m hm
    · cases hm
    · cases hm
  · intro m _
    change (if m ∈ s.old then none else if m ∈ s.young then none else s.entries m) = none
    by_cases hold : m ∈ s.old
    · exact if_pos hold
    · by_cases hyoung : m ∈ s.young
      · rw [if_neg hold, if_pos hyoung]
      · rw [if_neg hold, if_neg hyoung, hs.spare m ⟨hyoung, hold⟩]
  · exact ⟨List.nodup_nil, Nat.zero_le _, Nat.zero_le _, hs.sound.youngRoom, hs.sound.oldRoom⟩

/-- A node of a generation is hashed by its key. -/
theorem Settled.hash_eq (hs : s.Settled) (hn : n ∈ s.young ++ s.old)
    (he : s.entries n = some e) : e.hash = s.hasher e.key := by
  rcases List.mem_append.mp hn with hn | hn
  · exact (hs.tags (g := .young) hn he).2
  · exact (hs.tags (g := .old) hn he).2

variable [DecidableEq κ]

/-- A key has a node, or it does not occur. -/
theorem exists_node_or_not_mem (s : Sketch κ α) (key : κ) :
    (∃ n ∈ s.young ++ s.old, ∃ e, s.entries n = some e ∧ e.key = key) ∨
      key ∉ CacheModel.keys (s.model.young ++ s.model.old) := by
  by_cases h : key ∈ CacheModel.keys (s.items (s.young ++ s.old))
  · exact Or.inl (mem_keys_items.mp h)
  · rw [items_append] at h
    exact Or.inr h

/-- A key is looked up at its node. -/
theorem Settled.node?_eq_some (hs : s.Settled) (hn : n ∈ s.young ++ s.old)
    (he : s.entries n = some e) {c : Cache κ α} (hc : s.Depicts c) : c.node? e.key = some n := by
  obtain ⟨order, ho, hperm⟩ := hs.indexed
  exact (hc.node?_eq_some_iff ho).mpr ⟨hperm.mem_iff.mpr hn, e, he, hs.hash_eq hn he, rfl⟩

/-- A key that does not occur has no node. -/
theorem Settled.node?_eq_none (hs : s.Settled)
    (hkey : key ∉ CacheModel.keys (s.model.young ++ s.model.old)) {c : Cache κ α}
    (hc : s.Depicts c) : c.node? key = none := by
  obtain ⟨order, ho, hperm⟩ := hs.indexed
  refine Option.eq_none_iff_forall_ne_some.mpr fun n hn => hkey ?_
  obtain ⟨hmem, e, he, -, hek⟩ := (hc.node?_eq_some_iff ho).mp hn
  have hkeys := mem_keys_items.mpr ⟨n, hperm.mem_iff.mp hmem, e, he, hek⟩
  rwa [items_append] at hkeys

/-- The value of a key is that of its node. -/
theorem Settled.value?_eq (hs : s.Settled) (hn : n ∈ s.young ++ s.old)
    (he : s.entries n = some e) : s.model.value? e.key = some e.value := by
  have hmem : e.item ∈ s.items (s.young ++ s.old) := mem_items he hn
  rw [items_append] at hmem
  have hfound := CacheModel.itemOf_eq_some hs.sound.distinct hmem
  rw [CacheModel.value?, show e.key = e.item.key from rfl, hfound]
  rfl

/-- A key with a node is found and nothing is counted yet. -/
theorem carries_seek_found (hs : s.Settled) (hn : n ∈ s.young ++ s.old)
    (he : s.entries n = some e) : Carries (Cache.seek e.key) s (some n) s := by
  refine .read (fun c hc => ?_) (.pure _ _)
  rw [hs.node?_eq_some hn he hc]

/-- A key that does not occur counts as a miss. -/
theorem carries_seek_absent (hs : s.Settled)
    (hkey : key ∉ CacheModel.keys (s.model.young ++ s.model.old)) :
    Carries (Cache.seek key) s none (s.raise [.requests]) := by
  have hmiss : Carries (Cache.tally CacheMetrics.countMiss >>= fun _ => pure none) s none _ :=
    (carries_bump s rfl).bind (.pure (none : Option NodeId) _)
  refine .read (fun c hc => ?_) hmiss
  rw [hs.node?_eq_none hkey hc]

/-- A written value reaches the model with that value written. -/
theorem Reaches.write (h : s.Reaches raised m s') (hn : n ∈ s'.young ++ s'.old)
    (he : s'.entries n = some e) (hkey : e.key = key) (f : α → α) :
    s.Reaches raised (m.write key f) (s'.write n (some { e with value := f e.value })) := by
  subst hkey
  have hs := h.settled
  have hnames := hs.names hn he
  have hmodel : Sketch.model (s'.write n (some { e with value := f e.value })) =
      m.write e.key f := by
    have hyoung := (hnames.mono fun m hm => List.mem_append_left s'.old hm).revise_items f
    have hold := (hnames.mono fun m hm => List.mem_append_right s'.young hm).revise_items f
    rw [← h.model, CacheModel.write]
    exact congrArg₂ (fun y o => ({ s'.model with young := y, old := o } : CacheModel κ α))
      hyoung.symm hold.symm
  refine ⟨⟨hs.nodup, hs.indexed, ?_, ?_, ?_, hs.youngSize, hs.oldSize⟩, hmodel, h.counts,
    h.config, h.hasher⟩
  · intro g m hm
    have hm : m ∈ s'.side g := by
      cases g <;> exact hm
    by_cases hmn : m = n
    · subst hmn
      obtain ⟨hgeneration, hhash⟩ := hs.tags hm he
      exact ⟨_, if_pos rfl, hgeneration, hhash⟩
    · exact (hs.filed g m hm).congr (if_neg hmn) rfl
  · intro m hm
    have hmn : m ≠ n := by
      rintro rfl
      exact loose_iff.mp hm hn
    exact (if_neg hmn).trans (hs.spare m hm)
  · rw [hmodel]
    exact (h.model ▸ hs.sound).write e.key f

/-- A lookup reaches what the rules say of a hit or a miss. -/
theorem carries_get (hs : s.Settled) (key : κ) :
    ∃ s', Carries (Cache.get key) s { result := s.model.value? key } s' ∧
      s.Reaches (s.model.hit key).1 (s.model.hit key).2 s' := by
  rcases s.exists_node_or_not_mem key with ⟨n, hn, e, he, rfl⟩ | hkey
  · obtain ⟨s', e', hhit, hreaches, -, he', -, hvalue⟩ := carries_hit hs hn he
    refine ⟨s', ?_, hreaches⟩
    rw [hs.value?_eq hn he, ← hvalue]
    exact (carries_seek_found hs hn he).bind (hhit.bind ((carries_entry he').bind (.pure _ _)))
  · rw [CacheModel.hit_absent hkey, CacheModel.value?_eq_none_iff.mpr hkey]
    exact ⟨_, (carries_seek_absent hs hkey).bind (.pure _ _), hs.reaches_raise _⟩

/-- An update hits its key and then writes its value. -/
theorem carries_update (hs : s.Settled) (key : κ) (f : α → α) :
    ∃ s', Carries (Cache.update key f) s { result := s.model.value? key } s' ∧
      s.Reaches (s.model.hit key).1 ((s.model.hit key).2.write key f) s' := by
  rcases s.exists_node_or_not_mem key with ⟨n, hn, e, he, rfl⟩ | hkey
  · obtain ⟨s', e', hhit, hreaches, hn', he', hk, hvalue⟩ := carries_hit hs hn he
    refine ⟨_, ?_, hreaches.write hn' he' hk f⟩
    rw [hs.value?_eq hn he, ← hvalue]
    have hstore : Carries (Cache.store n { e' with value := f e'.value }) s' () _ :=
      carries_store he' rfl rfl
    exact (carries_seek_found hs hn he).bind
      (hhit.bind ((carries_entry he').bind (hstore.bind (.pure _ _))))
  · rw [CacheModel.hit_absent hkey, CacheModel.value?_eq_none_iff.mpr hkey]
    simp only [CacheModel.write_absent hkey]
    exact ⟨_, (carries_seek_absent hs hkey).bind (.pure _ _), hs.reaches_raise _⟩

/-- A node that left its generation, the index and the entries reaches the model without its key. -/
theorem reaches_erase (hs : s.Settled) (hn : n ∈ s.young ++ s.old) (he : s.entries n = some e)
    (ho : s.order = some order) (raised : List Counter) :
    s.Reaches raised (s.model.erase e.key) ((s.dropped order n).raise raised).gauge := by
  obtain ⟨hyoung, hold, hdisjoint⟩ := List.nodup_append.mp hs.nodup
  have hnames := hs.names hn he
  have helse : ∀ m, m ≠ n → (s.dropped order n).entries m = s.entries m := fun m hmn => if_neg hmn
  have hmodel : Sketch.model ((s.dropped order n).raise raised).gauge = s.model.erase e.key := by
    have hyoungItems := (hnames.mono fun m hm => List.mem_append_left s.old hm).without_items
    have holdItems := (hnames.mono fun m hm => List.mem_append_right s.young hm).without_items
    have hyoungKept := items_congr fun m hm => helse m (hyoung.mem_erase_iff.mp hm).1
    have holdKept := items_congr fun m hm => helse m (hold.mem_erase_iff.mp hm).1
    exact congrArg₂ (fun y o => ({ s.model with young := y, old := o } : CacheModel κ α))
      (hyoungKept.trans hyoungItems.symm) (holdKept.trans holdItems.symm)
  have hperm : (order.erase n).Perm (s.young.erase n ++ s.old.erase n) := by
    obtain ⟨order', ho', hindexed⟩ := hs.indexed
    obtain rfl : order = order' := Option.some.inj (ho.symm.trans ho')
    refine (hindexed.erase n).trans (.of_eq ?_)
    rcases List.mem_append.mp hn with hn | hn
    · rw [List.erase_append_left _ hn, List.erase_of_not_mem fun hmo => hdisjoint n hn n hmo rfl]
    · have hny : n ∉ s.young := fun hmy => hdisjoint n hmy n hn rfl
      rw [List.erase_append_right _ hny, List.erase_of_not_mem hny]
  refine ⟨⟨?_, ⟨_, rfl, hperm⟩, ?_, ?_, hmodel ▸ hs.sound.erase e.key, rfl, rfl⟩, hmodel,
    rfl, rfl, rfl⟩
  · exact hs.nodup.sublist ((List.erase_sublist).append List.erase_sublist)
  · rintro (_ | _) m hm
    · obtain ⟨hmn, hm⟩ := hyoung.mem_erase_iff.mp hm
      exact (hs.filed .young m hm).congr (helse m hmn) rfl
    · obtain ⟨hmn, hm⟩ := hold.mem_erase_iff.mp hm
      exact (hs.filed .old m hm).congr (helse m hmn) rfl
  · intro m hm
    by_cases hmn : m = n
    · exact if_pos hmn
    · refine (if_neg hmn).trans (hs.spare m ⟨fun hmy => hm.1 ?_, fun hmo => hm.2 ?_⟩)
      · exact (List.mem_erase_of_ne hmn).mpr hmy
      · exact (List.mem_erase_of_ne hmn).mpr hmo

/-- A removal takes its key out, or changes nothing. -/
theorem carries_remove (hs : s.Settled) (key : κ) :
    ∃ s', Carries (Outcome.map .value <$> Cache.remove key) s (s.model.remove key).outcome s' ∧
      s.Reaches (s.model.remove key).raised (s.model.remove key).next s' := by
  rcases s.exists_node_or_not_mem key with ⟨n, hn, e, he, rfl⟩ | hkey
  · obtain ⟨order, ho, -⟩ := hs.indexed
    have hremove : Carries (Cache.remove e.key) s { result := some e.value }
        ((s.dropped order n).raise [.removals]).gauge := by
      refine .read (fun c hc => by rw [hs.node?_eq_some hn he hc]) ?_
      refine (hs.carries_extract hn he ho).bind ?_
      exact (carries_bump _ rfl).bind ((carries_gauge _).bind (.pure _ _))
    simp only [CacheModel.remove, hs.value?_eq hn he]
    exact ⟨_, hremove.map, reaches_erase hs hn he ho [.removals]⟩
  · have hremove : Carries (Cache.remove key) s { result := none } s :=
      .read (fun c hc => by rw [hs.node?_eq_none hkey hc]) (.pure _ _)
    simp only [CacheModel.remove, CacheModel.value?_eq_none_iff.mpr hkey]
    exact ⟨s, hremove.map, hs.reaches_refl⟩

/-- A lookup of a key whose value may be gone drops the key if it is. -/
theorem carries_getLive (hs : s.Settled) (key : κ) (alive : α → Bool) :
    ∃ s', Carries (Outcome.map .value <$> Cache.getLive key alive) s
        (s.model.getLive key alive).outcome s' ∧
      s.Reaches (s.model.getLive key alive).raised (s.model.getLive key alive).next s' := by
  rcases s.exists_node_or_not_mem key with ⟨n, hn, e, he, rfl⟩ | hkey
  · have hseek := carries_seek_found hs hn he
    simp only [CacheModel.getLive, hs.value?_eq hn he]
    cases halive : alive e.value with
    | true =>
      obtain ⟨s', e', hhit, hreaches, -⟩ := carries_hit hs hn he
      have hlive : Carries (Cache.getLive e.key alive) s { result := some e.value } s' := by
        refine hseek.bind ((carries_entry he).bind ?_)
        simp only [halive, if_true]
        exact hhit.bind (.pure _ _)
      exact ⟨s', hlive.map, hreaches⟩
    | false =>
      obtain ⟨order, ho, -⟩ := hs.indexed
      have hreaches := reaches_erase hs hn he ho ([.requests] ++ [.expired])
      rw [← raise_raise] at hreaches
      have hdead : Carries (Cache.getLive e.key alive) s { result := none, freed := [e.value] }
          (((s.dropped order n).raise [.requests]).raise [.expired]).gauge := by
        refine hseek.bind ((carries_entry he).bind ?_)
        simp only [halive, Bool.false_eq_true, if_false]
        refine (hs.carries_extract hn he ho).bind ((carries_bump _ rfl).bind ?_)
        exact (carries_bump _ rfl).bind ((carries_gauge _).bind (.pure _ _))
      exact ⟨_, hdead.map, hreaches⟩
  · have hmiss : Carries (Cache.getLive key alive) s { result := none } (s.raise [.requests]) :=
      (carries_seek_absent hs hkey).bind (.pure _ _)
    simp only [CacheModel.getLive, CacheModel.value?_eq_none_iff.mpr hkey]
    exact ⟨_, hmiss.map, hs.reaches_raise _⟩

/-- A peek sees the value of the model. -/
theorem Settled.peek_eq (hs : s.Settled) {c : Cache κ α} (hc : s.Depicts c) (key : κ) :
    c.peek key = s.model.value? key := by
  rcases s.exists_node_or_not_mem key with ⟨n, hn, e, he, rfl⟩ | hkey
  · rw [Cache.peek, hs.node?_eq_some hn he hc, hs.value?_eq hn he, Option.bind_some, hc.entries, he]
    rfl
  · rw [Cache.peek, hs.node?_eq_none hkey hc, CacheModel.value?_eq_none_iff.mpr hkey]
    rfl

/-- A key is contained if the model has a value for it. -/
theorem Settled.contains_eq (hs : s.Settled) {c : Cache κ α} (hc : s.Depicts c) (key : κ) :
    c.contains key = (s.model.value? key).isSome := by
  rcases s.exists_node_or_not_mem key with ⟨n, hn, e, he, rfl⟩ | hkey
  · rw [Cache.contains, hs.node?_eq_some hn he hc, hs.value?_eq hn he]
    rfl
  · rw [Cache.contains, hs.node?_eq_none hkey hc, CacheModel.value?_eq_none_iff.mpr hkey]
    rfl

/-- The generation of a key is that of the model. -/
theorem Settled.generationOf_eq (hs : s.Settled) {c : Cache κ α} (hc : s.Depicts c) (key : κ) :
    c.generationOf key = s.model.generationOf key := by
  rcases s.exists_node_or_not_mem key with ⟨n, hn, e, he, rfl⟩ | hkey
  · rw [Cache.generationOf, hs.node?_eq_some hn he hc, Option.bind_some, hc.entries, he,
      CacheModel.generationOf]
    rcases List.mem_append.mp hn with hn | hn
    · rw [hs.itemOf_young hn he, Option.map_some, (hs.tags (g := .young) hn he).1]
      rfl
    · obtain ⟨hmissing, hfound⟩ := hs.itemOf_old hn he
      rw [CacheModel.itemOf_eq_none_iff.mpr hmissing, hfound, Option.map_some,
        (hs.tags (g := .old) hn he).1]
      rfl
  · have hmissing := hkey
    simp only [CacheModel.keys_append, List.mem_append, not_or] at hmissing
    rw [Cache.generationOf, hs.node?_eq_none hkey hc, CacheModel.generationOf,
      CacheModel.itemOf_eq_none_iff.mpr hmissing.1, CacheModel.itemOf_eq_none_iff.mpr hmissing.2]
    rfl

/-- A new key is allocated and indexed, and then enters young. -/
theorem carries_put_absent (hs : s.Settled) (hloose : s.Loose s.unused)
    (ho : s.order = some order) (hkey : key ∉ CacheModel.keys (s.model.young ++ s.model.old))
    (value : α) {freed : List α}
    (henter : Carries (Cache.enterYoung s.unused) (s.admitted order (s.newEntry key value)) freed
      s') :
    Carries (Cache.put key value) s { result := none, freed } (s'.raise [.insertions]).gauge := by
  obtain ⟨order', ho', hperm⟩ := hs.indexed
  obtain rfl : order = order' := Option.some.inj (ho.symm.trans ho')
  have hout : s.unused ∉ order := fun hmem => loose_iff.mp hloose (hperm.mem_iff.mp hmem)
  let allocated : Sketch κ α :=
    { s.write s.unused (some (s.newEntry key value)) with unused := s.unused + 1 }
  have henrol : Carries (Cache.enrol s.unused) allocated true
      (s.admitted order (s.newEntry key value)) := by
    refine carries_enrol ho hout (if_pos rfl) fun m hm d hd _ hdk => hkey ?_
    have hentry : s.entries m = some d := (if_neg (ne_of_mem_of_not_mem hm hout)).symm.trans hd
    have hkeys := mem_keys_items.mpr ⟨m, hperm.mem_iff.mp hm, d, hentry, hdk⟩
    rwa [items_append] at hkeys
  refine .read (fun c hc => by rw [hs.node?_eq_none hkey hc, hc.hasher]) ?_
  refine (carries_allocate s (s.newEntry key value)).bind (henrol.bind (henter.bind ?_))
  exact (carries_bump _ rfl).bind ((carries_gauge _).bind (.pure _ _))

/-- A put of a new key with room in young. -/
theorem carries_insert_room (hs : s.Settled) (hloose : s.Loose s.unused)
    (hkey : key ∉ CacheModel.keys (s.model.young ++ s.model.old)) (value : α)
    (hroom : s.young.length < s.slots .young) :
    ∃ s', Carries (Cache.put key value) s { result := none } s' ∧
      s.Reaches [.insertions] { s.model with young := { key, value } :: s.model.young } s' := by
  obtain ⟨order, ho, hperm⟩ := hs.indexed
  have hsound := hs.sound.insert hkey value
  rw [CacheModel.insert_room (by rwa [← hs.young_length] at hroom)] at hsound
  have henter := carries_enterYoung_room (s := s.admitted order (s.newEntry key value)) hloose
    (if_pos rfl) hroom
  refine ⟨_, carries_put_absent hs hloose ho hkey value henter, ?_⟩
  have helse : ∀ m, m ≠ s.unused →
      (s.admitted order (s.newEntry key value)).entries m = s.entries m := fun m hm => if_neg hm
  refine reaches_insert hs hloose (s.newEntry key value) rfl rfl rfl hsound (.refl _) rfl rfl rfl
    (hperm.cons _) (if_pos rfl) ?_ ?_ ?_ ?_ rfl rfl rfl
  · intro m hm
    refine helse m ?_
    rintro rfl
    exact loose_iff.mp hloose hm
  · intro m hm
    exact (helse m (List.ne_of_not_mem_cons hm.1)).trans
      (hs.spare m ⟨List.not_mem_of_not_mem_cons hm.1, hm.2⟩)
  · simp [admitted]
  · simp [admitted]

/-- A put of a new key with young full frees the value of the last young node. -/
theorem carries_insert_full (hs : s.Settled) (hloose : s.Loose s.unused)
    (hkey : key ∉ CacheModel.keys (s.model.young ++ s.model.old)) (value : α)
    (hfull : s.slots .young ≤ s.young.length) (hns : s.young = ns ++ [o])
    (hd : s.entries o = some d) :
    ∃ s', Carries (Cache.put key value) s { result := none, freed := [d.value] } s' ∧
      s.Reaches [.evictions, .insertions]
        { s.model with young := { key, value } :: s.items ns } s' := by
  obtain ⟨order, ho, hperm⟩ := hs.indexed
  obtain ⟨hyoung, -, hdisjoint⟩ := List.nodup_append.mp hs.nodup
  have hlast : s.model.young = s.items ns ++ [d.item] := by
    rw [model, hns, items_concat hd]
  have hsound := hs.sound.insert hkey value
  rw [CacheModel.insert_full (by rwa [← hs.young_length] at hfull) hlast] at hsound
  have homem : o ∈ s.young := hns ▸ List.mem_append_right ns (List.mem_singleton_self o)
  have hou : o ≠ s.unused := ne_of_mem_of_not_mem homem hloose.1
  have hons : o ∉ ns := by
    rw [hns] at hyoung
    exact fun h => (List.nodup_append.mp hyoung).2.2 o h o (List.mem_singleton_self o) rfl
  have hnodup : (s.unused :: order).Nodup := by
    refine List.nodup_cons.mpr ⟨fun hmem => ?_, hperm.nodup_iff.mpr hs.nodup⟩
    exact loose_iff.mp hloose (hperm.mem_iff.mp hmem)
  have henter := carries_enterYoung_full (s := s.admitted order (s.newEntry key value)) hloose
    (if_pos rfl) hns hfull rfl
    (List.mem_cons_of_mem _ (hperm.mem_iff.mpr (List.mem_append_left _ homem))) hnodup
    (List.not_mem_cons_of_ne_of_not_mem hou hons) (fun h => hdisjoint o homem o h rfl)
    ((if_neg hou).trans hd)
  refine ⟨_, carries_put_absent hs hloose ho hkey value henter, ?_⟩
  have hleft : ((s.unused :: order).erase o).Perm (s.unused :: ns ++ s.old) := by
    have hmoved : (s.unused :: order).Perm (o :: (s.unused :: ns ++ s.old)) := by
      refine (hperm.cons s.unused).trans ?_
      rw [hns, List.append_assoc]
      exact (List.perm_middle.cons _).trans (.swap _ _ _)
    refine (hmoved.erase o).trans (.of_eq ?_)
    rw [List.erase_cons_head]
  have hcounts := congrArg counts (raise_raise s [.evictions] [.insertions])
  refine reaches_insert hs hloose (s.newEntry key value) rfl rfl rfl hsound
    (hns ▸ List.sublist_append_left ns [o]) rfl rfl rfl hleft
    ((if_neg hou.symm).trans (if_pos rfl)) ?_ ?_ ?_ ?_ hcounts rfl rfl
  · intro m hm
    refine (if_neg ?_).trans (if_neg ?_)
    · rintro rfl
      exact (List.mem_append.mp hm).elim hons (hdisjoint m homem m · rfl)
    · rintro rfl
      refine (List.mem_append.mp hm).elim (fun hm => hloose.1 ?_) hloose.2
      exact hns ▸ List.mem_append_left [o] hm
  · intro m hm
    by_cases hmo : m = o
    · exact if_pos hmo
    · refine (if_neg hmo).trans ((if_neg (List.ne_of_not_mem_cons hm.1)).trans
        (hs.spare m ⟨fun hmy => ?_, hm.2⟩))
      rw [hns] at hmy
      rcases List.mem_append.mp hmy with hmy | hmy
      · exact List.not_mem_of_not_mem_cons hm.1 hmy
      · exact hmo (List.mem_singleton.mp hmy)
  · simp [admitted]
  · simp [admitted]

/-- A put overwrites the value of its key, or inserts the key and frees what overflows. -/
theorem carries_put (hs : s.Settled) (hloose : s.Loose s.unused) (key : κ) (value : α) :
    ∃ s', Carries (Outcome.map .value <$> Cache.put key value) s
        (s.model.put key value).outcome s' ∧
      s.Reaches (s.model.put key value).raised (s.model.put key value).next s' := by
  rcases s.exists_node_or_not_mem key with ⟨n, hn, e, he, rfl⟩ | hkey
  · simp only [CacheModel.put, hs.value?_eq hn he]
    have hentry : Carries (Cache.entry n) (s.raise [.updates]) e _ := carries_entry he
    have hstore : Carries (Cache.store n { e with value }) (s.raise [.updates]) () _ :=
      carries_store he rfl rfl
    have hput : Carries (Cache.put e.key value) s { result := some e.value }
        ((s.raise [.updates]).write n (some { e with value })) := by
      refine .read (fun c hc => by rw [hs.node?_eq_some hn he hc]) ?_
      exact (carries_bump _ rfl).bind (hentry.bind (hstore.bind (.pure _ _)))
    exact ⟨_, hput.map, (hs.reaches_raise [.updates]).write hn he rfl fun _ => value⟩
  · simp only [CacheModel.put, CacheModel.value?_eq_none_iff.mpr hkey]
    by_cases hroom : s.young.length < s.slots .young
    · obtain ⟨s', hput, hreaches⟩ := carries_insert_room hs hloose hkey value hroom
      rw [CacheModel.insert_room (by rwa [← hs.young_length] at hroom)]
      exact ⟨s', hput.map, hreaches⟩
    · have hfull := Nat.le_of_not_lt hroom
      obtain ⟨ns, o, hns⟩ := CacheModel.exists_last s.config.youngCapacity.pos hfull
      have homem : o ∈ s.young := hns ▸ List.mem_append_right ns (List.mem_singleton_self o)
      obtain ⟨d, hd, -⟩ := hs.filed .young o homem
      obtain ⟨s', hput, hreaches⟩ := carries_insert_full hs hloose hkey value hfull hns hd
      have hlast : s.model.young = s.items ns ++ [d.item] := by
        rw [model, hns, items_concat hd]
      rw [CacheModel.insert_full (by rwa [← hs.young_length] at hfull) hlast]
      exact ⟨s', hput.map, hreaches⟩

/-- Every call leads to a settled sketch, with the outcome and the counters of the rules. -/
theorem carries_perform (hs : s.Settled) (hloose : s.Loose s.unused) (op : Operation κ α) :
    ∃ s', Carries (Cache.perform op) s (s.model.step op).outcome s' ∧
      s.Reaches (s.model.step op).raised (s.model.step op).next s' := by
  cases op with
  | get key =>
    obtain ⟨s', hget, hreaches⟩ := carries_get hs key
    exact ⟨s', hget.map, hreaches⟩
  | update key f =>
    obtain ⟨s', hupdate, hreaches⟩ := carries_update hs key f
    exact ⟨s', hupdate.map, hreaches⟩
  | getLive key alive => exact carries_getLive hs key alive
  | peek key =>
    refine ⟨s, .read (fun c hc => ?_) (.pure _ _), hs.reaches_refl⟩
    rw [hs.peek_eq hc]
    rfl
  | contains key =>
    refine ⟨s, .read (fun c hc => ?_) (.pure _ _), hs.reaches_refl⟩
    rw [hs.contains_eq hc]
    rfl
  | generationOf key =>
    refine ⟨s, .read (fun c hc => ?_) (.pure _ _), hs.reaches_refl⟩
    rw [hs.generationOf_eq hc]
    rfl
  | put key value => exact carries_put hs hloose key value
  | set key value =>
    cases value with
    | some value => exact carries_put hs hloose key value
    | none => exact carries_remove hs key
  | remove key => exact carries_remove hs key
  | clear =>
    have hclear := carries_clear hs.nodup hs.filled
    rw [ending_eq] at hclear
    exact ⟨_, hclear.map, reaches_clear hs⟩

end Sketch

end CachePool
