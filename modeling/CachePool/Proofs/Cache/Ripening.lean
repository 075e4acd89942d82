import Mathlib.Algebra.GroupWithZero.Nat
import CachePool.Proofs.Cache.Accounts
import CachePool.Proofs.Cache.RecencyOrder

/-!
# Promotion at the threshold

A young item counts its hits from the call that brought it into young, by an insertion
or a demotion, and it goes to old with the hit that fills the count up to the threshold.
So every young hit is in the count of a young item, in that of an item that left the
cache from young, or it is one of the hits, as many as the threshold asks, that led to a
promotion.
-/

namespace CachePool

open Metrics

namespace CacheModel

variable {κ α : Type} {m next : CacheModel κ α} {items as bs : List (Item κ α)}
  {i j item : Item κ α} {inserted hit : Option κ} {raised : List Counter} {key : κ} {v : α}

/-- The hits that items counted together. -/
def heat (items : List (Item κ α)) : Nat := (items.map (·.hits)).sum

@[simp] theorem heat_nil : heat ([] : List (Item κ α)) = 0 := rfl

@[simp] theorem heat_cons (i : Item κ α) (items : List (Item κ α)) :
    heat (i :: items) = i.hits + heat items := by
  simp [heat]

@[simp] theorem heat_append (as bs : List (Item κ α)) : heat (as ++ bs) = heat as + heat bs := by
  simp [heat]

theorem heat_perm (h : as.Perm bs) : heat as = heat bs := (h.map _).sum_nat

/-- Every young item was hit less often than the threshold asks. -/
def Unripe (m : CacheModel κ α) : Prop := ∀ i ∈ m.young, i.hits < m.threshold

/-- An item with the key of a young one is that one, where it is young itself. -/
theorem Sound.young_inj (h : m.Sound) (hi : i ∈ m.young) (hj : j ∈ m.young)
    (hkey : i.key = j.key) : i = j := by
  have hdistinct := h.distinct
  rw [keys_append] at hdistinct
  exact List.inj_on_of_nodup_map hdistinct.of_append_left hi hj hkey

variable [DecidableEq κ]

@[simp] theorem heat_revise (items : List (Item κ α)) (key : κ) (f : α → α) :
    heat (revise items key f) = heat items := by
  rw [heat, revise, List.map_map, heat]
  congr 1
  apply List.map_congr_left
  intro i _
  simp only [Function.comp]
  split <;> rfl

/-- A revised item has the key and the count of one that was there. -/
theorem exists_of_mem_revise {f : α → α} (hi : i ∈ revise items key f) :
    ∃ j ∈ items, j.key = i.key ∧ j.hits = i.hits := by
  obtain ⟨j, hj, rfl⟩ := List.mem_map.mp hi
  refine ⟨j, hj, ?_⟩
  split <;> exact ⟨rfl, rfl⟩

/-- What a call does to the counts: an item is brought into young with none, a hit in young is
counted below the threshold, and the hit that reaches it promotes. No hit is forgotten. -/
structure Ripens (m : CacheModel κ α) (inserted hit : Option κ) (raised : List Counter)
    (next : CacheModel κ α) : Prop where
  threshold : next.threshold = m.threshold
  young : ∀ i ∈ next.young,
    (inserted = some i.key ∨ i.key ∈ keys m.old) ∧ i.hits = 0 ∨
    ∃ j ∈ m.young, j.key = i.key ∧ i.hits = j.hits + (if hit = some i.key then 1 else 0) ∧
      i.hits < m.threshold
  promoted : ∀ j ∈ m.young, j.key ∈ keys next.old ↔ hit = some j.key ∧ j.hits + 1 = m.threshold
  heat : heat m.young + raised.count .youngHits =
    heat next.young + m.threshold * raised.count .promotions + CacheModel.heat (lost next m.young)

/-- The counts are below the threshold after the call, too. -/
theorem Ripens.unripe (h : m.Ripens inserted hit raised next) (hpos : 0 < m.threshold) :
    next.Unripe := by
  intro i hi
  rw [h.threshold]
  rcases h.young i hi with ⟨-, hzero⟩ | ⟨j, -, -, -, hlt⟩
  · rwa [hzero]
  · exact hlt

/-- A call without a hit that only takes items out of young, and brings none to old. -/
theorem ripens_of_sublist (h : m.Sound) (hm : m.Unripe) (hthreshold : next.threshold = m.threshold)
    (hyoung : next.young.Sublist m.young) (hold : (keys next.old).Sublist (keys m.old))
    (hperm : m.young.Perm (lost next m.young ++ next.young))
    (hhits : raised.count .youngHits = 0) (hpromotions : raised.count .promotions = 0) :
    m.Ripens none none raised next := by
  constructor
  case threshold => exact hthreshold
  case young =>
    intro i hi
    have hmem := hyoung.mem hi
    exact Or.inr ⟨i, hmem, rfl, by simp, hm i hmem⟩
  case promoted =>
    intro j hj
    have hout := h.not_mem_old (mem_keys_of_mem hj)
    exact iff_of_false (fun hmem => hout (hold.mem hmem)) (by simp)
  case heat =>
    have hheat := heat_perm hperm
    rw [heat_append] at hheat
    rw [hhits, hpromotions]
    omega

/-- A call that leaves the items alone. -/
theorem ripens_quiet (h : m.Sound) (hm : m.Unripe) (hhits : raised.count .youngHits = 0)
    (hpromotions : raised.count .promotions = 0) : m.Ripens none none raised m := by
  apply ripens_of_sublist h hm rfl (.refl _) (.refl _) _ hhits hpromotions
  rw [(Keeps.refl m).lost_young, List.nil_append]

/-- A write counts nothing. -/
theorem Ripens.write (h : m.Ripens inserted hit raised next) (key : κ) (f : α → α) :
    m.Ripens inserted hit raised (next.write key f) := by
  have hlost : lost (next.write key f) m.young = lost next m.young := by
    apply List.filter_congr
    intro i _
    rw [value?_write]
    split <;> simp
  constructor
  case threshold => exact h.threshold
  case young =>
    intro i hi
    obtain ⟨j, hj, hkey, hhits⟩ := exists_of_mem_revise hi
    rw [← hkey, ← hhits]
    exact h.young j hj
  case promoted =>
    intro j hj
    rw [CacheModel.write, keys_revise]
    exact h.promoted j hj
  case heat =>
    rw [hlost, CacheModel.write, heat_revise]
    exact h.heat

/-- An item that stays in young beside the one that is hit keeps its count. -/
theorem Unripe.stays (hm : m.Unripe) (h : m.Sound) (hi : i ∈ without m.young key) :
    ∃ j ∈ m.young, j.key = i.key ∧
      i.hits = j.hits + (if some key = some i.key then 1 else 0) ∧ i.hits < m.threshold := by
  have hdistinct := h.distinct
  rw [keys_append] at hdistinct
  obtain ⟨hmem, hne⟩ := mem_without hdistinct.of_append_left hi
  refine ⟨i, hmem, rfl, ?_, hm i hmem⟩
  rw [if_neg fun heq => hne (Option.some.inj heq).symm, Nat.add_zero]

/-- A hit below the threshold is counted. -/
theorem ripens_count (h : m.Sound) (hm : m.Unripe) (hitem : itemOf m.young key = some item)
    (hlt : item.hits + 1 < m.threshold) :
    m.Ripens none (some key) (m.hit key).1 (m.hit key).2 := by
  have hlost := (keeps_hit h key).lost_young
  have hheat := heat_perm (perm_without hitem)
  rw [hit_young hitem hlt] at hlost ⊢
  obtain ⟨hmem, rfl⟩ := itemOf_some hitem
  constructor
  case threshold => rfl
  case young =>
    intro i hi
    rcases List.mem_cons.mp hi with rfl | hi
    · exact Or.inr ⟨item, hmem, rfl, by simp, hlt⟩
    · exact Or.inr (hm.stays h hi)
  case promoted =>
    intro j hj
    refine iff_of_false (h.not_mem_old (mem_keys_of_mem hj)) ?_
    rintro ⟨hkey, hripe⟩
    obtain rfl := h.young_inj hmem hj (Option.some.inj hkey)
    omega
  case heat =>
    rw [heat_cons] at hheat
    simp [hlost]
    omega

/-- A hit that reaches the threshold promotes its item. What is demoted for it counts from zero. -/
theorem ripens_promote {demoted : List (Item κ α)} {rest : List κ} (h : m.Sound) (hm : m.Unripe)
    (hitem : itemOf m.young key = some item) (hle : m.threshold ≤ item.hits + 1)
    (hthreshold : next.threshold = m.threshold)
    (hyoung : next.young = demoted ++ without m.young key)
    (hdemoted : ∀ i ∈ demoted, i.key ∈ keys m.old ∧ i.hits = 0) (hcool : heat demoted = 0)
    (hold : keys next.old = key :: rest) (hrest : rest.Sublist (keys m.old))
    (hlost : lost next m.young = []) (hhits : raised.count .youngHits = 1)
    (hpromotions : raised.count .promotions = 1) : m.Ripens none (some key) raised next := by
  have hheat := heat_perm (perm_without hitem)
  obtain ⟨hmem, rfl⟩ := itemOf_some hitem
  have hripe : item.hits + 1 = m.threshold := Nat.le_antisymm (hm item hmem) hle
  constructor
  case threshold => exact hthreshold
  case young =>
    intro i hi
    rw [hyoung, List.mem_append] at hi
    rcases hi with hi | hi
    · obtain ⟨hkey, hzero⟩ := hdemoted i hi
      exact Or.inl ⟨Or.inr hkey, hzero⟩
    · exact Or.inr (hm.stays h hi)
  case promoted =>
    intro j hj
    rw [hold, List.mem_cons]
    constructor
    · rintro (hkey | hkey)
      · obtain rfl := h.young_inj hj hmem hkey
        exact ⟨rfl, hripe⟩
      · exact (h.not_mem_old (mem_keys_of_mem hj) (hrest.mem hkey)).elim
    · rintro ⟨hkey, -⟩
      exact Or.inl (Option.some.inj hkey).symm
  case heat =>
    rw [heat_cons] at hheat
    rw [hyoung, heat_append, hcool, hlost, heat_nil, hhits, hpromotions]
    omega

/-- A hit in old leaves young alone. -/
theorem ripens_refresh (h : m.Sound) (hm : m.Unripe) (hyoung : key ∉ keys m.young)
    (hitem : itemOf m.old key = some item) :
    m.Ripens none (some key) (m.hit key).1 (m.hit key).2 := by
  have hlost := (keeps_hit h key).lost_young
  have hkeys := keys_perm (perm_without hitem)
  have hne : ∀ i ∈ m.young, ¬ some key = some i.key := by
    intro i hi hkey
    exact hyoung (Option.some.inj hkey ▸ mem_keys_of_mem hi)
  rw [hit_old hyoung hitem] at hlost ⊢
  constructor
  case threshold => rfl
  case young =>
    intro i hi
    refine Or.inr ⟨i, hi, rfl, ?_, hm i hi⟩
    rw [if_neg (hne i hi), Nat.add_zero]
  case promoted =>
    intro j hj
    refine iff_of_false ?_ fun hhit => hne j hj hhit.1
    intro hmem
    exact h.not_mem_old (mem_keys_of_mem hj) (hkeys.mem_iff.mpr hmem)
  case heat => simp [hlost]

/-- A hit counts, or promotes its item if it reaches the threshold. -/
theorem ripens_hit (h : m.Sound) (hm : m.Unripe) (key : κ) :
    m.Ripens none (if (m.value? key).isSome then some key else none) (m.hit key).1
      (m.hit key).2 := by
  have hlost := (keeps_hit h key).lost_young
  by_cases hcached : key ∈ keys (m.young ++ m.old)
  · rw [if_pos (value?_isSome_iff.mpr hcached)]
    rcases h.hit_cases key with ⟨item, hitem, hlt, -⟩ | ⟨item, hitem, hle, heq⟩ |
      ⟨item, as, o, hitem, hle, ho, heq⟩ | ⟨item, hyoung, hitem, -⟩ | ⟨hout, -⟩
    · exact ripens_count h hm hitem hlt
    · obtain ⟨-, rfl⟩ := itemOf_some hitem
      rw [heq] at hlost ⊢
      exact ripens_promote h hm hitem hle rfl (List.nil_append _).symm (by simp) rfl rfl (.refl _)
        hlost (by simp) (by simp)
    · obtain ⟨-, rfl⟩ := itemOf_some hitem
      have hsub : (keys as).Sublist (keys m.old) := by
        rw [ho, keys_append]
        exact List.sublist_append_left _ _
      have hmem : o.key ∈ keys m.old := mem_keys_of_mem (by simp [ho])
      rw [heq] at hlost ⊢
      exact ripens_promote h hm hitem hle rfl (List.singleton_append).symm (by simp [hmem]) rfl rfl
        hsub hlost (by simp) (by simp)
    · exact ripens_refresh h hm (itemOf_eq_none_iff.mp hyoung) hitem
    · exact (hout hcached).elim
  · rw [if_neg fun hsome => hcached (value?_isSome_iff.mp hsome), hit_absent hcached]
    exact ripens_quiet h hm (by simp) (by simp)

/-- A key that is taken out takes its count along. -/
theorem ripens_erase (h : m.Sound) (hm : m.Unripe) (hv : m.value? key = some v)
    (hhits : raised.count .youngHits = 0) (hpromotions : raised.count .promotions = 0) :
    m.Ripens none none raised (m.erase key) :=
  ripens_of_sublist h hm rfl (without_sublist _ key) ((without_sublist _ key).map _)
    (perm_lost_erase_young h hv) hhits hpromotions

theorem ripens_remove (h : m.Sound) (hm : m.Unripe) (key : κ) :
    m.Ripens none none (m.remove key).raised (m.remove key).next := by
  cases hv : m.value? key with
  | some before =>
    rw [remove_known hv]
    exact ripens_erase h hm hv (by simp) (by simp)
  | none =>
    rw [remove_absent hv]
    exact ripens_quiet h hm rfl rfl

/-- A new key comes to young with no hits, and what it displaces takes its count along. -/
theorem ripens_insert (h : m.Sound) (hm : m.Unripe) (hkey : m.value? key = none) (value : α) :
    m.Ripens (some key) none (m.insert key value).raised (m.insert key value).next := by
  have hheat := heat_perm (perm_lost_insert_young h hkey value)
  have hentered : ∀ as, as.Sublist m.young →
      ∀ i ∈ ({ key, value } : Item κ α) :: as,
        (some key = some i.key ∨ i.key ∈ keys m.old) ∧ i.hits = 0 ∨
        ∃ j ∈ m.young, j.key = i.key ∧
          i.hits = j.hits + (if none = some i.key then 1 else 0) ∧ i.hits < m.threshold := by
    intro as hsub i hi
    rcases List.mem_cons.mp hi with rfl | hi
    · exact Or.inl ⟨Or.inl rfl, rfl⟩
    · have hmem := hsub.mem hi
      exact Or.inr ⟨i, hmem, rfl, by simp, hm i hmem⟩
  have hstays : ∀ j ∈ m.young, j.key ∈ keys m.old ↔
      none = some j.key ∧ j.hits + 1 = m.threshold :=
    fun j hj => iff_of_false (h.not_mem_old (mem_keys_of_mem hj)) (by simp)
  rw [heat_append, heat_cons] at hheat
  by_cases hlt : m.young.length < m.youngCapacity
  · rw [insert_room hlt] at hheat ⊢
    refine ⟨rfl, hentered _ (.refl _), hstays, ?_⟩
    simp at hheat ⊢
    omega
  · have hfull := Nat.le_of_not_lt hlt
    obtain ⟨as, o, hy⟩ := exists_last h.youngRoom hfull
    rw [insert_full hfull hy] at hheat ⊢
    refine ⟨rfl, hentered _ (hy ▸ List.sublist_append_left as [o]), hstays, ?_⟩
    simp at hheat ⊢
    omega

theorem ripens_put (h : m.Sound) (hm : m.Unripe) (key : κ) (value : α) :
    m.Ripens ((some key).filter fun key => (m.value? key).isNone) none (m.put key value).raised
      (m.put key value).next := by
  cases hv : m.value? key with
  | some before =>
    rw [put_known hv, Option.filter_some_neg (by simp [hv])]
    exact (ripens_quiet h hm (by simp) (by simp)).write key _
  | none =>
    rw [put_new hv, Option.filter_some_pos (by simp [hv])]
    exact ripens_insert h hm hv value

/-- Every call counts what it hits in young, and promotes at the threshold. -/
theorem ripens_step (h : m.Sound) (hm : m.Unripe) (op : Operation κ α) :
    m.Ripens (op.insertKey m.value?) (op.hitKey m.value?) (m.step op).raised (m.step op).next := by
  cases op with
  | get key => exact ripens_hit h hm key
  | update key f => exact (ripens_hit h hm key).write key f
  | getLive key alive =>
    rw [CacheModel.step, Operation.hitKey]
    rcases m.getLive_cases key alive with
      ⟨hv, heq⟩ | ⟨value, hv, halive, heq⟩ | ⟨value, hv, hgone, heq⟩
    · rw [heq, hv]
      exact ripens_quiet h hm (by simp) (by simp)
    · have hhit := ripens_hit h hm key
      rw [hv, Option.isSome_some, if_pos rfl] at hhit
      rwa [heq, hv, Option.any_some, halive, if_pos rfl]
    · rw [heq, hv, Option.any_some, hgone, if_neg Bool.false_ne_true]
      exact ripens_erase h hm hv (by simp) (by simp)
  | peek key => exact ripens_quiet h hm rfl rfl
  | contains key => exact ripens_quiet h hm rfl rfl
  | generationOf key => exact ripens_quiet h hm rfl rfl
  | put key value => exact ripens_put h hm key value
  | set key value =>
    cases value with
    | some value => exact ripens_put h hm key value
    | none => exact ripens_remove h hm key
  | remove key => exact ripens_remove h hm key
  | clear =>
    have hlost : lost (m.step .clear).next m.young = m.young :=
      List.filter_eq_self.mpr fun _ _ => rfl
    have hperm : m.young.Perm (lost (m.step .clear).next m.young ++ []) := by
      rw [hlost, List.append_nil]
    exact ripens_of_sublist h hm rfl (List.nil_sublist _) (List.nil_sublist _) hperm rfl rfl

end CacheModel

namespace Cache

variable {κ α : Type} {start c c' : Cache κ α} {m : CacheModel κ α} {op : Operation κ α}
  {o : Outcome (Answer α) α} {past : List (Operation κ α)} {key : κ} {value : α} {n : NodeId}
  {g : Generation} {e : Entry κ α}

/-- Between two calls, the entries of a generation are tagged with it. -/
theorem Shows.generation_eq (h : c.Shows m) (he : e ∈ c.contents g) : e.generation = g := by
  obtain ⟨s, hc, hs, -⟩ := h
  rw [hc.contents_eq, List.mem_filterMap] at he
  obtain ⟨n, hn, hentry⟩ := he
  exact (hs.tags hn hentry).1

/-- The hits that entries counted together. -/
def hitSum (entries : List (Entry κ α)) : Nat := (entries.map fun e => e.hits.toNat).sum

/-- The hits of young entries are those of their items. -/
theorem hitSum_eq {entries : List (Entry κ α)} (h : ∀ e ∈ entries, e.generation = .young) :
    hitSum entries = CacheModel.heat (entries.map Entry.item) := by
  rw [hitSum, CacheModel.heat, List.map_map]
  congr 1
  apply List.map_congr_left
  intro e he
  simp [Entry.item, h e he]

variable [DecidableEq κ]

/-- To put a key that is there replaces the value at its node, and counts an update. -/
theorem put_known {o : Outcome (Option α) α} (hn : c.node? key = some n)
    (ho : put key value c = .ok o c') :
    ∃ e metrics, c.entries.get n = some e ∧
      c' = { c with metrics, entries := c.entries.set n (some { e with value }) } := by
  simp only [put, Action.get_bind, hn] at ho
  cases hbump : CacheMetrics.bump .updates c.metrics with
  | error fault metrics =>
    have htally : tally (CacheMetrics.bump .updates) c = .error fault { c with metrics } :=
      Action.within_error hbump
    rw [Action.bind_error htally] at ho
    cases ho
  | ok answer metrics =>
    have htally : tally (CacheMetrics.bump .updates) c = .ok answer { c with metrics } :=
      Action.within_ok hbump
    rw [Action.bind_ok htally] at ho
    cases he : c.entries.get n with
    | none =>
      have hentry : entry n { c with metrics } = .error .entryFreed { c with metrics } := by
        rw [entry, he]
      rw [Action.bind_error hentry] at ho
      cases ho
    | some e =>
      have hentry : entry n { c with metrics } = .ok e { c with metrics } := by
        rw [entry, he]
      rw [Action.bind_ok hentry] at ho
      cases ho
      exact ⟨e, metrics, rfl, rfl⟩

/-- To give a key that is there a value leaves every entry in its place, with its hits. -/
theorem hits_of_overwrite (ho : (c.step op).1 = .ok o) (hassigns : op.assigns = some (key, value))
    (hcontains : c.contains key) (g : Generation) :
    ((c.step op).2.contents g).map (fun e => (e.key, e.hits)) =
      (c.contents g).map fun e => (e.key, e.hits) := by
  obtain ⟨n, hn⟩ := Option.isSome_iff_exists.mp hcontains
  have hperform : perform op c = (Outcome.map Answer.value <$> put key value) c := by
    cases op with
    | put _ _ => cases hassigns; rfl
    | set _ v =>
      cases v with
      | some _ => cases hassigns; rfl
      | none => cases hassigns
    | _ => cases hassigns
  rw [step, Action.attempt, hperform] at ho ⊢
  cases hput : put key value c with
  | error fault c' =>
    rw [Action.map_error hput] at ho
    cases ho
  | ok answer c' =>
    rw [Action.map_ok hput]
    obtain ⟨e, metrics, he, rfl⟩ := put_known hn hput
    have hnodes : ({ c with
        metrics
        entries := c.entries.set n (some { e with value }) } : Cache κ α).generation g =
        c.generation g := by
      cases g <;> rfl
    simp only [contents, hnodes, List.map_filterMap]
    apply List.filterMap_congr
    intro k _
    rw [Table.get_set]
    by_cases hkn : k = n
    · rw [if_pos hkn, hkn, he]
      rfl
    · rw [if_neg hkn]

/-- The call brings the key into young: it inserts or demotes it. -/
def bringsYoung (key : κ) (c : Cache κ α) (op : Operation κ α) : Bool :=
  op.insertKey c.peek = some key || demotesKey key c op

/-- The number of calls of a history that are marked. -/
def countMarked (marked : Cache κ α → Operation κ α → Bool) (c : Cache κ α) :
    List (Operation κ α) → Nat
  | [] => 0
  | op :: rest => (if marked c op then 1 else 0) + countMarked marked (c.step op).2 rest

theorem countMarked_concat (marked : Cache κ α → Operation κ α → Bool) (c : Cache κ α)
    (past : List (Operation κ α)) (op : Operation κ α) :
    countMarked marked c (past ++ [op]) =
      countMarked marked c past + if marked (c.run past).2 op then 1 else 0 := by
  induction past generalizing c with
  | nil => exact (Nat.zero_add _).symm
  | cons first rest ih =>
    rw [List.cons_append, countMarked, ih, countMarked, Nat.add_assoc]
    rfl

/-- The hits on a key after the last call that brought it into young. -/
def hitsSinceEntry (start : Cache κ α) (past : List (Operation κ α)) (key : κ) : Nat :=
  let entry := lastMarked (bringsYoung key) start past
  countMarked (hitsKey key) (start.run (past.take entry)).2 (past.drop entry)

/-- One more call starts the count anew or adds its hit. -/
theorem hitsSinceEntry_concat (start : Cache κ α) (past : List (Operation κ α))
    (op : Operation κ α) (key : κ) :
    start.hitsSinceEntry (past ++ [op]) key =
      if bringsYoung key (start.run past).2 op then 0
      else start.hitsSinceEntry past key + if hitsKey key (start.run past).2 op then 1 else 0 := by
  simp only [hitsSinceEntry, lastMarked_concat]
  split
  · rw [List.drop_of_length_le (by simp)]
    rfl
  · have hle := lastMarked_le (bringsYoung key) start past
    have hrun := run_append start (past.take (lastMarked (bringsYoung key) start past))
      (past.drop (lastMarked (bringsYoung key) start past))
    rw [List.take_append_drop] at hrun
    rw [List.take_append_of_le_length hle, List.drop_append_of_le_length hle, countMarked_concat,
      hrun]

/-- What a call brings into young is seen on the models before and after it. -/
theorem Shows.bringsYoung_iff (h : c.Shows m) (hnext : (c.step op).2.Shows (m.step op).next) :
    c.bringsYoung key op ↔ op.insertKey m.value? = some key ∨
      key ∈ CacheModel.keys m.old ∧ key ∈ CacheModel.keys (m.step op).next.young := by
  rw [bringsYoung, Bool.or_eq_true, h.demotesKey_iff hnext, decide_eq_true_iff, h.lookup_eq]

/-- What leaves young in a call takes its hits along. -/
theorem Shows.hitSum_departures (h : c.Shows m) (hnext : (c.step op).2.Shows (m.step op).next) :
    hitSum (c.departures .young op) =
      CacheModel.heat (CacheModel.lost (m.step op).next m.young) := by
  have hyoung : ∀ e ∈ c.departures .young op, e.generation = .young :=
    fun e he => h.generation_eq (List.mem_of_mem_filter he)
  rw [hitSum_eq hyoung, hnext.map_departures, h.young_eq]

/-- The young items of a model counted the hits since the history brought them there, and with what
left young and what was promoted they account for every young hit. -/
structure Ripened (start : Cache κ α) (past : List (Operation κ α)) (m : CacheModel κ α) :
    Prop where
  threshold : m.threshold = start.config.promotionThreshold.toNat
  unripe : m.Unripe
  hits : ∀ i ∈ m.young, i.hits = start.hitsSinceEntry past i.key
  ledger : (start.run past).2.counted .youngHits =
    m.threshold * (start.run past).2.counted .promotions + CacheModel.heat m.young +
      hitSum (start.departed .young past)

/-- One more call that answers is accounted for. -/
theorem Ripened.concat (h : start.Ripened past m) (hm : (start.run past).2.Shows m)
    (ho : ((start.run past).2.step op).1 = .ok o) (hpos : 0 < m.threshold) :
    start.Ripened (past ++ [op]) (m.step op).next := by
  obtain ⟨-, hnext, -⟩ := hm.step ho
  have hcall := CacheModel.ripens_step hm.sound h.unripe op
  have hbrings : ∀ key, (start.run past).2.bringsYoung key op ↔ _ :=
    fun key => hm.bringsYoung_iff hnext
  constructor
  case threshold => rw [hcall.threshold, h.threshold]
  case unripe => exact hcall.unripe hpos
  case hits =>
    intro i hi
    have hyoung := CacheModel.mem_keys_of_mem hi
    rw [hitsSinceEntry_concat]
    rcases hcall.young i hi with ⟨hbrought, hzero⟩ | ⟨j, hj, hkey, hhits, -⟩
    · rw [hzero, if_pos ((hbrings i.key).mpr (hbrought.imp_right fun hold => ⟨hold, hyoung⟩))]
    · have hkept : ¬ (start.run past).2.bringsYoung i.key op := by
        rw [hbrings, ← hkey]
        rintro (hinsert | ⟨hold, -⟩)
        · exact CacheModel.key_ne_of_mem_young (Operation.eq_none_of_insertKey hinsert) hj rfl
        · exact hm.sound.not_mem_old (CacheModel.mem_keys_of_mem hj) hold
      rw [hhits, if_neg hkept, h.hits j hj, hkey, hitsKey, hm.lookup_eq]
      simp only [decide_eq_true_eq]
  case ledger =>
    have hbefore := h.ledger
    have hone := hcall.heat
    have hdeparted : hitSum (start.departed .young (past ++ [op])) =
        hitSum (start.departed .young past) +
          CacheModel.heat (CacheModel.lost (m.step op).next m.young) := by
      rw [departed_concat, ← hm.hitSum_departures hnext]
      simp [hitSum]
    rw [hm.counted_concat ho rfl, hm.counted_concat ho rfl, hdeparted, hcall.threshold, Nat.mul_add]
    omega

/-- A young entry has fewer hits than the threshold asks, all of them since it entered young, and
the one that makes up the threshold promotes it. Every young hit is accounted for. -/
structure PromotesAtThreshold (start : Cache κ α) (past : List (Operation κ α)) : Prop where
  unripe : ∀ e ∈ (start.run past).2.contents .young, e.hits < start.config.promotionThreshold
  /-- The hits of a young entry are those since it was inserted or demoted. -/
  hits : ∀ e ∈ (start.run past).2.contents .young,
    e.hits.toNat = start.hitsSinceEntry past e.key
  /-- To overwrite a key neither adds nor resets hits. -/
  overwritten : ∀ op o key value, ((start.run past).2.step op).1 = .ok o →
    op.assigns = some (key, value) → (start.run past).2.contains key →
    ∀ g, (((start.run past).2.step op).2.contents g).map (fun e => (e.key, e.hits)) =
      ((start.run past).2.contents g).map fun e => (e.key, e.hits)
  /-- A young entry is promoted by the hit that makes up the threshold, and by no other call. -/
  promoted : ∀ op o e, ((start.run past).2.step op).1 = .ok o →
    e ∈ (start.run past).2.contents .young →
    (((start.run past).2.step op).2.generationOf e.key = some .old ↔
      (start.run past).2.hitsKey e.key op ∧
        e.hits.toNat + 1 = start.config.promotionThreshold.toNat)
  /-- A young hit led to a promotion, or is counted by an entry that is young or left from there. -/
  ledger : (start.run past).2.counted .youngHits =
    start.config.promotionThreshold.toNat * (start.run past).2.counted .promotions +
      hitSum ((start.run past).2.contents .young) + hitSum (start.departed .young past)
  /-- What leaves young is pushed out by a new key, removed, found gone, or cleared. -/
  departures : ∀ op o e, ((start.run past).2.step op).1 = .ok o →
    e ∈ (start.run past).2.departures .young op →
    op.loses (start.run past).2.peek (start.run past).2.pushedOut e.key
  promotions_le : start.config.promotionThreshold.toNat * (start.run past).2.counted .promotions ≤
    (start.run past).2.counted .youngHits

/-- A cache that shows a ripened model promotes at the threshold. -/
theorem Ripened.promotesAtThreshold (h : start.Ripened past m)
    (hm : (start.run past).2.Shows m) : start.PromotesAtThreshold past := by
  have hitem : ∀ e ∈ (start.run past).2.contents .young,
      e.item ∈ m.young ∧ e.item.hits = e.hits.toNat := by
    intro e he
    refine ⟨hm.young_eq ▸ List.mem_map_of_mem he, ?_⟩
    simp [Entry.item, hm.generation_eq he]
  have hledger := h.ledger
  rw [← hm.young_eq, ← hitSum_eq fun e he => hm.generation_eq he, h.threshold] at hledger
  constructor
  case unripe =>
    intro e he
    obtain ⟨hmem, hhits⟩ := hitem e he
    have hlt := h.unripe _ hmem
    rwa [hhits, h.threshold, ← UInt32.lt_iff_toNat_lt] at hlt
  case hits =>
    intro e he
    obtain ⟨hmem, hhits⟩ := hitem e he
    rw [← hhits]
    exact h.hits _ hmem
  case overwritten =>
    intro op o key value ho hassigns hcontains
    exact hits_of_overwrite ho hassigns hcontains
  case promoted =>
    intro op o e ho he
    obtain ⟨-, hnext, -⟩ := hm.step ho
    obtain ⟨hmem, hhits⟩ := hitem e he
    have hcall := (CacheModel.ripens_step hm.sound h.unripe op).promoted _ hmem
    rw [hnext.generationOf_eq, CacheModel.generationOf_eq_old_iff hnext.sound, ← h.threshold,
      ← hhits, hitsKey, hm.lookup_eq, decide_eq_true_iff]
    exact hcall
  case ledger => exact hledger
  case departures =>
    intro op o e ho he
    obtain ⟨-, hnext, -⟩ := hm.step ho
    obtain ⟨hmem, hlost⟩ := List.mem_filter.mp he
    have hcached : m.value? e.key ≠ none := by
      have hmodel := (hitem e hmem).1
      exact Option.isSome_iff_ne_none.mp
        (CacheModel.value?_isSome_of_mem (List.mem_append_left _ hmodel))
    rw [hnext.contains_eq, Bool.not_eq_true', Option.isSome_eq_false_iff,
      Option.isNone_iff_eq_none] at hlost
    rw [hm.lookup_eq, hm.pushedOut_eq]
    exact (CacheModel.step_loses_iff hm.sound hcached op).mp hlost
  case promotions_le =>
    rw [hledger]
    omega

/-- Throughout every history, a cache with a positive threshold promotes at it. -/
theorem run_promotes_at_threshold (config : CacheConfig) (hasher : Hasher κ)
    (ops : List (Operation κ α)) (hpos : 0 < config.promotionThreshold) :
    Throughout config hasher ops (ofConfig config hasher : Cache κ α).PromotesAtThreshold := by
  refine throughout_of_answers (fun past hanswers => ?_) ops
  have hstart : (ofConfig config hasher : Cache κ α).Ripened [] (CacheModel.ofConfig config) :=
    ⟨rfl, by rintro i ⟨⟩, by rintro i ⟨⟩, rfl⟩
  have hthreshold : 0 < (ofConfig config hasher : Cache κ α).config.promotionThreshold.toNat :=
    UInt32.lt_iff_toNat_lt.mp hpos
  obtain ⟨m, hm, hripened⟩ := hanswers.induction
    (P := fun past m => (ofConfig config hasher : Cache κ α).Ripened past m) hstart
    fun past op o m hm ho hripened => hripened.concat hm ho (hripened.threshold ▸ hthreshold)
  exact hripened.promotesAtThreshold hm

/-- With a threshold of two, a key that is overwritten between two hits is promoted by the second. -/
theorem run_promotes_at_threshold_two :
    0 < (2 : UInt32) ∧
      (ofConfig { capacity := ⟨4, by decide, by decide⟩, promotionThreshold := 2 }
        (Hasher.constant 0) : Cache Nat Nat).PromotesAtThreshold
          [.put 1 10, .get 1, .put 1 11, .get 1] :=
  ⟨by decide, (run_promotes_at_threshold
    { capacity := ⟨4, by decide, by decide⟩, promotionThreshold := 2 } (Hasher.constant 0)
    [.put 1 10, .get 1, .put 1 11, .get 1] (by decide)).of_length (by decide)⟩

end Cache

end CachePool
