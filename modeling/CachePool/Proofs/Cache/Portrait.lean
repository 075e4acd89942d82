import CachePool.Proofs.Cache.Rules
import CachePool.Proofs.Cache.Steps

/-!
# The model that a cache shows

The entries of the two generations, in their order, are the items of a model. The
hits of an old entry are no part of it: the rules never ask for them. A sketch shows
the same model as the caches that it depicts, and what the rules do to items is
there a change of nodes and entries: the key of a node is taken out with the node,
and a value is revised where the node is.
-/

namespace CachePool

open Metrics

/-- The item that an entry stands for. -/
def Entry.item {κ α : Type} (e : Entry κ α) : Item κ α where
  key := e.key
  value := e.value
  hits := match e.generation with
    | .young => e.hits.toNat
    | .old => 0

/-- The model that a cache shows. -/
def Cache.model {κ α : Type} (c : Cache κ α) : CacheModel κ α where
  youngCapacity := c.young.capacity.val
  oldCapacity := c.old.capacity.val
  threshold := c.config.promotionThreshold.toNat
  young := (c.contents .young).map Entry.item
  old := (c.contents .old).map Entry.item

namespace Sketch

variable {κ α : Type} {s s' : Sketch κ α} {c : Cache κ α} {n m : NodeId} {d e : Entry κ α}
  {g : Generation} {ns order : List NodeId} {key : κ}

/-- The items of nodes, in their order. -/
def items (s : Sketch κ α) (ns : List NodeId) : List (Item κ α) :=
  ns.filterMap fun n => (s.entries n).map Entry.item

/-- The model that a sketch shows. -/
def model (s : Sketch κ α) : CacheModel κ α where
  youngCapacity := s.slots .young
  oldCapacity := s.slots .old
  threshold := s.config.promotionThreshold.toNat
  young := s.items s.young
  old := s.items s.old

/-- The entries of a generation of a cache are those of its sequence. -/
theorem Depicts.contents_eq (hc : s.Depicts c) (g : Generation) :
    c.contents g = (s.side g).filterMap s.entries := by
  rw [Cache.contents, (hc.holds g).nodes_eq, hc.entries]

/-- A cache shows the model of its sketch. -/
theorem Depicts.model_eq (hc : s.Depicts c) : c.model = s.model := by
  have hyoung : c.young.capacity.val = s.slots .young := hc.capacity .young
  have hold : c.old.capacity.val = s.slots .old := hc.capacity .old
  rw [Cache.model, hyoung, hold, hc.config, hc.contents_eq, hc.contents_eq, List.map_filterMap,
    List.map_filterMap]
  rfl

theorem items_cons (he : s.entries n = some e) (ns : List NodeId) :
    s.items (n :: ns) = e.item :: s.items ns := by
  rw [items, List.filterMap_cons, he]
  rfl

theorem items_append (s : Sketch κ α) (as bs : List NodeId) :
    s.items (as ++ bs) = s.items as ++ s.items bs := List.filterMap_append

theorem items_concat (he : s.entries n = some e) (ns : List NodeId) :
    s.items (ns ++ [n]) = s.items ns ++ [e.item] := by
  rw [items_append, items_cons he]
  rfl

/-- Items depend on the entries of their own nodes only. -/
theorem items_congr (h : ∀ m ∈ ns, s'.entries m = s.entries m) : s'.items ns = s.items ns :=
  List.filterMap_congr fun m hm => by rw [h m hm]

/-- There is an item for each node that has an entry. -/
theorem items_length (h : ∀ m ∈ ns, ∃ e, s.entries m = some e) :
    (s.items ns).length = ns.length := by
  induction ns with
  | nil => rfl
  | cons n ns ih =>
    obtain ⟨e, he⟩ := h n List.mem_cons_self
    rw [items_cons he, List.length_cons, List.length_cons,
      ih fun m hm => h m (List.mem_cons_of_mem n hm)]

/-- A node with an entry has its item among those of its list. -/
theorem mem_items (he : s.entries n = some e) (hn : n ∈ ns) : e.item ∈ s.items ns :=
  List.mem_filterMap.mpr ⟨n, hn, by rw [he, Option.map_some]⟩

/-- A key occurs if the entry of a node carries it. -/
theorem mem_keys_items : key ∈ CacheModel.keys (s.items ns) ↔
    ∃ n ∈ ns, ∃ e, s.entries n = some e ∧ e.key = key := by
  constructor
  · intro h
    obtain ⟨i, hi, rfl⟩ := List.mem_map.mp h
    obtain ⟨n, hn, hitem⟩ := List.mem_filterMap.mp hi
    obtain ⟨e, he, rfl⟩ := Option.map_eq_some_iff.mp hitem
    exact ⟨n, hn, e, he, rfl⟩
  · rintro ⟨n, hn, e, he, rfl⟩
    exact CacheModel.mem_keys_of_mem (mem_items he hn)

theorem items_perm {as bs : List NodeId} (h : as.Perm bs) : (s.items as).Perm (s.items bs) :=
  h.filterMap _

/-- The node has the entry, and no other node of the list has an entry with the key of it. -/
structure Names (s : Sketch κ α) (ns : List NodeId) (n : NodeId) (e : Entry κ α) : Prop where
  entry : s.entries n = some e
  only : ∀ m ∈ ns, ∀ d, s.entries m = some d → d.key = e.key → m = n

/-- Where no key occurs twice, a node is named by its key. -/
theorem names_of_nodup (h : (CacheModel.keys (s.items ns)).Nodup) (hn : n ∈ ns)
    (he : s.entries n = some e) : s.Names ns n e where
  entry := he
  only := by
    intro m hm d hd hkey
    have hperm := CacheModel.keys_perm (items_perm (s := s) (List.perm_cons_erase hn))
    have hnodup := hperm.nodup_iff.mp h
    rw [items_cons he] at hnodup
    by_contra hmn
    refine (List.nodup_cons.mp hnodup).1 (mem_keys_items.mpr ⟨m, ?_, d, hd, hkey⟩)
    exact (List.mem_erase_of_ne hmn).mpr hm

namespace Names

theorem mono {ms : List NodeId} (h : s.Names ns n e) (hsub : ∀ m ∈ ms, m ∈ ns) :
    s.Names ms n e :=
  ⟨h.entry, fun m hm => h.only m (hsub m hm)⟩

/-- The other nodes of the list do not carry the key. -/
theorem key_ne (h : s.Names ns n e) (hm : m ∈ ns) (hmn : m ≠ n) (hd : s.entries m = some d) :
    d.key ≠ e.key := fun hkey => hmn (h.only m hm d hd hkey)

variable [DecidableEq κ]

/-- To take the key out is to take the node out. -/
theorem without_items (h : s.Names ns n e) :
    CacheModel.without (s.items ns) e.key = s.items (ns.erase n) := by
  induction ns with
  | nil => rfl
  | cons m ns ih =>
    have hrest : s.Names ns n e := h.mono fun _ hm => List.mem_cons_of_mem m hm
    by_cases hmn : m = n
    · subst hmn
      have hkey : e.item.key = e.key := rfl
      rw [items_cons h.entry, List.erase_cons_head, CacheModel.without,
        List.eraseP_cons_of_pos (by simpa using hkey)]
    · rw [List.erase_cons_tail (by simpa using hmn)]
      cases hd : s.entries m with
      | none =>
        rw [items, List.filterMap_cons_none (by rw [hd, Option.map_none]), items,
          List.filterMap_cons_none (by rw [hd, Option.map_none])]
        exact ih hrest
      | some d =>
        have hkey : d.item.key ≠ e.key := h.key_ne List.mem_cons_self hmn hd
        rw [items_cons hd, items_cons hd, CacheModel.without,
          List.eraseP_cons_of_neg (by simpa using hkey)]
        exact congrArg (d.item :: ·) (ih hrest)

/-- To revise the value of the key is to revise the value at the node. -/
theorem revise_items (h : s.Names ns n e) (f : α → α) :
    CacheModel.revise (s.items ns) e.key f =
      (s.write n (some { e with value := f e.value })).items ns := by
  rw [CacheModel.revise, items, List.map_filterMap]
  refine List.filterMap_congr fun m hm => ?_
  change _ = (if m = n then some { e with value := f e.value } else s.entries m).map Entry.item
  by_cases hmn : m = n
  · subst hmn
    rw [if_pos rfl, h.entry, Option.map_some, Option.map_some, Option.map_some,
      if_pos (show e.item.key = e.key from rfl)]
    rfl
  · rw [if_neg hmn, Option.map_map]
    cases hd : s.entries m with
    | none => rfl
    | some d =>
      have hkey : d.item.key ≠ e.key := h.key_ne hm hmn hd
      simp only [Option.map_some, Function.comp, if_neg hkey]

end Names

end Sketch

end CachePool
