import CachePool.Proofs.Cache.Refinement

/-!
# Caches stay consistent

The two lists, the index and the entries of a cache agree between calls: a list
holds the nodes that are tagged with its generation, no key occurs twice, the index
knows exactly the linked nodes, and the two generations share the capacity of the
cache. No call of a history shorter than `2 ^ 64` breaks this or stops at a fault.
-/

namespace CachePool

namespace Cache

variable {κ α : Type} [DecidableEq κ]

/-- The nodes of both generations, the young ones first. -/
def linked (c : Cache κ α) : List NodeId := c.young.nodes c.links ++ c.old.nodes c.links

/-- The lists, the index and the entries of a cache agree, and the lists keep their bounds. -/
structure Consistent (c : Cache κ α) : Prop where
  /-- The thread of each list is as long as the list counts. -/
  threaded : ∀ g, ((c.generation g).nodes c.links).length = (c.generation g).length
  /-- A node is in one list only, and once. -/
  apart : c.linked.Nodup
  /-- A list holds entries that are tagged with its generation and hashed by their keys. -/
  tagged : ∀ g, ∀ n ∈ (c.generation g).nodes c.links,
    ∃ e, c.entries.get n = some e ∧ e.generation = g ∧ e.hash = c.index.hasher e.key
  /-- No entry is kept at a node that is in no list. -/
  held : ∀ n e, c.entries.get n = some e → n ∈ c.linked
  /-- No key occurs twice in the two lists. -/
  distinct : ((c.contents .young ++ c.contents .old).map (·.key)).Nodup
  /-- The chains of the index hold the linked nodes, and no others. -/
  indexed : ∀ n, (∃ bucket, n ∈ c.index.bucketNodes c.chain bucket) ↔ n ∈ c.linked
  /-- A key is looked up at the linked node that carries it. -/
  found : ∀ key n, c.node? key = some n ↔
    n ∈ c.linked ∧ ∃ e, c.entries.get n = some e ∧ e.key = key
  length : c.index.length = c.young.length + c.old.length
  youngBounded : c.young.length ≤ c.young.capacity.val
  oldBounded : c.old.length ≤ c.old.capacity.val
  capacity : c.young.capacity.val + c.old.capacity.val = c.config.capacity.val

end Cache

namespace Sketch

variable {κ α : Type} {s : Sketch κ α} {c : Cache κ α}

/-- The linked nodes of a cache are those of its sketch. -/
theorem Depicts.linked_eq (hc : s.Depicts c) : c.linked = s.young ++ s.old := by
  rw [Cache.linked, hc.young.nodes_eq, hc.old.nodes_eq]

/-- The keys of a generation are those of its items. -/
theorem Depicts.keys_contents (hc : s.Depicts c) (g : Generation) :
    (c.contents g).map (·.key) = CacheModel.keys (s.items (s.side g)) := by
  rw [hc.contents_eq, items, CacheModel.keys, List.map_filterMap, List.map_filterMap]
  refine List.filterMap_congr fun n _ => ?_
  rw [Option.map_map]
  rfl

variable [DecidableEq κ]

/-- A cache with a settled sketch is consistent. -/
theorem Depicts.consistent (hc : s.Depicts c) (hs : s.Settled) : c.Consistent := by
  obtain ⟨order, ho, hperm⟩ := hs.indexed
  have hindex := hc.index order ho
  have hmem : ∀ n, n ∈ order ↔ n ∈ c.linked := by
    intro n
    rw [hc.linked_eq]
    exact hperm.mem_iff
  have hyoungLength := hc.young.length
  have holdLength := hc.old.length
  constructor
  case threaded =>
    intro g
    rw [(hc.holds g).nodes_eq, (hc.holds g).length]
  case apart =>
    rw [hc.linked_eq]
    exact hs.nodup
  case tagged =>
    intro g n hn
    rw [(hc.holds g).nodes_eq] at hn
    rw [hc.entries, hc.hasher]
    exact hs.filed g n hn
  case held =>
    intro n e he
    rw [hc.entries] at he
    by_contra hout
    rw [hc.linked_eq, List.mem_append, not_or] at hout
    exact Option.some_ne_none e (he.symm.trans (hs.spare n hout))
  case distinct =>
    rw [List.map_append, hc.keys_contents, hc.keys_contents, ← CacheModel.keys_append]
    exact hs.sound.distinct
  case indexed =>
    intro n
    rw [hindex.mem_bucketNodes_iff, hmem]
  case found =>
    intro key n
    rw [hc.node?_eq_some_iff ho, ← hmem, hc.entries]
    constructor
    · rintro ⟨hn, e, he, -, hkey⟩
      exact ⟨hn, e, he, hkey⟩
    · rintro ⟨hn, e, he, rfl⟩
      exact ⟨hn, e, he, hs.hash_eq (hperm.mem_iff.mp hn) he, rfl⟩
  case length =>
    rw [hindex.length, hyoungLength, holdLength, hperm.length_eq, List.length_append]
  case youngBounded =>
    rw [hyoungLength]
    exact hc.young.bounded
  case oldBounded =>
    rw [holdLength]
    exact hc.old.bounded
  case capacity =>
    rw [hc.youngCapacity, hc.oldCapacity, hc.config]
    exact s.config.youngSlots_add_oldSlots

end Sketch

namespace Cache

variable {κ α : Type} [DecidableEq κ]

/-- In a history shorter than `2 ^ 64`, from a new cache on, every call answers, and after every
call the cache is consistent and has the capacity that its configuration asks for. -/
theorem run_consistent (config : CacheConfig) (hasher : Hasher κ) (ops : List (Operation κ α))
    (hlength : ops.length < UInt64.size) :
    (ofConfig config hasher).Answers ops ∧
      ∀ past, past <+: ops →
        ((ofConfig config hasher : Cache κ α).run past).2.Consistent ∧
          ((ofConfig config hasher : Cache κ α).run past).2.config.capacity.val =
            max config.capacity.val (max config.minCapacity.val 2) := by
  refine ⟨answers_of_length config hasher ops hlength, ?_⟩
  have hfits := (CacheModel.ofConfig config).fits_of_length hlength
  rintro past ⟨later, rfl⟩
  obtain ⟨s, -, hc, hreaches⟩ := run_of_fits config hasher hfits.of_append
  refine ⟨hc.consistent hreaches.settled, ?_⟩
  rw [hc.config, hreaches.config, ← Nat.max_assoc, ← Size.val_max]
  exact Size.val_max _ _

/-- A cache of three slots, whose keys share one bucket, is consistent after a removal that follows
a hit. -/
theorem run_consistent_threeSlots :
    [Operation.put 1 10, .put 2 20, .get 1, .remove 2].length < UInt64.size ∧
      ((ofConfig { capacity := ⟨3, by decide, by decide⟩ } (Hasher.constant 0)).run
        [Operation.put 1 10, .put 2 20, .get 1, .remove 2]).2.Consistent :=
  ⟨by decide, ((run_consistent { capacity := ⟨3, by decide, by decide⟩ } (Hasher.constant 0)
    [Operation.put 1 10, .put 2 20, .get 1, .remove 2] (by decide)).2 _ (List.prefix_refl _)).1⟩

end Cache

end CachePool
