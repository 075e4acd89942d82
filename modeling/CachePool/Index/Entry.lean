import CachePool.Table
import CachePool.Text.Outline

/-!
# Cache entries

An entry carries its key, its value, the hash under which it is indexed, the
generation that holds it and the hits it received there. The links of an entry
are kept beside the structures that thread it.
-/

namespace CachePool

open Text

/-- The two generations of a cache. -/
inductive Generation where
  /-- Where every new key starts. What overflows here is freed. -/
  | young
  /-- Where a key goes after repeated hits. What overflows here goes back to young. -/
  | old
  deriving DecidableEq

/-- The word that describes a generation. -/
def Generation.outline : Generation → Outline
  | .young => .word "Young"
  | .old => .word "Old"

/-- What a node of a cache holds. -/
structure Entry (κ α : Type) where
  key : κ
  value : α
  /-- The hash under which the entry is indexed, fixed when it is made. -/
  hash : UInt64
  /-- The generation that holds the entry. -/
  generation : Generation := .young
  /-- The hits since the entry was made or last changed its generation. -/
  hits : UInt32 := 0

namespace Entry

variable {κ α : Type}

/-- Count a hit; the count stays at the largest word once it is there. -/
def countHit (e : Entry κ α) : Entry κ α :=
  { e with hits := if e.hits.toNat + 1 < UInt32.size then e.hits + 1 else e.hits }

/-- Move to a generation and count hits anew. -/
def enter (e : Entry κ α) (g : Generation) : Entry κ α :=
  { e with generation := g, hits := 0 }

/-- The described shape of an entry whose key and value are described by the given words. -/
def outline (e : Entry κ α) (key : κ → String) (value : α → String) : Outline :=
  .record "CacheEntry" [
    ("key", .word (key e.key)),
    ("value", .word (value e.value)),
    ("generation", e.generation.outline),
    ("hits", .number e.hits.toNat)]

end Entry

/-- The entries of all nodes; a node that was freed or never used has none. -/
abbrev EntryTable (κ α : Type) := Table (Option (Entry κ α))

end CachePool
