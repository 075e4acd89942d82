import CachePool.Text.Outline

/-!
# Nodes and walks along their links

Nodes are numbered, and an absent node ends every walk. A walk follows successor
links from a start and stops at the latest after a given number of nodes.
-/

namespace CachePool

open Text

/-- A node, by its number. -/
abbrev NodeId := Nat

/-- The nodes met from a start along successor links, at most the given number. -/
def follow (next : NodeId → Option NodeId) : Nat → Option NodeId → List NodeId
  | 0, _ => []
  | _ + 1, none => []
  | fuel + 1, some n => n :: follow next fuel (next n)

/-- A link is described by the number of its node, and an absent node by the null address. -/
def linkOutline : Option NodeId → Outline
  | none => .word "0x0"
  | some n => .word ("#" ++ toString n)

end CachePool
