import CachePool.Index.Basic
import CachePool.Recency.Iterator

/-!
# Several structures over the same nodes

An arena holds nodes with their entries and links, any number of recency lists
and one hash index over these nodes. A node may be in one list and in the index
at once. Lists write the neighbour links only, the index writes the bucket links
only.
-/

namespace CachePool

/-- Recency lists and an index over shared nodes. -/
structure Arena (κ α : Type) where
  /-- The lists, by number. -/
  lists : Table RecencyList
  index : KeyIndex κ
  /-- The neighbours of each node in its list. -/
  links : LinkTable := .empty
  /-- The successor of each node in its bucket. -/
  chain : ChainTable := .empty
  /-- What each node carries. -/
  entries : EntryTable κ α

/-- A call on one of the structures of an arena. -/
inductive ArenaCall (κ : Type) where
  | insert (list : Nat) (n : NodeId)
  | erase (list : Nat) (n : NodeId)
  | refresh (list : Nat) (n : NodeId)
  | popLeast (list : Nat)
  | enrol (n : NodeId)
  | strike (n : NodeId)
  | lookup (key : κ)
  | clear

/-- What a call answers. -/
inductive ArenaAnswer where
  | node (n : Option NodeId)
  | flag (b : Bool)
  | done
  deriving DecidableEq

namespace Arena

variable {κ α : Type} [DecidableEq κ]

/-- An arena whose nodes are in no list and not indexed. -/
def ofNodes (lists : List RecencyList) (index : KeyIndex κ) (entries : List (Entry κ α)) :
    Arena κ α where
  lists := .ofList lists
  index
  entries := .ofList (entries.map some)

/-- Act on one of the lists. -/
def onList {ρ : Type} (list : Nat) (action : Action ThreadedList ρ) : Action (Arena κ α) ρ :=
  action.within (fun a => (a.lists.get list, a.links)) fun a (l, links) =>
    { a with lists := a.lists.set list l, links }

/-- Perform a call. -/
def call : ArenaCall κ → Action (Arena κ α) ArenaAnswer
  | .insert list n => return .node (← onList list (RecencyList.insert n))
  | .erase list n => do
    onList list (RecencyList.erase n)
    return .done
  | .refresh list n => do
    onList list (RecencyList.refresh n)
    return .done
  | .popLeast list => return .node (← onList list RecencyList.popLeast)
  | .enrol n => fun a =>
    let (added, index, chain) := a.index.insert a.chain a.entries n
    .ok (.flag added) { a with index, chain }
  | .strike n => fun a =>
    let (removed, index, chain) := a.index.erase a.chain a.entries n
    .ok (.flag removed) { a with index, chain }
  | .lookup key => fun a => .ok (.node (a.index.get? a.chain a.entries key)) a
  | .clear => fun a => .ok .done { a with index := a.index.clear }

/-- The nodes of a list, from the most to the least recently used. -/
def nodes (a : Arena κ α) (list : Nat) : List NodeId := (a.lists.get list).nodes a.links

end Arena

end CachePool
