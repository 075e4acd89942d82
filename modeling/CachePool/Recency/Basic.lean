import CachePool.Table
import CachePool.Walk
import CachePool.Word

/-!
# Recency lists over shared nodes

A recency list threads nodes from the most to the least recently used. The
neighbours of a node are kept beside the lists, so that a node can move between
lists; a list itself holds its ends, its length and its capacity. An insertion
that would overflow gives up the least recently used node in the same call. A
list tells by its ends whether it can hold a node, and refuses to touch others.
A node between two neighbours passes for one of any list, so only the list that
holds it may be asked to move or unlink it.
-/

namespace CachePool

open Text

/-- The neighbours of a node in the list that holds it. -/
structure Neighbours where
  /-- The neighbour towards the head, absent at the head. -/
  newer : Option NodeId := none
  /-- The neighbour towards the tail, absent at the tail. -/
  older : Option NodeId := none
  deriving DecidableEq, Inhabited

/-- The described shape of the neighbours of a node. -/
def Neighbours.outline (n : Neighbours) : Outline :=
  .record "Links" [("prev", linkOutline n.newer), ("next", linkOutline n.older)]

/-- The neighbours of all nodes. -/
abbrev LinkTable := Table Neighbours

/-- Give a node a new neighbour towards the head. -/
def setNewer (links : LinkTable) (n : NodeId) (newer : Option NodeId) : LinkTable :=
  links.modify n fun neighbours => { neighbours with newer }

/-- Give a node a new neighbour towards the tail. -/
def setOlder (links : LinkTable) (n : NodeId) (older : Option NodeId) : LinkTable :=
  links.modify n fun neighbours => { neighbours with older }

/-- A list of nodes in the order of their last use, bounded by its capacity. -/
structure RecencyList where
  /-- The largest number of nodes held. -/
  capacity : Size
  /-- The number of nodes held. -/
  length : Nat := 0
  /-- The most recently used node. -/
  head : Option NodeId := none
  /-- The least recently used node. -/
  tail : Option NodeId := none
  deriving DecidableEq

instance : Inhabited RecencyList := ⟨{ capacity := default }⟩

/-- A list and the neighbours of all nodes. The operations of a list act on both, and a fault keeps
what was done to them before it. -/
abbrev ThreadedList : Type := RecencyList × LinkTable

namespace RecencyList

/-- No node is held. -/
def isEmpty (l : RecencyList) : Bool := l.length = 0

/-- The next insertion gives up a node. -/
def isFull (l : RecencyList) : Bool := l.capacity.val ≤ l.length

/-- The nodes held, from the most to the least recently used. -/
def nodes (l : RecencyList) (links : LinkTable) : List NodeId :=
  follow (fun n => (links.get n).older) l.length l.head

/-- The node can be one of this list: where it lacks a neighbour, it is that end of the list. -/
def endsAgree (l : RecencyList) (links : LinkTable) (n : NodeId) : Bool :=
  ((links.get n).newer.isSome || l.head == some n) &&
    ((links.get n).older.isSome || l.tail == some n)

/-- Thread an unlinked node before the head. -/
def attach (l : RecencyList) (links : LinkTable) (n : NodeId) : ThreadedList :=
  let links := links.set n { newer := none, older := l.head }
  match l.head with
  | none => ({ l with head := some n, tail := some n }, links)
  | some head => ({ l with head := some n }, setNewer links head (some n))

/-- Take a node out of the thread and join its neighbours. -/
def detach (l : RecencyList) (links : LinkTable) (n : NodeId) : ThreadedList :=
  let { newer, older } := links.get n
  let links := links.set n {}
  let (l, links) := match newer with
    | none => ({ l with head := older }, links)
    | some p => (l, setOlder links p older)
  match older with
  | none => ({ l with tail := newer }, links)
  | some q => (l, setNewer links q newer)

/-- Count one node less. -/
def shorten : Action ThreadedList Unit := fun (l, links) =>
  if l.length = 0 then
    .error .subtractionOverflow (l, links)
  else
    .ok () ({ l with length := l.length - 1 }, links)

/-- Give up the least recently used node, if there is one. -/
def popLeast : Action ThreadedList (Option NodeId) := do
  match (← get).1.tail with
  | none => return none
  | some n =>
    modify fun (l, links) => l.detach links n
    shorten
    return some n

/-- Insert an unlinked node as the most recently used, and give up the least recently used one if
the list overflows. -/
def insert (n : NodeId) : Action ThreadedList (Option NodeId) := do
  modify fun (l, links) => l.attach links n
  modify fun (l, links) => ({ l with length := l.length + 1 }, links)
  let (l, _) ← get
  if l.capacity.val < l.length then popLeast else return none

/-- Unlink a node that the list holds. -/
def erase (n : NodeId) : Action ThreadedList Unit := do
  let (l, links) ← get
  unless l.endsAgree links n do
    throw .unlinkingForeignNode
  modify fun (l, links) => l.detach links n
  shorten

/-- Make a node that the list holds the most recently used; nothing happens to the head. -/
def refresh (n : NodeId) : Action ThreadedList Unit := do
  let (l, links) ← get
  if l.head = some n then
    return
  unless l.endsAgree links n do
    throw .movingForeignNode
  modify fun (l, links) => l.detach links n
  modify fun (l, links) => l.attach links n

/-- The described shape of a list. -/
def outline (l : RecencyList) : Outline :=
  .record "LruList" [("capacity", .number l.capacity.val), ("length", .number l.length)]

end RecencyList

end CachePool
