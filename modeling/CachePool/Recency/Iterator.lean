import CachePool.Recency.Basic

/-!
# Iteration from the most to the least recently used node

An iterator keeps two stop signals: the next node, which is absent at the end,
and the number of nodes still to come. It stops by the first and counts down the
second.
-/

namespace CachePool

/-- A position in a list, with the number of nodes from there on. -/
structure RecencyIterator where
  /-- The node that is met next. -/
  next : Option NodeId
  /-- The number of nodes still to be met. -/
  remaining : Nat
  deriving DecidableEq

/-- Start at the most recently used node. -/
def RecencyList.iterate (l : RecencyList) : RecencyIterator := ⟨l.head, l.length⟩

namespace RecencyIterator

/-- Meet the next node and step over it. -/
def advance (it : RecencyIterator) (links : LinkTable) :
    Except Fault (Option NodeId × RecencyIterator) :=
  match it.next with
  | none => .ok (none, it)
  | some n =>
    if it.remaining = 0 then .error .subtractionOverflow
    else .ok (some n, ⟨(links.get n).older, it.remaining - 1⟩)

/-- Meet the given number of nodes; after the last node every answer is empty. -/
def take (it : RecencyIterator) (links : LinkTable) :
    Nat → Except Fault (List (Option NodeId) × RecencyIterator)
  | 0 => .ok ([], it)
  | count + 1 => do
    let (met, it) ← it.advance links
    let (rest, it) ← it.take links count
    return (met :: rest, it)

/-- Bounds on the number of nodes still to be met, which coincide. -/
def sizeHint (it : RecencyIterator) : Nat × Option Nat := (it.remaining, some it.remaining)

end RecencyIterator

end CachePool
