import CachePool.Fault
import CachePool.Table
import CachePool.Walk

/-!
# Stacks that are claimed while they are popped

A stack is threaded through its nodes, from the most to the least recently
pushed. A pop first claims the stack by putting a mark in the place of its head,
then reads the successor of the claimed node, and then releases the stack. A pop
that finds the mark has nothing to give.
-/

namespace CachePool

open Text

/-- What stands at the head of a stack. -/
inductive StackHead where
  /-- Nothing: the stack holds no node. -/
  | vacant
  /-- The node pushed last. -/
  | node (n : NodeId)
  /-- The mark of a pop that is under way. -/
  | claimed
  deriving DecidableEq

/-- The head that a link stands for. -/
def StackHead.ofLink : Option NodeId → StackHead
  | none => .vacant
  | some n => .node n

/-- The successor of each node in the stack that holds it. -/
abbrev TailTable := Table (Option NodeId)

/-- A stack of nodes. -/
structure ClaimStack where
  head : StackHead := .vacant
  deriving DecidableEq

instance : Inhabited ClaimStack := ⟨{}⟩

namespace ClaimStack

/-- The stack holds no node; a claimed stack counts as holding some. -/
def isEmpty (s : ClaimStack) : Bool := s.head = .vacant

/-- A pop is under way. -/
def isClaimed (s : ClaimStack) : Bool := s.head = .claimed

/-- Put an unlinked node on top. -/
def push (s : ClaimStack) (tails : TailTable) (n : NodeId) :
    Except Fault (ClaimStack × TailTable) :=
  match s.head with
  | .vacant => .ok ({ head := .node n }, tails.set n none)
  | .node top => .ok ({ head := .node n }, tails.set n (some top))
  | .claimed => .error .stackClaimed

/-- End a claim: the successor of the claimed node becomes the head, if the mark is still there. -/
def unclaim (s : ClaimStack) (next : Option NodeId) : Except Fault ClaimStack :=
  if s.isClaimed then .ok { head := .ofLink next } else .error .sentinelReplaced

/-- Take the top node off and unlink it. -/
def pop (s : ClaimStack) (tails : TailTable) :
    Except Fault (Option NodeId × ClaimStack × TailTable) :=
  match s.head with
  | .vacant | .claimed => .ok (none, s, tails)
  | .node n => do
    let claimed : ClaimStack := { s with head := .claimed }
    let next := tails.get n
    let tails := tails.set n none
    let s ← claimed.unclaim next
    return (some n, s, tails)

/-- The described shape of a stack. -/
def outline (s : ClaimStack) : Outline :=
  .record "CasStack" [("empty", .truth s.isEmpty), ("claimed", .truth s.isClaimed)]

/-- The described shape of a node that a stack can hold. -/
def nodeOutline (tails : TailTable) (n : NodeId) : Outline :=
  .record "PoolNode" [("tail", linkOutline (tails.get n))]

end ClaimStack

end CachePool
