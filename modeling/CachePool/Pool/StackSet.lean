import CachePool.Pool.Stack

/-!
# Several stacks over the same nodes

Any number of stacks share a set of nodes, each with a slot for a payload. A node
lies on at most one stack at a time, and only a node that lies on none may be
pushed or have its payload exchanged.
-/

namespace CachePool

/-- Stacks over shared nodes. -/
structure StackSet (τ : Type) where
  /-- The stacks, by number. -/
  members : Table ClaimStack := .empty
  /-- The successor of each node on its stack. -/
  tails : TailTable := .empty
  /-- The payload of each node. -/
  slots : Table (Option τ) := .empty

namespace StackSet

variable {τ : Type}

/-- Put a node on top of a stack. -/
def push (s : StackSet τ) (stack : Nat) (n : NodeId) : Except Fault (StackSet τ) := do
  let (top, tails) ← (s.members.get stack).push s.tails n
  return { s with members := s.members.set stack top, tails }

/-- Take the top node off a stack. -/
def pop (s : StackSet τ) (stack : Nat) : Except Fault (Option NodeId × StackSet τ) := do
  let (n, top, tails) ← (s.members.get stack).pop s.tails
  return (n, { s with members := s.members.set stack top, tails })

/-- Put a payload into a node, or none; the answer is what the node held before. -/
def exchange (s : StackSet τ) (n : NodeId) (payload : Option τ) : Option τ × StackSet τ :=
  (s.slots.get n, { s with slots := s.slots.set n payload })

end StackSet

end CachePool
