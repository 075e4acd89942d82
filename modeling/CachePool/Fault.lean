/-!
# Faults and interruptible actions

An operation either answers or stops at a fault. In both cases it leaves a state
behind, and what was already done before the fault stays done. Faults name the
broken expectation; their wording is fixed by `Fault.message`.
-/

namespace CachePool

/-- The calls that a pool makes to the manager of its payloads. -/
inductive Hook where
  | create
  | canReuse
  | prepare
  | destroy
  deriving DecidableEq

/-- The name under which a hook is reported. -/
def Hook.name : Hook → String
  | .create => "create"
  | .canReuse => "can_reuse"
  | .prepare => "prepare"
  | .destroy => "destroy"

/-- Every reason for which an operation can stop without an answer. -/
inductive Fault where
  /-- A sum left the range of a machine word. -/
  | additionOverflow
  /-- A difference would have been negative. -/
  | subtractionOverflow
  /-- A word was to be cut into a range whose ends are in the wrong order. -/
  | emptyRange
  /-- A recency list was asked to unlink a node that it does not hold. -/
  | unlinkingForeignNode
  /-- A recency list was asked to move a node that it does not hold. -/
  | movingForeignNode
  /-- A key was indexed between the check for its absence and its insertion. -/
  | keyAlreadyIndexed
  /-- The index does not know the entry that a generation gave up. -/
  | evictedNotIndexed
  /-- The index does not know the entry that is to be removed. -/
  | unlinkedNotIndexed
  /-- A node was read after its entry had been freed. -/
  | entryFreed
  /-- A push found the stack claimed, with nobody left to release it. -/
  | stackClaimed
  /-- The mark of a claimed stack was gone when the claim ended. -/
  | sentinelReplaced
  /-- A node on the occupied stack of a pool holds no payload. -/
  | occupiedNodeVacant
  /-- A node on the free stack of a pool holds a payload. -/
  | freeNodeOccupied
  /-- A hook of the manager gave up. -/
  | hookFailed (hook : Hook)
  deriving DecidableEq

/-- The text under which a fault is reported. -/
def Fault.message : Fault → String
  | .additionOverflow => "attempt to add with overflow"
  | .subtractionOverflow => "attempt to subtract with overflow"
  | .emptyRange => "assertion failed: min <= max"
  | .unlinkingForeignNode => "unlinking a node not in this list"
  | .movingForeignNode => "moving a node not in this list"
  | .keyAlreadyIndexed => "key was checked to be absent"
  | .evictedNotIndexed => "evicted entry missing from index"
  | .unlinkedNotIndexed => "unlinking an entry missing from index"
  | .entryFreed => "reading an entry that was freed"
  | .stackClaimed => "pushing onto a stack that stays claimed"
  | .sentinelReplaced => "stack sentinel was replaced while it was held"
  | .occupiedNodeVacant => "occupied pool node must hold a payload"
  | .freeNodeOccupied => "free pool node held a payload"
  | .hookFailed hook => hook.name ++ " failed"

/-- A computation over a state that can stop at a fault and keeps the state it reached. -/
abbrev Action (σ α : Type) : Type :=
  EStateM Fault σ α

/-- The answer of an action or the fault that stopped it, and the state it left behind. -/
def Action.attempt {σ α : Type} (action : Action σ α) (s : σ) : Except Fault α × σ :=
  match action s with
  | .ok answer s => (.ok answer, s)
  | .error fault s => (.error fault, s)

/-- Run an action on a part of a larger state. -/
def Action.within {σ τ α : Type} (part : σ → τ) (replace : σ → τ → σ) (action : Action τ α) :
    Action σ α := fun s =>
  match action (part s) with
  | .ok answer t => .ok answer (replace s t)
  | .error fault t => .error fault (replace s t)

end CachePool
