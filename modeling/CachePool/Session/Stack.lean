import CachePool.Pool.StackSet

/-!
# Sessions with stacks over shared nodes

The line of a command shows its reply and which of the stacks are empty after it.
-/

namespace CachePool.Session

open Text

/-- A command of a session. -/
inductive StackCommand where
  | push (stack : Nat) (n : NodeId)
  | pop (stack : Nat)
  | store (n : NodeId) (payload : Int64)
  | take (n : NodeId)
  | describe (stack : Nat)
  | describeNode (n : NodeId)

/-- What a command replies. -/
inductive StackReply where
  | done
  | node (n : Option NodeId)
  | payload (v : Option Int64)
  | text (s : String)

/-- The reply to a command, and the state after it. -/
def StackCommand.reply (s : StackSet Int64) :
    StackCommand → Except Fault (StackReply × StackSet Int64)
  | .push stack n => do
    let s ← s.push stack n
    return (.done, s)
  | .pop stack => do
    let (n, s) ← s.pop stack
    return (.node n, s)
  | .store n payload =>
    let (before, s) := s.exchange n (some payload)
    .ok (.payload before, s)
  | .take n =>
    let (before, s) := s.exchange n none
    .ok (.payload before, s)
  | .describe stack => .ok (.text (s.members.get stack).outline.inline, s)
  | .describeNode n => .ok (.text (ClaimStack.nodeOutline s.tails n).inline, s)

/-- The transcript of one command. -/
structure StackLine where
  reply : Except Fault StackReply
  empty : List Bool

/-- Play a command while there are the given number of stacks. -/
def StackCommand.play (count : Nat) (command : StackCommand) :
    StateM (StackSet Int64) StackLine := fun s =>
  let line (reply : Except Fault StackReply) (s : StackSet Int64) : StackLine :=
    { reply, empty := (List.range count).map fun i => (s.members.get i).isEmpty }
  match command.reply s with
  | .ok (reply, s) => (line (.ok reply) s, s)
  | .error fault => (line (.error fault) s, s)

/-- Play commands on empty stacks. -/
def playStacks (count : Nat) (commands : List StackCommand) : List StackLine :=
  ((commands.mapM (StackCommand.play count)).run {}).1

end CachePool.Session
