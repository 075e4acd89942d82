import CachePool.Cache.Shared
import CachePool.Session.Cache

/-!
# Sessions with a shared cache

Commands are played through the lock first. Then the cache is taken out of it,
and further commands are played on the cache itself.
-/

namespace CachePool.Session

open Text

/-- A command of a session with a shared cache. -/
inductive SharedCommand where
  /-- A command that goes through to the cache. -/
  | cache (command : CacheCommand Int64)
  /-- Ten times the value of a key. -/
  | getTenfold (key : String)
  /-- Add to the value of a key. -/
  | add (key : String) (n : Int64)
  | capacity
  | name
  | describe (form : Form)

/-- The reply to a command, with the values freed on the way. -/
def SharedCommand.reply :
    SharedCommand → Action (SharedCache String Int64) (Outcome (CacheReply Int64) Int64)
  | .cache command => SharedCache.locked command.reply
  | .getTenfold key =>
    Outcome.map (fun v => .answer (.value v)) <$> SharedCache.getWith key fun v => v * 10
  | .add key n =>
    Outcome.map (fun v => .answer (.value v)) <$>
      SharedCache.updateWith key fun v => (v + n, v + n)
  | .capacity => query fun s => .ok (.number s.inner.config.capacity.val)
  | .name => query fun _ => .ok (.text SharedCache.policyName)
  | .describe form => query fun s => .ok (.text (s.outline.write form))

/-- The transcript of one command. -/
structure SharedLine where
  reply : Except Fault (CacheReply Int64)
  length : Nat
  freed : List Int64

/-- Play a command. -/
def SharedCommand.play (command : SharedCommand) :
    StateM (SharedCache String Int64) SharedLine := fun s =>
  let (outcome, s) := command.reply.attempt s
  let line := cacheLine none s.inner outcome
  ({ reply := line.reply, length := s.inner.length, freed := line.freed }, s)

/-- The transcript of a session. -/
structure SharedTranscript where
  capacity : Nat
  lines : List SharedLine
  /-- What was played on the cache itself. -/
  inner : CacheTranscript Int64

/-- Play commands on a cache behind its lock, and then others on the cache itself. -/
def playShared (watch : Option (List String)) (c : Cache String Int64)
    (commands : List SharedCommand) (after : List (CacheCommand Int64)) : SharedTranscript :=
  let (lines, s) := (commands.mapM SharedCommand.play).run { inner := c }
  { capacity := c.config.capacity.val, lines, inner := playCache watch s.inner after }

end CachePool.Session
