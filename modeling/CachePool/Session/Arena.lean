import CachePool.Arena
import CachePool.Text.Quoted

/-!
# Sessions with structures over shared nodes

A session plays commands on the lists and the index of an arena. The line of a
command shows the structure that it named: a list by its nodes, the index by the
bucket links of all nodes.
-/

namespace CachePool.Session

open Text

/-- A command to one of the lists. -/
inductive ListCommand where
  | insert (n : NodeId)
  | erase (n : NodeId)
  | refresh (n : NodeId)
  | popLeast
  | ends
  | info
  /-- Meet the given number of nodes. -/
  | take (count : Nat)
  | describe (form : Form)

/-- A command to the index. -/
inductive IndexCommand where
  | insert (n : NodeId)
  | erase (n : NodeId)
  | get (key : String)
  | hash (key : String)
  | clear
  | info
  | describe (form : Form)

/-- A command to a node. -/
inductive NodeCommand where
  | inspect
  | key
  | replace (value : Int64)
  | describe (form : Form)
  | links

/-- A command of a session. -/
inductive ArenaCommand where
  | list (number : Nat) (command : ListCommand)
  | index (command : IndexCommand)
  | node (n : NodeId) (command : NodeCommand)
  | unlinked

/-- What a command replies. -/
inductive ArenaReply where
  | answer (a : ArenaAnswer)
  | ends (head tail : Option NodeId)
  | listInfo (capacity length : Nat) (empty full : Bool)
  | taken (keys : List (Option String)) (remaining : Nat) (hint : Nat × Option Nat)
  | hash (h : UInt64)
  | indexInfo (buckets length : Nat) (empty : Bool)
  | entry (e : Option (Entry String Int64))
  | key (k : Option String)
  | text (s : String)

/-- What the line of a command shows beside its reply. -/
inductive ArenaView where
  | list (nodes : List NodeId) (length : Nat)
  | index (length : Nat) (chain : List (Option NodeId))
  | nothing

/-- An arena of a known number of nodes. -/
structure ArenaWorld where
  arena : Arena String Int64
  nodeCount : Nat

/-- Perform a call. -/
def callArena (call : ArenaCall String) : Action ArenaWorld ArenaReply :=
  .answer <$> (Arena.call call).within (·.arena) fun w arena => { w with arena }

/-- Reply with something that is read off the arena, or with a fault. -/
def viewArena (view : Arena String Int64 → Except Fault ArenaReply) :
    Action ArenaWorld ArenaReply := fun w =>
  match view w.arena with
  | .ok reply => .ok reply w
  | .error fault => .error fault w

/-- The key of a node, while it has an entry. -/
def keyOf (a : Arena String Int64) (n : NodeId) : Option String := (a.entries.get n).map (·.key)

/-- The described shape of an entry of a session. -/
def entryOutline (e : Entry String Int64) : Outline := e.outline quote toString

/-- The reply to a command to a list. -/
def ListCommand.reply (number : Nat) : ListCommand → Action ArenaWorld ArenaReply
  | .insert n => callArena (.insert number n)
  | .erase n => callArena (.erase number n)
  | .refresh n => callArena (.refresh number n)
  | .popLeast => callArena (.popLeast number)
  | .ends => viewArena fun a =>
    let l := a.lists.get number
    .ok (.ends l.head l.tail)
  | .info => viewArena fun a =>
    let l := a.lists.get number
    .ok (.listInfo l.capacity.val l.length l.isEmpty l.isFull)
  | .take count => viewArena fun a => do
    let (met, it) ← (a.lists.get number).iterate.take a.links count
    return .taken (met.map (·.bind (keyOf a))) it.remaining it.sizeHint
  | .describe form => viewArena fun a => .ok (.text ((a.lists.get number).outline.write form))

/-- The reply to a command to the index. -/
def IndexCommand.reply : IndexCommand → Action ArenaWorld ArenaReply
  | .insert n => callArena (.enrol n)
  | .erase n => callArena (.strike n)
  | .get key => callArena (.lookup key)
  | .hash key => viewArena fun a => .ok (.hash (a.index.hasher key))
  | .clear => callArena .clear
  | .info => viewArena fun a =>
    .ok (.indexInfo a.index.bucketCount a.index.length (a.index.length = 0))
  | .describe form => viewArena fun a => .ok (.text (a.index.outline.write form))

/-- The reply to a command to a node. -/
def NodeCommand.reply (n : NodeId) : NodeCommand → Action ArenaWorld ArenaReply
  | .inspect => viewArena fun a => .ok (.entry (a.entries.get n))
  | .key => viewArena fun a => .ok (.key (keyOf a n))
  | .replace value => do
    modify fun w => { w with arena := { w.arena with
      entries := w.arena.entries.modify n (·.map fun e => { e with value }) } }
    return .answer .done
  | .describe form => viewArena fun a =>
    match a.entries.get n with
    | none => .error .entryFreed
    | some e => .ok (.text ((entryOutline e).write form))
  | .links => viewArena fun a => .ok (.text (a.links.get n).outline.inline)

/-- The reply to a command. -/
def ArenaCommand.reply : ArenaCommand → Action ArenaWorld ArenaReply
  | .list number command => command.reply number
  | .index command => command.reply
  | .node n command => command.reply n
  | .unlinked => viewArena fun _ => .ok (.text (default : Neighbours).outline.inline)

/-- What a command shows beside its reply. -/
def ArenaCommand.view (w : ArenaWorld) : ArenaCommand → ArenaView
  | .list number _ => .list (w.arena.nodes number) (w.arena.lists.get number).length
  | .index _ => .index w.arena.index.length ((List.range w.nodeCount).map w.arena.chain.get)
  | .node _ _ | .unlinked => .nothing

/-- The transcript of one command. -/
structure ArenaLine where
  reply : Except Fault ArenaReply
  view : ArenaView

/-- Play a command. -/
def ArenaCommand.play (command : ArenaCommand) : StateM ArenaWorld ArenaLine := fun w =>
  let (reply, w) := command.reply.attempt w
  ({ reply, view := command.view w }, w)

/-- A node of a session: its key and value, and a hash that may differ from that of the key. -/
structure NodeSeed where
  key : String
  value : Int64
  hash : Option UInt64 := none

/-- The entry that a node starts with. -/
def NodeSeed.entry (index : KeyIndex String) (s : NodeSeed) : Entry String Int64 :=
  { key := s.key, value := s.value, hash := s.hash.getD (index.hasher s.key) }

/-- Play commands on lists of the given capacities and an index over the given nodes. -/
def playArena (hasher : Hasher String) (buckets : Size) (lists : List Size)
    (nodes : List NodeSeed) (commands : List ArenaCommand) : List ArenaLine :=
  let index := KeyIndex.ofBuckets buckets hasher
  let arena := Arena.ofNodes (lists.map fun capacity => { capacity }) index
    (nodes.map (·.entry index))
  ((commands.mapM ArenaCommand.play).run { arena, nodeCount := nodes.length }).1

end CachePool.Session
