import CachePool.Cache.Config
import CachePool.Cache.Metrics
import CachePool.Index.Basic
import CachePool.Recency.Basic

/-!
# Two-generation caches

A new key enters the young generation. Hits refresh an entry within its
generation, and the hit that reaches the threshold promotes it to the old one.
What overflows old is demoted to young, and what overflows young is freed. The
entries are threaded through two recency lists and one hash index over the same
nodes; a transfer between the generations only relinks.

Every operation returns its result together with the values that the cache freed
on the way, in order.
-/

namespace CachePool

open Text

/-- The result of an operation and the values freed by it, first to last. -/
structure Outcome (ρ α : Type) where
  result : ρ
  freed : List α := []

/-- A cache from keys to values. -/
structure Cache (κ α : Type) where
  /-- The configuration, with the capacity that is in force. -/
  config : CacheConfig
  /-- Entries that were hit less often than the threshold asks. -/
  young : RecencyList
  /-- Entries that were promoted. -/
  old : RecencyList
  /-- The nodes of all entries, by key. -/
  index : KeyIndex κ
  /-- The neighbours of each node in its generation. -/
  links : LinkTable := .empty
  /-- The successor of each node in its bucket. -/
  chain : ChainTable := .empty
  /-- What each node holds. -/
  entries : EntryTable κ α := .empty
  /-- A number from which on no node was ever used. -/
  unused : NodeId := 0
  /-- What was counted so far. -/
  metrics : CacheMetrics

namespace Cache

variable {κ α : Type} [DecidableEq κ]

/-- An empty cache for a configuration that was found valid. -/
def ofConfig (config : CacheConfig) (hasher : Hasher κ) : Cache κ α where
  config := config.normalized
  young := { capacity := config.youngCapacity }
  old := { capacity := config.oldCapacity }
  index := .ofBuckets config.totalCapacity hasher
  metrics := { oldCapacity := config.oldCapacity.toWord }

/-- An empty cache, unless the configuration is refused. -/
def init (config : CacheConfig) (hasher : Hasher κ) : Except Refusal (Cache κ α) := do
  config.check
  return ofConfig config hasher

/-- An empty cache of a capacity, everything else by default. -/
def withCapacity (capacity : Size) (hasher : Hasher κ) : Cache κ α :=
  ofConfig { capacity } hasher

/-- The list of a generation. -/
def generation (c : Cache κ α) : Generation → RecencyList
  | .young => c.young
  | .old => c.old

/-- The cache with a generation and the links replaced. -/
def withGeneration (c : Cache κ α) (g : Generation) (l : RecencyList) (links : LinkTable) :
    Cache κ α :=
  match g with
  | .young => { c with young := l, links }
  | .old => { c with old := l, links }

/-- Count an event. -/
def tally (event : Action CacheMetrics Unit) : Action (Cache κ α) Unit :=
  event.within (·.metrics) fun c metrics => { c with metrics }

/-- Bring the size gauges up to date. -/
def gaugeSizes : Action (Cache κ α) Unit := modify fun c =>
  let young := UInt64.ofNat c.young.length
  let old := UInt64.ofNat c.old.length
  { c with metrics := c.metrics.withSizes young old }

/-- The entry of a node. -/
def entry (n : NodeId) : Action (Cache κ α) (Entry κ α) := fun c =>
  match c.entries.get n with
  | none => .error .entryFreed c
  | some e => .ok e c

/-- Give a node an entry. -/
def store (n : NodeId) (e : Entry κ α) : Action (Cache κ α) Unit := modify fun c =>
  { c with entries := c.entries.set n (some e) }

/-- Free a node and hand out its entry. -/
def free (n : NodeId) : Action (Cache κ α) (Entry κ α) := do
  let e ← entry n
  modify fun c => { c with entries := c.entries.set n none }
  return e

/-- A node that was never used, with an entry. -/
def allocate (e : Entry κ α) : Action (Cache κ α) NodeId := fun c =>
  .ok c.unused { c with entries := c.entries.set c.unused (some e), unused := c.unused + 1 }

/-- Act on the list of a generation. -/
def onGeneration {ρ : Type} (g : Generation) (action : Action ThreadedList ρ) :
    Action (Cache κ α) ρ :=
  action.within (fun c => (c.generation g, c.links)) fun c (l, links) => c.withGeneration g l links

/-- Put a node at the head of a generation; the answer is the node that overflowed. -/
def enlist (g : Generation) (n : NodeId) : Action (Cache κ α) (Option NodeId) :=
  onGeneration g (RecencyList.insert n)

/-- Take a node out of its generation. -/
def delist (g : Generation) (n : NodeId) : Action (Cache κ α) Unit :=
  onGeneration g (RecencyList.erase n)

/-- Make a node the most recently used of its generation. -/
def refresh (g : Generation) (n : NodeId) : Action (Cache κ α) Unit :=
  onGeneration g (RecencyList.refresh n)

/-- Take out the least recently used node of a generation. -/
def popLeast (g : Generation) : Action (Cache κ α) (Option NodeId) :=
  onGeneration g RecencyList.popLeast

/-- Index a node; the answer tells whether its key was new. -/
def enrol (n : NodeId) : Action (Cache κ α) Bool := fun c =>
  let (added, index, chain) := c.index.insert c.chain c.entries n
  .ok added { c with index, chain }

/-- Take a node out of the index; the answer tells whether it was there. -/
def strike (n : NodeId) : Action (Cache κ α) Bool := fun c =>
  let (removed, index, chain) := c.index.erase c.chain c.entries n
  .ok removed { c with index, chain }

/-- The node of a key, if it is cached. -/
def node? (c : Cache κ α) (key : κ) : Option NodeId :=
  c.index.get? c.chain c.entries key

/-- Free an entry that the young generation gave up. -/
def evict (n : NodeId) : Action (Cache κ α) α := do
  unless ← strike n do
    throw .evictedNotIndexed
  let e ← free n
  tally (CacheMetrics.bump .evictions)
  return e.value

/-- Put a node at the head of young and free what overflows. -/
def enterYoung (n : NodeId) : Action (Cache κ α) (List α) := do
  match ← enlist .young n with
  | none => return []
  | some overflow =>
    let value ← evict overflow
    return [value]

/-- Send a node that old gave up back to young. -/
def demote (n : NodeId) : Action (Cache κ α) (List α) := do
  let e ← entry n
  store n (e.enter .young)
  tally (CacheMetrics.bump .demotions)
  enterYoung n

/-- Move a young node to the head of old and demote what overflows. -/
def promote (n : NodeId) : Action (Cache κ α) (List α) := do
  delist .young n
  let e ← entry n
  store n (e.enter .old)
  tally (CacheMetrics.bump .promotions)
  let freed ← match ← enlist .old n with
    | none => pure []
    | some overflow => demote overflow
  gaugeSizes
  return freed

/-- Count a hit on a node, then promote it or make it the most recent of its generation. -/
def hit (n : NodeId) : Action (Cache κ α) (List α) := do
  let e := (← entry n).countHit
  store n e
  match e.generation with
  | .young =>
    tally CacheMetrics.countYoungHit
    if (← MonadState.get).config.promotionThreshold ≤ e.hits then
      promote n
    else
      refresh .young n
      return []
  | .old =>
    tally CacheMetrics.countOldHit
    refresh .old n
    return []

/-- Take a node out of the index and its generation and hand out its entry. -/
def extract (n : NodeId) : Action (Cache κ α) (Entry κ α) := do
  unless ← strike n do
    throw .unlinkedNotIndexed
  let e ← entry n
  delist e.generation n
  free n

/-- Free the entries of a generation from the least recently used on, at most the given number. -/
def freeGeneration (g : Generation) : Nat → Action (Cache κ α) (List α)
  | 0 => return []
  | fuel + 1 => do
    match ← popLeast g with
    | none => return []
    | some n =>
      let e ← free n
      let rest ← freeGeneration g fuel
      return e.value :: rest

/-- Free every entry, young before old; the index is left as it is. -/
def freeContents : Action (Cache κ α) (List α) := do
  let young ← freeGeneration .young (← MonadState.get).young.length
  let old ← freeGeneration .old (← MonadState.get).old.length
  return young ++ old

/-- Look a key up and count a miss if it is absent. -/
def seek (key : κ) : Action (Cache κ α) (Option NodeId) := do
  match (← MonadState.get).node? key with
  | none =>
    tally CacheMetrics.countMiss
    return none
  | some n => return some n

/-- The value of a key, counting a hit. -/
def get (key : κ) : Action (Cache κ α) (Outcome (Option α) α) := do
  match ← seek key with
  | none => return { result := none }
  | some n =>
    let freed ← hit n
    let e ← entry n
    return { result := some e.value, freed }

/-- Replace the value of a key by a function of it, counting a hit; the answer is the value
before. -/
def update (key : κ) (f : α → α) : Action (Cache κ α) (Outcome (Option α) α) := do
  match ← seek key with
  | none => return { result := none }
  | some n =>
    let freed ← hit n
    let e ← entry n
    store n { e with value := f e.value }
    return { result := some e.value, freed }

/-- The value of a key. No hit is counted. -/
def peek (c : Cache κ α) (key : κ) : Option α :=
  (c.node? key).bind fun n => (c.entries.get n).map (·.value)

/-- The key is cached. No hit is counted. -/
def contains (c : Cache κ α) (key : κ) : Bool := (c.node? key).isSome

/-- The generation that holds a key. No hit is counted. -/
def generationOf (c : Cache κ α) (key : κ) : Option Generation :=
  (c.node? key).bind fun n => (c.entries.get n).map (·.generation)

/-- Give a key a value; the answer is the value before. A cached key keeps its place, its generation
and its hits. A new key enters young, which may free the least recently used young entry. -/
def put (key : κ) (value : α) : Action (Cache κ α) (Outcome (Option α) α) := do
  let c ← MonadState.get
  match c.node? key with
  | some n =>
    tally (CacheMetrics.bump .updates)
    let e ← entry n
    store n { e with value }
    return { result := some e.value }
  | none =>
    let n ← allocate { key, value, hash := c.index.hasher key }
    unless ← enrol n do
      throw .keyAlreadyIndexed
    let freed ← enterYoung n
    tally (CacheMetrics.bump .insertions)
    gaugeSizes
    return { result := none, freed }

/-- Remove a key; the answer is the value it had. -/
def remove (key : κ) : Action (Cache κ α) (Outcome (Option α) α) := do
  match (← MonadState.get).node? key with
  | none => return { result := none }
  | some n =>
    let e ← extract n
    tally (CacheMetrics.bump .removals)
    gaugeSizes
    return { result := some e.value }

/-- Give a key a value, or remove it. -/
def set (key : κ) : Option α → Action (Cache κ α) (Outcome (Option α) α)
  | some value => put key value
  | none => remove key

/-- Remove every key. Capacity and lifetime counters are kept. -/
def clear : Action (Cache κ α) (Outcome Unit α) := do
  let freed ← freeContents
  modify fun c => { c with index := c.index.clear }
  gaugeSizes
  return { result := (), freed }

/-- The value of a key if it is still alive, counting a hit. A value that is gone is dropped with
its entry and counts as a miss. -/
def getLive (key : κ) (alive : α → Bool) : Action (Cache κ α) (Outcome (Option α) α) := do
  match ← seek key with
  | none => return { result := none }
  | some n =>
    let e ← entry n
    if alive e.value then
      let freed ← hit n
      return { result := some e.value, freed }
    else
      let e ← extract n
      tally CacheMetrics.countMiss
      tally (CacheMetrics.bump .expired)
      gaugeSizes
      return { result := none, freed := [e.value] }

/-- The number of cached keys. -/
def length (c : Cache κ α) : Nat := c.young.length + c.old.length

/-- The entries of a generation, from the most to the least recently used. -/
def contents (c : Cache κ α) (g : Generation) : List (Entry κ α) :=
  ((c.generation g).nodes c.links).filterMap c.entries.get

/-- The described shape of a cache. -/
def outline (c : Cache κ α) : Outline :=
  .record "GenerationalCache" [
    ("capacity", .number c.config.capacity.val),
    ("young", c.young.outline),
    ("old", c.old.outline),
    ("promotion_threshold", .number c.config.promotionThreshold.toNat)]

end Cache

end CachePool
