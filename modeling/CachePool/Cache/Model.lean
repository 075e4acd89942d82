import CachePool.Cache.Operation

/-!
# The rules of a two-generation cache on plain lists

The rules of the cache without nodes, links or hashes: each generation is a list
of items, the most recently used first. A step of the model gives the outcome of
a call, the counters that the call raises and the model after it. The linked
cache and the model are two accounts of the same behaviour.
-/

namespace CachePool

open Metrics

/-- A cached key as its generation shows it. -/
structure Item (κ α : Type) where
  key : κ
  value : α
  /-- The hits since the item entered the young generation. -/
  hits : Nat := 0

/-- The generations of a cache as lists, the most recently used item first. -/
structure CacheModel (κ α : Type) where
  youngCapacity : Nat
  oldCapacity : Nat
  /-- The hits that promote a young item. -/
  threshold : Nat
  young : List (Item κ α) := []
  old : List (Item κ α) := []

namespace CacheModel

variable {κ α : Type} [DecidableEq κ]

/-- What a call does to a model. -/
structure Step (κ α : Type) where
  outcome : Outcome (Answer α) α
  /-- The lifetime counters that the call raises, in order. -/
  raised : List Counter := []
  next : CacheModel κ α

/-- The empty model of a configuration. -/
def ofConfig (config : CacheConfig) : CacheModel κ α where
  youngCapacity := config.youngCapacity.val
  oldCapacity := config.oldCapacity.val
  threshold := config.promotionThreshold.toNat

/-- The item of a key in a generation. -/
def itemOf (items : List (Item κ α)) (key : κ) : Option (Item κ α) :=
  items.find? fun i => i.key = key

/-- A generation without a key. -/
def without (items : List (Item κ α)) (key : κ) : List (Item κ α) :=
  items.eraseP fun i => i.key = key

/-- A generation with the value of a key replaced by a function of it. -/
def revise (items : List (Item κ α)) (key : κ) (f : α → α) : List (Item κ α) :=
  items.map fun i => if i.key = key then { i with value := f i.value } else i

/-- The value of a key. -/
def value? (m : CacheModel κ α) (key : κ) : Option α :=
  (itemOf (m.young ++ m.old) key).map (·.value)

/-- The generation of a key. -/
def generationOf (m : CacheModel κ α) (key : κ) : Option Generation :=
  if (itemOf m.young key).isSome then some .young
  else if (itemOf m.old key).isSome then some .old
  else none

/-- Move an item that left young to the front of old; what overflows goes to the front of young
and counts its hits anew. -/
def promote (m : CacheModel κ α) (item : Item κ α) : List Counter × CacheModel κ α :=
  let old := { item with hits := 0 } :: m.old
  if old.length ≤ m.oldCapacity then
    ([.promotions], { m with old })
  else
    let demoted := old.getLast?.toList.map fun i => { i with hits := 0 }
    ([.promotions, .demotions], { m with young := demoted ++ m.young, old := old.dropLast })

/-- Look a key up: count a hit or a miss, and refresh or promote what was hit. -/
def hit (m : CacheModel κ α) (key : κ) : List Counter × CacheModel κ α :=
  match itemOf m.young key with
  | some item =>
    let left := { m with young := without m.young key }
    if item.hits + 1 < m.threshold then
      ([.requests, .cacheHits, .youngHits],
        { left with young := { item with hits := item.hits + 1 } :: left.young })
    else
      let (raised, next) := left.promote item
      ([.requests, .cacheHits, .youngHits] ++ raised, next)
  | none =>
    match itemOf m.old key with
    | some item =>
      ([.requests, .cacheHits, .oldHits], { m with old := item :: without m.old key })
    | none => ([.requests], m)

/-- Replace the value of a key by a function of it, in its place. -/
def write (m : CacheModel κ α) (key : κ) (f : α → α) : CacheModel κ α :=
  { m with young := revise m.young key f, old := revise m.old key f }

/-- Take a key out. -/
def erase (m : CacheModel κ α) (key : κ) : CacheModel κ α :=
  { m with young := without m.young key, old := without m.old key }

/-- Put a new key to the front of young and free what overflows. -/
def insert (m : CacheModel κ α) (key : κ) (value : α) : Step κ α :=
  let young := { key, value } :: m.young
  if young.length ≤ m.youngCapacity then
    { outcome := { result := .value none }
      raised := [.insertions]
      next := { m with young } }
  else
    { outcome := { result := .value none, freed := young.getLast?.toList.map (·.value) }
      raised := [.evictions, .insertions]
      next := { m with young := young.dropLast } }

/-- Give a key a value. -/
def put (m : CacheModel κ α) (key : κ) (value : α) : Step κ α :=
  match m.value? key with
  | some before =>
    { outcome := { result := .value (some before) }
      raised := [.updates]
      next := m.write key fun _ => value }
  | none => m.insert key value

/-- Remove a key. -/
def remove (m : CacheModel κ α) (key : κ) : Step κ α :=
  match m.value? key with
  | some before =>
    { outcome := { result := .value (some before) }
      raised := [.removals]
      next := m.erase key }
  | none => { outcome := { result := .value none }, next := m }

/-- Look a key up and read its value, unless that is gone. -/
def getLive (m : CacheModel κ α) (key : κ) (alive : α → Bool) : Step κ α :=
  match m.value? key with
  | some value =>
    if alive value then
      let (raised, next) := m.hit key
      { outcome := { result := .value (some value) }, raised, next }
    else
      { outcome := { result := .value none, freed := [value] }
        raised := [.requests, .expired]
        next := m.erase key }
  | none => { outcome := { result := .value none }, raised := [.requests], next := m }

/-- All values in the order in which they are freed: young before old, the least recently used
first. -/
def ending (m : CacheModel κ α) : List α :=
  (m.young.reverse ++ m.old.reverse).map (·.value)

/-- Perform a call. -/
def step (m : CacheModel κ α) : Operation κ α → Step κ α
  | .get key =>
    let (raised, next) := m.hit key
    { outcome := { result := .value (m.value? key) }, raised, next }
  | .update key f =>
    let (raised, next) := m.hit key
    { outcome := { result := .value (m.value? key) }, raised, next := next.write key f }
  | .getLive key alive => m.getLive key alive
  | .peek key => { outcome := { result := .value (m.value? key) }, next := m }
  | .contains key => { outcome := { result := .found (m.value? key).isSome }, next := m }
  | .generationOf key => { outcome := { result := .generation (m.generationOf key) }, next := m }
  | .put key value => m.put key value
  | .set key (some value) => m.put key value
  | .set key none => m.remove key
  | .remove key => m.remove key
  | .clear =>
    { outcome := { result := .done, freed := m.ending }, next := { m with young := [], old := [] } }

/-- The steps of a history, and the model after it. -/
def run (m : CacheModel κ α) : List (Operation κ α) → List (Step κ α) × CacheModel κ α
  | [] => ([], m)
  | op :: rest =>
    let s := m.step op
    let (steps, last) := run s.next rest
    (s :: steps, last)

end CacheModel

end CachePool
