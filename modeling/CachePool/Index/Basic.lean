import CachePool.Index.Entry
import CachePool.Index.Hasher
import CachePool.Walk
import CachePool.Word

/-!
# Hash index over shared nodes

The index maps a key to the node whose entry carries it. Each bucket is a chain
threaded through the nodes; the chain links are kept beside the index, which
holds the heads of the chains. The bucket count is a power of two, so that the
bucket of a hash is selected by a mask.
-/

namespace CachePool

open Text

/-- The successor of each node in its bucket. -/
abbrev ChainTable := Table (Option NodeId)

/-- The least power of two that is not below a number. -/
def leastPowerOfTwo (n : Nat) : Nat := if n ≤ 1 then 1 else 1 <<< ((n - 1).log2 + 1)

/-- The bucket count for a request: the least power of two that suffices, or the largest one that
fits a machine word. -/
def bucketsFor (requested : Size) : Nat :=
  let count := leastPowerOfTwo requested.val
  if count < UInt64.size then count else 1 <<< 63

/-- The bucket count for a request as words compute it. -/
def bucketsWord (requested : Size) : UInt64 :=
  (Counter.nextPowerOfTwo? requested.toWord).getD ((1 : UInt64) <<< 63)

/-- The bucket of a hash as words compute it, selected by a mask that is one less than the bucket
count. The subtraction is checked. -/
def bucketWord (count hash : UInt64) : Except Fault UInt64 := do
  let mask ← Counter.subtract count 1
  return hash &&& mask

/-- A map from keys to nodes by chained buckets. -/
structure KeyIndex (κ : Type) where
  hasher : Hasher κ
  /-- The number of buckets, a power of two. -/
  bucketCount : Nat
  /-- The first node of each bucket. -/
  heads : Table (Option NodeId) := .empty
  /-- The number of nodes indexed. -/
  length : Nat := 0

namespace KeyIndex

variable {κ α : Type} [DecidableEq κ]

/-- An index without nodes. -/
def ofBuckets (buckets : Size) (hasher : Hasher κ) : KeyIndex κ :=
  { hasher, bucketCount := bucketsFor buckets }

/-- The bucket of a hash, selected by the low bits. -/
def bucketOf (index : KeyIndex κ) (hash : UInt64) : Nat :=
  hash.toNat &&& (index.bucketCount - 1)

/-- The nodes of a bucket, from the most to the least recently added. -/
def bucketNodes (index : KeyIndex κ) (chain : ChainTable) (bucket : Nat) : List NodeId :=
  follow chain.get index.length (index.heads.get bucket)

/-- The node carries the key under the hash. -/
def carries (entries : EntryTable κ α) (hash : UInt64) (key : κ) (n : NodeId) : Bool :=
  match entries.get n with
  | none => false
  | some e => e.hash = hash ∧ e.key = key

/-- The indexed node that carries a key under a hash. -/
def find? (index : KeyIndex κ) (chain : ChainTable) (entries : EntryTable κ α)
    (hash : UInt64) (key : κ) : Option NodeId :=
  (index.bucketNodes chain (index.bucketOf hash)).find? (carries entries hash key)

/-- The indexed node of a key. -/
def get? (index : KeyIndex κ) (chain : ChainTable) (entries : EntryTable κ α)
    (key : κ) : Option NodeId :=
  index.find? chain entries (index.hasher key) key

/-- Index a node, unless a node with the same hash and key is indexed already. -/
def insert (index : KeyIndex κ) (chain : ChainTable) (entries : EntryTable κ α)
    (n : NodeId) : Bool × KeyIndex κ × ChainTable :=
  match entries.get n with
  | none => (false, index, chain)
  | some e =>
    match index.find? chain entries e.hash e.key with
    | some _ => (false, index, chain)
    | none =>
      let bucket := index.bucketOf e.hash
      let chain := chain.set n (index.heads.get bucket)
      let index := { index with
        heads := index.heads.set bucket (some n), length := index.length + 1 }
      (true, index, chain)

/-- Take a node out of the bucket of its hash, if it is there. -/
def erase (index : KeyIndex κ) (chain : ChainTable) (entries : EntryTable κ α)
    (n : NodeId) : Bool × KeyIndex κ × ChainTable :=
  match entries.get n with
  | none => (false, index, chain)
  | some e =>
    let bucket := index.bucketOf e.hash
    let nodes := index.bucketNodes chain bucket
    let passed := nodes.takeWhile (· ≠ n)
    if passed.length = nodes.length then
      (false, index, chain)
    else
      let next := chain.get n
      let (heads, chain) := match passed.getLast? with
        | none => (index.heads.set bucket next, chain)
        | some p => (index.heads, chain.set p next)
      (true, { index with heads, length := index.length - 1 }, chain.set n none)

/-- Forget every node; the links of the nodes stay as they are. -/
def clear (index : KeyIndex κ) : KeyIndex κ :=
  { index with heads := .empty, length := 0 }

/-- The described shape of an index. -/
def outline (index : KeyIndex κ) : Outline :=
  .record "HashIndex" [("len", .number index.length), ("buckets", .number index.bucketCount)]

end KeyIndex

end CachePool
