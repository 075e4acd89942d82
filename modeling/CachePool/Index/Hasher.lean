/-!
# Hash functions on texts

A text is hashed through its UTF-8 bytes, closed by a byte that no text contains,
so that no text is hashed like the beginning of another.
-/

namespace CachePool

/-- A function from keys to machine words. -/
abbrev Hasher (κ : Type) := κ → UInt64

namespace Hasher

/-- The bytes that are hashed for a text. -/
def bytes (s : String) : List UInt8 := s.toUTF8.toList ++ [0xFF]

/-- Fold each byte in by exclusive or, then multiply. -/
def fnv : Hasher String := fun s =>
  (bytes s).foldl (fun hash byte => (hash ^^^ byte.toUInt64) * 0x100000001b3) 0xcbf29ce484222325

/-- Add up the bytes. -/
def byteSum : Hasher String := fun s =>
  (bytes s).foldl (fun hash byte => hash + byte.toUInt64) 0

/-- Hash every key alike. -/
def constant {κ : Type} (hash : UInt64) : Hasher κ := fun _ => hash

end Hasher

end CachePool
