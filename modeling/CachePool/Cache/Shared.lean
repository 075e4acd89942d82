import CachePool.Cache.Operation

/-!
# Caches behind a lock

A shared cache holds a cache behind a lock. Every call takes the lock for exactly
one operation, so that no client sees a promotion or an eviction half done, and
clients that need more than a copy of a value hand in a function.
-/

namespace CachePool

open Text

/-- A cache that several clients share. -/
structure SharedCache (κ α : Type) where
  /-- The cache behind the lock. -/
  inner : Cache κ α

namespace SharedCache

variable {κ α ρ : Type} [DecidableEq κ]

/-- Perform one operation under the lock. -/
def locked (operation : Action (Cache κ α) ρ) : Action (SharedCache κ α) ρ :=
  operation.within (·.inner) fun s inner => { s with inner }

/-- Look at the cache under the lock. -/
def inspect (view : Cache κ α → ρ) : Action (SharedCache κ α) ρ :=
  locked (view <$> MonadState.get)

/-- What a function says of the value of a key, counting a hit. -/
def getWith (key : κ) (f : α → ρ) : Action (SharedCache κ α) (Outcome (Option ρ) α) :=
  locked (Outcome.map (Option.map f) <$> Cache.get key)

/-- What a function says of the value of a key while it replaces it, counting a hit. -/
def updateWith (key : κ) (f : α → ρ × α) : Action (SharedCache κ α) (Outcome (Option ρ) α) :=
  locked (Outcome.map (Option.map fun v => (f v).1) <$> Cache.update key fun v => (f v).2)

/-- The name under which a shared cache reports. -/
def policyName : String := "SyncGenerational"

/-- The described shape of a shared cache. -/
def outline (s : SharedCache κ α) : Outline :=
  .record "SyncGenerationalCache" [
    ("capacity", .number s.inner.config.capacity.val),
    ("len", .number s.inner.length)]

end SharedCache

end CachePool
