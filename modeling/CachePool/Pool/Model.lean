import CachePool.Pool.Basic

/-!
# The rules of a pool on a plain list

The rules of the pool without nodes and stacks: the parked payloads are a list,
the most recently parked first, no longer than the capacity. The manager and the
counters are those of the pool, and hooks fail at the same points. The pool and
the model are two accounts of the same behaviour.
-/

namespace CachePool

/-- The parked payloads as a list, the most recently parked first. -/
structure PoolModel (τ : Type) where
  capacity : Nat
  parked : List τ := []
  stats : PoolCounts := {}

namespace PoolModel

variable {μ τ : Type}

/-- The empty model of a pool. -/
def ofCapacity (capacity : Size) : PoolModel τ := { capacity := capacity.val }

/-- Count an event. -/
def count (event : PoolCounts → PoolCounts) : Action (PoolModel τ × μ) Unit :=
  modify fun (p, m) => ({ p with stats := event p.stats }, m)

/-- Replace the parked payloads. -/
def setParked (parked : List τ) : Action (PoolModel τ × μ) Unit :=
  modify fun (p, m) => ({ p with parked }, m)

/-- Dispose of a payload that is not kept. -/
def discard (manager : Manager μ τ) (payload : τ) : Action (PoolModel τ × μ) Unit := do
  count fun s => { s with destroyed := s.destroyed + 1 }
  manager.askAbout payload manager.destroy

/-- Hand out the first of the parked payloads that the manager accepts, destroy those before it,
and build a payload if there is none. -/
def acquireParked (manager : Manager μ τ) : List τ → Action (PoolModel τ × μ) τ
  | [] => do
    count fun s => { s with creates := s.creates + 1 }
    Manager.ask manager.create
  | payload :: rest => do
    setParked rest
    if ← manager.askAbout payload manager.canReuse then
      return payload
    else
      discard manager payload
      acquireParked manager rest

/-- Ask for a payload. -/
def acquire (manager : Manager μ τ) : Action (PoolModel τ × μ) τ := do
  count fun s => { s with acquires := s.acquires + 1 }
  let (p, _) ← get
  acquireParked manager p.parked

/-- Hand a payload back: it is parked if it is ready and there is room, and destroyed otherwise. -/
def release (manager : Manager μ τ) (payload : τ) : Action (PoolModel τ × μ) Unit := do
  count fun s => { s with releases := s.releases + 1 }
  let (ready, payload) ← manager.askAbout payload manager.prepare
  let (p, _) ← get
  if ready && p.parked.length < p.capacity then
    setParked (payload :: p.parked)
  else
    discard manager payload

/-- End a pool: every parked payload is destroyed, the most recently parked first. -/
def drain (manager : Manager μ τ) : Action (PoolModel τ × μ) Unit := do
  let (p, _) ← get
  p.parked.forM fun payload => discard manager payload

end PoolModel

end CachePool
