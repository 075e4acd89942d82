import CachePool.Pool.Config
import CachePool.Pool.Counts
import CachePool.Pool.Manager
import CachePool.Pool.Stack
import CachePool.Refusal

/-!
# Bounded pools of payloads

A pool parks payloads in a fixed set of nodes. Each node lies on one of two
stacks: the free stack holds nodes without a payload, the occupied stack nodes
with one. A request takes the most recently parked payload that the manager
accepts, and a shortage is met by building a new one. A returned payload is
parked if it can be made ready and a node is free, and destroyed otherwise.

The state of an operation is the pool together with the state of its manager.
-/

namespace CachePool

open Text

/-- A pool of payloads. -/
structure Pool (τ : Type) where
  /-- The number of nodes, which bounds the payloads parked. -/
  capacity : Size
  /-- The nodes without a payload. -/
  free : ClaimStack
  /-- The nodes that hold a payload. -/
  occupied : ClaimStack := {}
  /-- The successor of each node on its stack. -/
  tails : TailTable
  /-- The payload of each node. -/
  slots : Table (Option τ) := .empty
  /-- The number of payloads parked. -/
  idle : UInt64 := 0
  /-- What was counted so far. -/
  stats : PoolCounts := {}

namespace Pool

variable {μ τ : Type}

/-- A pool with all its nodes on the free stack, the last one on top. -/
def ofCapacity (capacity : Size) : Pool τ where
  capacity
  free := { head := .node (capacity.val - 1) }
  tails := .ofList ((List.range capacity.val).map fun n => if n = 0 then none else some (n - 1))

/-- A pool of a configuration. -/
def ofConfig (config : PoolConfig) : Pool τ := ofCapacity config.capacity

/-- A pool of a number of nodes, unless that is zero. -/
def withCapacity (capacity : Nat) : Except Refusal (Pool τ) :=
  match Size.ofNat? capacity with
  | none => .error .zeroCapacity
  | some capacity => .ok (ofCapacity capacity)

/-- Count an event; the counters wrap around. -/
def count (event : PoolCounts → PoolCounts) : Action (Pool τ × μ) Unit :=
  modify fun (p, m) => ({ p with stats := event p.stats }, m)

/-- Put a node on the free stack. -/
def pushFree (n : NodeId) : Action (Pool τ × μ) Unit := fun (p, m) =>
  match p.free.push p.tails n with
  | .ok (free, tails) => .ok () ({ p with free, tails }, m)
  | .error fault => .error fault (p, m)

/-- Put a node on the occupied stack. -/
def pushOccupied (n : NodeId) : Action (Pool τ × μ) Unit := fun (p, m) =>
  match p.occupied.push p.tails n with
  | .ok (occupied, tails) => .ok () ({ p with occupied, tails }, m)
  | .error fault => .error fault (p, m)

/-- Take a node off the free stack. -/
def popFree : Action (Pool τ × μ) (Option NodeId) := fun (p, m) =>
  match p.free.pop p.tails with
  | .ok (n, free, tails) => .ok n ({ p with free, tails }, m)
  | .error fault => .error fault (p, m)

/-- Take a node off the occupied stack. -/
def popOccupied : Action (Pool τ × μ) (Option NodeId) := fun (p, m) =>
  match p.occupied.pop p.tails with
  | .ok (n, occupied, tails) => .ok n ({ p with occupied, tails }, m)
  | .error fault => .error fault (p, m)

/-- Put a payload into a node, or none; the answer is what the node held before. -/
def exchange (n : NodeId) (payload : Option τ) : Action (Pool τ × μ) (Option τ) := fun (p, m) =>
  .ok (p.slots.get n) ({ p with slots := p.slots.set n payload }, m)

/-- Dispose of a payload that is not kept. -/
def discard (manager : Manager μ τ) (payload : τ) : Action (Pool τ × μ) Unit := do
  count fun s => { s with destroyed := s.destroyed + 1 }
  manager.askAbout payload manager.destroy

/-- Build a payload because none is parked. -/
def build (manager : Manager μ τ) : Action (Pool τ × μ) τ := do
  count fun s => { s with creates := s.creates + 1 }
  Manager.ask manager.create

/-- Hand out the first parked payload that the manager accepts, out of at most the given number,
and destroy those before it; build one if there is none. -/
def acquireParked (manager : Manager μ τ) : Nat → Action (Pool τ × μ) τ
  | 0 => build manager
  | fuel + 1 => do
    match ← popOccupied with
    | none => build manager
    | some n =>
      modify fun (p, m) => ({ p with idle := p.idle - 1 }, m)
      let payload ← exchange n none
      pushFree n
      match payload with
      | none => throw .occupiedNodeVacant
      | some payload =>
        if ← manager.askAbout payload manager.canReuse then
          return payload
        else
          discard manager payload
          acquireParked manager fuel

/-- Ask for a payload. -/
def acquire (manager : Manager μ τ) : Action (Pool τ × μ) τ := do
  count fun s => { s with acquires := s.acquires + 1 }
  let (p, _) ← get
  acquireParked manager p.capacity.val

/-- Park a payload that is ready, or destroy it if no node is free. -/
def park (manager : Manager μ τ) (payload : τ) : Action (Pool τ × μ) Unit := do
  match ← popFree with
  | none => discard manager payload
  | some n =>
    modify fun (p, m) => ({ p with idle := p.idle + 1 }, m)
    if (← exchange n (some payload)).isSome then
      throw .freeNodeOccupied
    pushOccupied n

/-- Hand a payload back. -/
def release (manager : Manager μ τ) (payload : τ) : Action (Pool τ × μ) Unit := do
  count fun s => { s with releases := s.releases + 1 }
  let (ready, payload) ← manager.askAbout payload manager.prepare
  if ready then
    park manager payload
  else
    discard manager payload

/-- Destroy the parked payloads, at most the given number. -/
def drainParked (manager : Manager μ τ) : Nat → Action (Pool τ × μ) Unit
  | 0 => return ()
  | fuel + 1 => do
    match ← popOccupied with
    | none => return ()
    | some n =>
      match ← exchange n none with
      | none => drainParked manager fuel
      | some payload =>
        discard manager payload
        drainParked manager fuel

/-- End a pool: every parked payload is destroyed, the most recently parked first. -/
def drain (manager : Manager μ τ) : Action (Pool τ × μ) Unit := do
  let (p, _) ← get
  drainParked manager p.capacity.val

/-- The payloads parked, the most recently parked first. -/
def parked (p : Pool τ) : List τ :=
  let top := match p.occupied.head with
    | .node n => some n
    | _ => none
  (follow p.tails.get p.capacity.val top).filterMap p.slots.get

/-- The described shape of a pool. -/
def outline (p : Pool τ) : Outline :=
  .record "Pool" [
    ("capacity", .number p.capacity.val),
    ("idle", .number p.idle.toNat),
    ("stats", p.stats.outline)]

end Pool

end CachePool
