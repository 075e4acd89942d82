import CachePool.Fault
import CachePool.Text.Outline

/-!
# Managers of pooled payloads

A manager owns the life of the payloads of a pool: it builds them, judges whether
they can be handed out again, readies them for being parked and disposes of them.
Its hooks act on a state of its own and can fail at any call; only `create` and
the end of a payload have to be supplied. A hook that fails stops the operation
that ran it, and a payload that was in flight then ends.
-/

namespace CachePool

open Text

/-- The hooks for payloads `τ`, acting on a state `μ`. -/
structure Manager (μ τ : Type) where
  /-- Build a payload. -/
  create : Action μ τ
  /-- What happens when a payload ends. -/
  drop : τ → μ → μ
  /-- A parked payload can be handed out. -/
  canReuse : τ → Action μ Bool := fun _ => pure true
  /-- Ready a payload for being parked, if that is possible. -/
  prepare : τ → Action μ (Bool × τ) := fun payload => pure (true, payload)
  /-- Dispose of a payload that the pool does not keep. -/
  destroy : τ → Action μ Unit := fun payload => modify (drop payload)

namespace Manager

/-- The manager that takes every payload for reusable and disposes of it by ending it. -/
def ofFactory {μ τ : Type} (create : Action μ τ) (drop : τ → μ → μ) : Manager μ τ :=
  { create, drop }

/-- Run a hook beside a state that it does not see. -/
def ask {μ π ρ : Type} (hook : Action μ ρ) : Action (π × μ) ρ :=
  hook.within (·.2) fun (s, _) m => (s, m)

/-- Run a hook on a payload in flight; if the hook fails, the payload ends. -/
def askAbout {μ τ π ρ : Type} (manager : Manager μ τ) (payload : τ) (hook : τ → Action μ ρ) :
    Action (π × μ) ρ := fun (s, m) =>
  match hook payload m with
  | .ok answer m => .ok answer (s, m)
  | .error fault m => .error fault (s, manager.drop payload m)

/-- The described shape of a manager that was made from a factory. -/
def factoryOutline : Outline := .closed "FnManager"

end Manager

end CachePool
