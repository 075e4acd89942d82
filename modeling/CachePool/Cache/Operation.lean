import CachePool.Cache.Basic

/-!
# Operations and histories of a cache

Every call that a client can make on a cache, as a value, with its answer. A run
performs operations one after the other; a fault in one of them does not end the
run, which goes on from the state that the fault left behind.
-/

namespace CachePool

/-- A call on a cache. -/
inductive Operation (κ α : Type) where
  | get (key : κ)
  | update (key : κ) (f : α → α)
  | getLive (key : κ) (alive : α → Bool)
  | peek (key : κ)
  | contains (key : κ)
  | generationOf (key : κ)
  | put (key : κ) (value : α)
  | set (key : κ) (value : Option α)
  | remove (key : κ)
  | clear

/-- What a call answers. -/
inductive Answer (α : Type) where
  | value (v : Option α)
  | found (present : Bool)
  | generation (g : Option Generation)
  | done

/-- The outcome with its result replaced by a function of it. -/
def Outcome.map {ρ σ α : Type} (f : ρ → σ) (o : Outcome ρ α) : Outcome σ α :=
  { result := f o.result, freed := o.freed }

namespace Cache

variable {κ α : Type} [DecidableEq κ]

/-- Perform a call. -/
def perform : Operation κ α → Action (Cache κ α) (Outcome (Answer α) α)
  | .get key => Outcome.map .value <$> get key
  | .update key f => Outcome.map .value <$> update key f
  | .getLive key alive => Outcome.map .value <$> getLive key alive
  | .peek key => return { result := .value ((← MonadState.get).peek key) }
  | .contains key => return { result := .found ((← MonadState.get).contains key) }
  | .generationOf key => return { result := .generation ((← MonadState.get).generationOf key) }
  | .put key value => Outcome.map .value <$> put key value
  | .set key value => Outcome.map .value <$> set key value
  | .remove key => Outcome.map .value <$> remove key
  | .clear => Outcome.map (fun _ => .done) <$> clear

/-- The outcome of a call, and the state that it leaves behind. -/
def step (c : Cache κ α) (op : Operation κ α) :
    Except Fault (Outcome (Answer α) α) × Cache κ α :=
  (perform op).attempt c

/-- The outcomes of a history, and the state after it. -/
def run (c : Cache κ α) :
    List (Operation κ α) → List (Except Fault (Outcome (Answer α) α)) × Cache κ α
  | [] => ([], c)
  | op :: rest =>
    let (outcome, c) := c.step op
    let (outcomes, c) := run c rest
    (outcome :: outcomes, c)

end Cache

end CachePool
