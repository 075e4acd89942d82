import CachePool.Proofs.Pool.Shards

/-!
# Clients of a sharded pool

Clients make handles, copy them, and make calls through them. A call through a handle
visits the shard that the handle is bound to: it finds the one manager in some state,
and leaves it in another. The visits to a shard, taken alone, are served as by a pool
of its own that finds the manager in those states; no other call touches the shard.
-/

namespace CachePool

/-- A sharded pool with its manager, and the handles that were made, in order. -/
structure ShardClients (μ τ : Type) (shards : Size) where
  pool : ShardedPool τ shards
  manager : μ
  handles : List (Handle shards) := []

/-- A call of a client; handles are named by their position. -/
inductive ClientCall (τ : Type) where
  /-- Make a handle. -/
  | bind
  /-- Copy a handle. -/
  | copy (position : Nat)
  /-- Make a call through a handle. -/
  | through (position : Nat) (call : PoolCall τ)

/-- What a client is answered. -/
inductive ClientAnswer (τ : Type) (shards : Size) where
  | bound (h : Handle shards)
  | served (payload : Option τ)
  /-- There is no handle at the position. -/
  | notHeld

/-- The payload in an answer. -/
def ClientAnswer.payload? {τ : Type} {shards : Size} : ClientAnswer τ shards → Option τ
  | .served payload => payload
  | _ => none

namespace ShardClients

variable {μ τ ρ : Type} {shards : Size}

/-- Act on the pool and its manager. -/
def onPool (action : Action (ShardedPool τ shards × μ) ρ) : Action (ShardClients μ τ shards) ρ :=
  action.within (fun s => (s.pool, s.manager)) fun s (pool, manager) => { s with pool, manager }

/-- Keep one more handle. -/
def keep (h : Handle shards) : Action (ShardClients μ τ shards) (ClientAnswer τ shards) := do
  modify fun s => { s with handles := s.handles ++ [h] }
  return .bound h

/-- Do something with the handle at a position. -/
def withHandle (position : Nat)
    (action : Handle shards → Action (ShardClients μ τ shards) (ClientAnswer τ shards)) :
    Action (ShardClients μ τ shards) (ClientAnswer τ shards) := do
  match (← get).handles[position]? with
  | none => return .notHeld
  | some h => action h

/-- Make a call. -/
def perform (manager : Manager μ τ) :
    ClientCall τ → Action (ShardClients μ τ shards) (ClientAnswer τ shards)
  | .bind => do
    let (h, pool) := (← get).pool.handle
    modify fun s => { s with pool }
    keep h
  | .copy position => withHandle position keep
  | .through position call => withHandle position fun h => do
    let answer ← onPool (ShardedPool.perform manager (.through h call))
    return answer.elim .bound .served

/-- Make calls one after the other, each of which answers or stops at a fault. -/
def run (manager : Manager μ τ) (calls : List (ClientCall τ)) (s : ShardClients μ τ shards) :
    List (Except Fault (ClientAnswer τ shards)) × ShardClients μ τ shards :=
  Action.attemptAll (perform manager) calls s

variable (manager : Manager μ τ) (s : ShardClients μ τ shards) {position : Nat} {h : Handle shards}

theorem attempt_withHandle
    {action : Handle shards → Action (ShardClients μ τ shards) (ClientAnswer τ shards)}
    (hheld : s.handles[position]? = some h) :
    (withHandle position action).attempt s = (action h).attempt s := by
  rw [withHandle, Action.attempt, Action.get_bind]
  simp only [hheld]
  rfl

theorem attempt_withHandle_none
    {action : Handle shards → Action (ShardClients μ τ shards) (ClientAnswer τ shards)}
    (hheld : s.handles[position]? = none) :
    (withHandle position action).attempt s = (.ok .notHeld, s) := by
  rw [withHandle, Action.attempt, Action.get_bind]
  simp only [hheld]
  rfl

/-- To make a handle binds it to the next shard in turn. -/
theorem attempt_bind : (perform manager .bind).attempt s =
    (.ok (.bound s.pool.handle.1),
      { s with pool := s.pool.handle.2, handles := s.handles ++ [s.pool.handle.1] }) := rfl

/-- To copy a handle keeps one that is bound to the same shard. -/
theorem attempt_copy (hheld : s.handles[position]? = some h) :
    (perform manager (.copy position)).attempt s =
      (.ok (.bound h), { s with handles := s.handles ++ [h] }) := by
  rw [perform, attempt_withHandle s hheld]
  rfl

/-- A call without a handle does nothing. -/
theorem attempt_through_none (call : PoolCall τ) (hheld : s.handles[position]? = none) :
    (perform manager (.through position call)).attempt s = (.ok .notHeld, s) := by
  rw [perform, attempt_withHandle_none s hheld]

/-- A call through a handle is one to the pool of its shard. -/
theorem attempt_through (call : PoolCall τ) (hheld : s.handles[position]? = some h) :
    (perform manager (.through position call)).attempt s =
      (((Pool.perform manager call).attempt (s.pool.shard h, s.manager)).1.map .served,
        { s with
          pool := s.pool.putShard h
            ((Pool.perform manager call).attempt (s.pool.shard h, s.manager)).2.1
          manager := ((Pool.perform manager call).attempt (s.pool.shard h, s.manager)).2.2 }) := by
  rw [perform, attempt_withHandle s hheld, Action.attempt_bind_pure, onPool,
    Action.attempt_within, ShardedPool.attempt_through]
  cases ((Pool.perform manager call).attempt (s.pool.shard h, s.manager)).1 <;> rfl

/-- The outcome of a call through a handle is that of the call to the pool of its shard alone, and
every other pool is left as it was. -/
structure ActsAlone (manager : Manager μ τ) (h : Handle shards) (call : PoolCall τ)
    (s : ShardClients μ τ shards)
    (outcome : Except Fault (ClientAnswer τ shards) × ShardClients μ τ shards) : Prop where
  alone : ∃ answer, outcome.1 = answer.map .served ∧
    (Pool.perform manager call).attempt (s.pool.shard h, s.manager) =
      (answer, outcome.2.pool.shard h, outcome.2.manager)
  others : ∀ k ≠ h, outcome.2.pool.shard k = s.pool.shard k
  handles : outcome.2.handles = s.handles ∧ outcome.2.pool.bound = s.pool.bound

theorem actsAlone (call : PoolCall τ) (hheld : s.handles[position]? = some h) :
    ActsAlone manager h call s ((perform manager (.through position call)).attempt s) := by
  rw [attempt_through manager s call hheld]
  constructor
  · refine ⟨_, rfl, ?_⟩
    simp only [ShardedPool.shard_putShard, if_pos]
  · intro k hk
    simp only [ShardedPool.shard_putShard, if_neg hk]
  · exact ⟨rfl, rfl⟩

end ShardClients

/-- A call to a shard, with the states in which it found and left the manager. -/
structure Visit (μ τ : Type) (shards : Size) where
  shard : Handle shards
  call : PoolCall τ
  found : μ
  answer : Except Fault (Option τ)
  left : μ

namespace Visit

variable {μ τ : Type} {shards : Size}

/-- The call with the state of the manager that it found. -/
def request (v : Visit μ τ shards) : PoolCall τ × μ := (v.call, v.found)

/-- The answer with the state of the manager that was left. -/
def reply (v : Visit μ τ shards) : Except Fault (Option τ) × μ := (v.answer, v.left)

/-- The visits to one of the shards. -/
def toShard (k : Handle shards) (visits : List (Visit μ τ shards)) : List (Visit μ τ shards) :=
  visits.filter fun v => v.shard = k

end Visit

/-- Serve calls of which each finds the manager in a state of its own. -/
def Pool.serve {μ τ : Type} (manager : Manager μ τ) :
    List (PoolCall τ × μ) → Pool τ → List (Except Fault (Option τ) × μ) × Pool τ :=
  answerAll fun (call, m) p =>
    let (answer, p, m) := (perform manager call).attempt (p, m)
    ((answer, m), p)

/-- The first call is served, and then the others. -/
theorem Pool.serve_cons {μ τ : Type} {manager : Manager μ τ} {call : PoolCall τ} {p q : Pool τ}
    {m m' : μ} {answer : Except Fault (Option τ)}
    (h : (perform manager call).attempt (p, m) = (answer, q, m')) (rest : List (PoolCall τ × μ)) :
    serve manager ((call, m) :: rest) p =
      ((answer, m') :: (serve manager rest q).1, (serve manager rest q).2) := by
  simp only [serve, answerAll, h]

namespace ShardClients

variable {μ τ : Type} {shards : Size} (manager : Manager μ τ)

/-- The visit that a call makes to a shard, if it makes one. -/
def visit? (call : ClientCall τ) (s : ShardClients μ τ shards) : Option (Visit μ τ shards) :=
  match call with
  | .through position poolCall => s.handles[position]?.map fun shard =>
    let (answer, after) := (perform manager call).attempt s
    { shard
      call := poolCall
      found := s.manager
      answer := answer.map ClientAnswer.payload?
      left := after.manager }
  | _ => none

/-- The visits that calls make to the shards, in order. -/
def visits : List (ClientCall τ) → ShardClients μ τ shards → List (Visit μ τ shards)
  | [], _ => []
  | call :: rest, s =>
    (visit? manager call s).toList ++ visits rest ((perform manager call).attempt s).2

/-- A call that visits no shard leaves the manager and every shard alone. -/
theorem attempt_of_visit?_none {call : ClientCall τ} {s : ShardClients μ τ shards}
    (h : visit? manager call s = none) :
    ((perform manager call).attempt s).2.manager = s.manager ∧
      ∀ k, ((perform manager call).attempt s).2.pool.shard k = s.pool.shard k := by
  cases call with
  | bind =>
    rw [attempt_bind]
    exact ⟨rfl, fun _ => rfl⟩
  | copy position =>
    cases hheld : s.handles[position]? with
    | none =>
      rw [perform, attempt_withHandle_none s hheld]
      exact ⟨rfl, fun _ => rfl⟩
    | some h =>
      rw [attempt_copy manager s hheld]
      exact ⟨rfl, fun _ => rfl⟩
  | through position call =>
    have hheld := Option.map_eq_none_iff.mp h
    rw [attempt_through_none manager s call hheld]
    exact ⟨rfl, fun _ => rfl⟩

/-- A call that visits a shard is a call to its pool, and leaves every other shard alone. -/
theorem attempt_of_visit?_some {call : ClientCall τ} {s : ShardClients μ τ shards}
    {v : Visit μ τ shards} (h : visit? manager call s = some v) :
    (Pool.perform manager v.call).attempt (s.pool.shard v.shard, v.found) =
        (v.answer, ((perform manager call).attempt s).2.pool.shard v.shard, v.left) ∧
      ∀ k ≠ v.shard, ((perform manager call).attempt s).2.pool.shard k = s.pool.shard k := by
  cases call with
  | bind => cases h
  | copy position => cases h
  | through position call =>
    obtain ⟨k, hheld, rfl⟩ := Option.map_eq_some_iff.mp h
    obtain ⟨⟨answer, hanswer, halone⟩, hothers, -⟩ := actsAlone manager s call hheld
    refine ⟨?_, hothers⟩
    rw [halone]
    simp only [hanswer]
    cases answer <;> rfl

/-- Every shard serves the visits to it as a pool of its own does. -/
theorem serve_visits (calls : List (ClientCall τ)) (s : ShardClients μ τ shards)
    (k : Handle shards) :
    Pool.serve manager ((Visit.toShard k (visits manager calls s)).map Visit.request)
        (s.pool.shard k) =
      ((Visit.toShard k (visits manager calls s)).map Visit.reply,
        (run manager calls s).2.pool.shard k) := by
  induction calls generalizing s with
  | nil => rfl
  | cons call calls ih =>
    have hrest := ih ((perform manager call).attempt s).2
    rw [visits]
    cases hvisit : visit? manager call s with
    | none =>
      obtain ⟨-, hshards⟩ := attempt_of_visit?_none manager hvisit
      rw [hshards] at hrest
      exact hrest
    | some v =>
      obtain ⟨hserved, hshards⟩ := attempt_of_visit?_some manager hvisit
      simp only [Option.toList_some, List.singleton_append, Visit.toShard] at hrest ⊢
      by_cases hk : v.shard = k
      · obtain rfl := hk
        rw [List.filter_cons_of_pos (by simp), List.map_cons, Visit.request,
          Pool.serve_cons hserved, hrest]
        rfl
      · rw [hshards k (Ne.symm hk)] at hrest
        rw [List.filter_cons_of_neg (by simpa using hk)]
        exact hrest

end ShardClients

end CachePool
