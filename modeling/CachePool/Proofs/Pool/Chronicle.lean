import CachePool.Proofs.Pool.Refinement
import CachePool.Proofs.Projection

/-!
# Chronicles of a pool

To follow single payloads through a pool, it is run on numbered ones. Each entry of a
payload into the pool, by being built or by being released, gives it the next number,
and a manager that notes what its hooks do passes every call on to the manager of the
plain payloads. The pool cannot tell the difference: without the numbers and the notes,
a chronicled run is the run on plain payloads, node by node.
-/

namespace CachePool

/-- A payload under the number of its latest entry into a pool. -/
structure Numbered (τ : Type) where
  payload : τ
  number : Nat

/-- What a manager notes. -/
inductive PoolEvent (τ : Type) where
  /-- A hook answered, favourably or not, about a payload, in the state in which it left it. -/
  | answered (hook : Hook) (x : Numbered τ) (verdict : Bool)
  /-- A hook gave up, on a payload in flight unless it was to build one. -/
  | failed (hook : Hook) (x : Option (Numbered τ)) (fault : Fault)
  /-- A payload in flight ended, because a hook had given up on it. -/
  | ended (x : Numbered τ)

/-- The state of a manager that numbers payloads and takes notes. -/
structure Chronicle (μ τ : Type) where
  /-- The state of the manager of the plain payloads. -/
  manager : μ
  /-- The number for the next payload that enters. -/
  entered : Nat := 0
  /-- What was noted during the call under way. -/
  events : List (PoolEvent τ) := []

variable {μ τ : Type}

/-- Note an event, which leads to another state of the manager. -/
def Chronicle.note (c : Chronicle μ τ) (manager : μ) (event : PoolEvent τ) : Chronicle μ τ :=
  { c with manager, events := c.events ++ [event] }

namespace Manager

variable {ρ ρ' : Type}

/-- Call a hook and note what it did; its answer is adapted to numbered payloads. -/
def observe (hook : Hook) (inFlight : Option (Numbered τ)) (call : Action μ ρ) (adapt : ρ → ρ')
    (event : ρ → PoolEvent τ) : Action (Chronicle μ τ) ρ' := fun c =>
  match call c.manager with
  | .ok answer manager => .ok (adapt answer) (c.note manager (event answer))
  | .error fault manager => .error fault (c.note manager (.failed hook inFlight fault))

/-- The manager that numbers the payloads it builds and notes what its hooks do. -/
def observed (manager : Manager μ τ) : Manager (Chronicle μ τ) (Numbered τ) where
  create := do
    let number := (← get).entered
    let x ← observe .create none manager.create (Numbered.mk · number)
      fun payload => .answered .create ⟨payload, number⟩ true
    modify fun c => { c with entered := number + 1 }
    return x
  drop x c := c.note (manager.drop x.payload c.manager) (.ended x)
  canReuse x := observe .canReuse (some x) (manager.canReuse x.payload) id (.answered .canReuse x)
  prepare x := observe .prepare (some x) (manager.prepare x.payload)
    (fun (ready, payload) => (ready, { x with payload }))
    fun (ready, payload) => .answered .prepare { x with payload } ready
  destroy x := observe .destroy (some x) (manager.destroy x.payload) id
    fun _ => .answered .destroy x true

end Manager

/-- The payload of a release enters under a number. -/
def PoolCall.numbered (number : Nat) : PoolCall τ → PoolCall (Numbered τ)
  | .acquire => .acquire
  | .release payload => .release ⟨payload, number⟩

/-- How many payloads enter with a call itself. -/
def PoolCall.entries : PoolCall τ → Nat
  | .acquire => 0
  | .release _ => 1

/-- Turn to a fresh page for a call. -/
def Chronicle.turn (c : Chronicle μ τ) (call : PoolCall τ) : Chronicle μ τ :=
  { c with entered := c.entered + call.entries, events := [] }

/-- A call to a pool with its answer, or the fault that stopped it, and what was noted during it. -/
structure PoolRecord (τ : Type) where
  call : PoolCall (Numbered τ)
  answer : Except Fault (Option (Numbered τ))
  events : List (PoolEvent τ)

/-- The answer without the number of its payload. -/
def PoolRecord.plain (r : PoolRecord τ) : Except Fault (Option τ) :=
  r.answer.map (Option.map Numbered.payload)

namespace Pool

/-- The pool that parks the images of the payloads in the same nodes. -/
def map {σ : Type} (f : σ → τ) (p : Pool σ) : Pool τ where
  capacity := p.capacity
  free := p.free
  occupied := p.occupied
  tails := p.tails
  slots := p.slots.map (Option.map f)
  idle := p.idle
  stats := p.stats

/-- A pool and its manager without the numbers and the notes. -/
def plain (s : Pool (Numbered τ) × Chronicle μ τ) : Pool τ × μ :=
  (s.1.map Numbered.payload, s.2.manager)

/-- Make a call on a fresh page and record it. -/
def record (manager : Manager μ τ) (call : PoolCall τ) (s : Pool (Numbered τ) × Chronicle μ τ) :
    PoolRecord τ × (Pool (Numbered τ) × Chronicle μ τ) :=
  let numbered := call.numbered s.2.entered
  let (answer, p, c) := (perform manager.observed numbered).attempt (s.1, s.2.turn call)
  ({ call := numbered, answer, events := c.events }, p, c)

/-- The records of calls to a new pool, and the state that they leave. -/
def chronicle (manager : Manager μ τ) (capacity : Size) (m : μ) (calls : List (PoolCall τ)) :
    List (PoolRecord τ) × (Pool (Numbered τ) × Chronicle μ τ) :=
  answerAll (record manager) calls (ofCapacity capacity, { manager := m })

end Pool

namespace Manager

variable {ρ ρ' : Type}

theorem projects_observe {hook : Hook} {inFlight : Option (Numbered τ)} {call : Action μ ρ}
    {adapt : ρ → ρ'} {event : ρ → PoolEvent τ} {rest : ρ' → ρ} (h : ∀ a, rest (adapt a) = a) :
    Action.Projects Chronicle.manager rest (observe hook inFlight call adapt event) call := by
  intro c
  cases hcall : call c.manager with
  | ok answer m =>
    simp only [observe, hcall, h]
    rfl
  | error fault m =>
    simp only [observe, hcall]
    rfl

/-- A hook that projects to one for plain payloads ends a payload in flight like that one. -/
theorem projects_askAbout (manager : Manager μ τ) {hook : Numbered τ → Action (Chronicle μ τ) ρ'}
    {plainHook : τ → Action μ ρ} {rest : ρ' → ρ} (x : Numbered τ)
    (h : Action.Projects Chronicle.manager rest (hook x) (plainHook x.payload)) :
    Action.Projects Pool.plain rest (manager.observed.askAbout x hook)
      (manager.askAbout x.payload plainHook) := by
  rintro ⟨p, c⟩
  cases hanswer : hook x c with
  | ok answer c' =>
    simp only [askAbout, Pool.plain, hanswer, h.ok hanswer]
  | error fault c' =>
    simp only [askAbout, Pool.plain, hanswer, h.error hanswer]
    rfl

variable {manager : Manager μ τ} {c : Chronicle μ τ} {m : μ} {fault : Fault}

/-- A payload that is built gets the next number. -/
theorem observed_create_ok {payload : τ} (h : manager.create c.manager = .ok payload m) :
    manager.observed.create c = .ok ⟨payload, c.entered⟩
      { c.note m (.answered .create ⟨payload, c.entered⟩ true) with entered := c.entered + 1 } := by
  simp only [observed, Action.get_bind]
  rw [Action.bind_ok (a := ⟨payload, c.entered⟩)]
  · rfl
  · simp only [observe, h]

theorem observed_create_error (h : manager.create c.manager = .error fault m) :
    manager.observed.create c = .error fault (c.note m (.failed .create none fault)) := by
  simp only [observed, Action.get_bind]
  rw [Action.bind_error]
  simp only [observe, h]

theorem projects_create (manager : Manager μ τ) :
    Action.Projects Pool.plain Numbered.payload (ask manager.observed.create)
      (ask manager.create) := by
  rintro ⟨p, c⟩
  cases hcreate : manager.create c.manager with
  | ok payload m =>
    simp only [ask, Action.within, Pool.plain, observed_create_ok hcreate, hcreate]
    rfl
  | error fault m =>
    simp only [ask, Action.within, Pool.plain, observed_create_error hcreate, hcreate]
    rfl

end Manager

namespace Pool

theorem projects_count (event : PoolCounts → PoolCounts) :
    Action.Projects (plain (μ := μ) (τ := τ)) id (count event) (count event) := fun _ => rfl

theorem projects_popOccupied :
    Action.Projects (plain (μ := μ) (τ := τ)) id popOccupied popOccupied := by
  rintro ⟨p, c⟩
  simp only [popOccupied, plain, map]
  cases p.occupied.pop p.tails <;> rfl

theorem projects_popFree : Action.Projects (plain (μ := μ) (τ := τ)) id popFree popFree := by
  rintro ⟨p, c⟩
  simp only [popFree, plain, map]
  cases p.free.pop p.tails <;> rfl

theorem projects_pushFree (n : NodeId) :
    Action.Projects (plain (μ := μ) (τ := τ)) id (pushFree n) (pushFree n) := by
  rintro ⟨p, c⟩
  simp only [pushFree, plain, map]
  cases p.free.push p.tails n <;> rfl

theorem projects_pushOccupied (n : NodeId) :
    Action.Projects (plain (μ := μ) (τ := τ)) id (pushOccupied n) (pushOccupied n) := by
  rintro ⟨p, c⟩
  simp only [pushOccupied, plain, map]
  cases p.occupied.push p.tails n <;> rfl

theorem projects_exchange (n : NodeId) (content : Option (Numbered τ)) :
    Action.Projects (plain (μ := μ)) (Option.map Numbered.payload) (exchange n content)
      (exchange n (content.map Numbered.payload)) := by
  rintro ⟨p, c⟩
  have hkeep : Option.map Numbered.payload (default : Option (Numbered τ)) = default := rfl
  simp only [exchange, plain, map, Table.get_map hkeep, Table.map_set hkeep]

theorem projects_discard (manager : Manager μ τ) (x : Numbered τ) :
    Action.Projects plain id (discard manager.observed x) (discard manager x.payload) :=
  (projects_count _).bind fun _ =>
    manager.projects_askAbout x (Manager.projects_observe fun _ => rfl)

theorem projects_build (manager : Manager μ τ) :
    Action.Projects plain Numbered.payload (build manager.observed) (build manager) :=
  (projects_count _).bind fun _ => manager.projects_create

/-- The rounds of an acquire hand out what they hand out on plain payloads. -/
theorem projects_acquireParked (manager : Manager μ τ) (fuel : Nat) :
    Action.Projects plain Numbered.payload (acquireParked manager.observed fuel)
      (acquireParked manager fuel) := by
  induction fuel with
  | zero => exact projects_build manager
  | succ fuel ih =>
    rw [acquireParked, acquireParked]
    refine projects_popOccupied.bind fun top => ?_
    cases top with
    | none => exact projects_build manager
    | some n =>
      dsimp only [id]
      refine Action.Projects.bind (Action.projects_modify ?_) fun _ => ?_
      · exact fun _ => rfl
      refine (projects_exchange n none).bind fun content => ?_
      refine (projects_pushFree n).bind fun _ => ?_
      cases content with
      | none => exact Action.projects_throw _
      | some x =>
        have hjudge : Action.Projects Chronicle.manager id (manager.observed.canReuse x)
            (manager.canReuse x.payload) := Manager.projects_observe fun _ => rfl
        refine (manager.projects_askAbout x hjudge).bind fun accepted => ?_
        cases accepted with
        | true => exact Action.projects_pure x
        | false => exact (projects_discard manager x).bind fun _ => ih

theorem projects_acquire (manager : Manager μ τ) :
    Action.Projects plain Numbered.payload (acquire manager.observed) (acquire manager) :=
  (projects_count _).bind fun _ => fun s => projects_acquireParked manager s.1.capacity.val s

theorem projects_park (manager : Manager μ τ) (x : Numbered τ) :
    Action.Projects plain id (park manager.observed x) (park manager x.payload) := by
  refine projects_popFree.bind fun top => ?_
  cases top with
  | none => exact projects_discard manager x
  | some n =>
    dsimp only [id]
    refine Action.Projects.bind (Action.projects_modify ?_) fun _ => ?_
    · exact fun _ => rfl
    refine (projects_exchange n (some x)).bind fun previous => ?_
    cases previous with
    | none => exact projects_pushOccupied n
    | some previous => exact fun _ => rfl

theorem projects_release (manager : Manager μ τ) (x : Numbered τ) :
    Action.Projects plain id (release manager.observed x) (release manager x.payload) := by
  have hprepare : Action.Projects Chronicle.manager (fun (ready, y) => (ready, y.payload))
      (manager.observed.prepare x) (manager.prepare x.payload) :=
    Manager.projects_observe fun _ => rfl
  refine (projects_count _).bind fun _ => (manager.projects_askAbout x hprepare).bind ?_
  rintro ⟨ready, y⟩
  cases ready with
  | true => exact projects_park manager y
  | false => exact projects_discard manager y

/-- A call is answered, or stops, as on plain payloads. -/
theorem projects_perform (manager : Manager μ τ) (call : PoolCall τ) (number : Nat) :
    Action.Projects plain (Option.map Numbered.payload)
      (perform manager.observed (call.numbered number)) (perform manager call) := by
  cases call with
  | acquire => exact (projects_acquire manager).bind fun x => Action.projects_pure (some x)
  | release payload =>
    exact (projects_release manager ⟨payload, number⟩).bind fun _ => Action.projects_pure none

/-- The end of a pool goes as on plain payloads. -/
theorem projects_drain (manager : Manager μ τ) :
    Action.Projects plain id (drain manager.observed) (drain manager) := by
  intro s
  have hdrain : ∀ fuel, Action.Projects plain id (drainParked manager.observed fuel)
      (drainParked manager fuel) := by
    intro fuel
    induction fuel with
    | zero => exact Action.projects_pure ()
    | succ fuel ih =>
      refine projects_popOccupied.bind fun top => ?_
      cases top with
      | none => exact Action.projects_pure ()
      | some n =>
        refine (projects_exchange n none).bind fun content => ?_
        cases content with
        | none => exact ih
        | some x => exact (projects_discard manager x).bind fun _ => ih
  exact hdrain s.1.capacity.val s

/-- A call on a fresh page is the call on plain payloads. -/
theorem attempt_plain (manager : Manager μ τ) (call : PoolCall τ)
    (s : Pool (Numbered τ) × Chronicle μ τ) :
    (perform manager call).attempt (plain s) =
      ((record manager call s).1.plain, plain (record manager call s).2) :=
  (projects_perform manager call s.2.entered).attempt (s.1, s.2.turn call)

/-- Calls are answered as their records say, and leave the pool and the manager of the chronicle. -/
theorem run_plain (manager : Manager μ τ) (calls : List (PoolCall τ))
    (s : Pool (Numbered τ) × Chronicle μ τ) :
    run manager calls (plain s) =
      ((answerAll (record manager) calls s).1.map PoolRecord.plain,
        plain (answerAll (record manager) calls s).2) := by
  induction calls generalizing s with
  | nil => rfl
  | cons call calls ih =>
    have hcalls := ih (record manager call s).2
    rw [run] at hcalls ⊢
    simp only [Action.attemptAll, attempt_plain, hcalls]
    rfl

/-- A new pool parks nothing that could be replaced. -/
theorem map_ofCapacity {σ : Type} (f : σ → τ) (capacity : Size) :
    (ofCapacity capacity).map f = ofCapacity capacity := by
  rw [map, ofCapacity, ofCapacity, Table.map_empty]

/-- A new pool is the same with or without numbers. -/
theorem plain_ofCapacity (capacity : Size) (m : μ) :
    plain (ofCapacity capacity, ({ manager := m } : Chronicle μ τ)) = (ofCapacity capacity, m) := by
  rw [plain, map_ofCapacity]

/-- The run of a new pool is its chronicle without the numbers and the notes. -/
theorem run_eq_chronicle (manager : Manager μ τ) (capacity : Size) (m : μ)
    (calls : List (PoolCall τ)) :
    run manager calls (ofCapacity capacity, m) =
      ((chronicle manager capacity m calls).1.map PoolRecord.plain,
        plain (chronicle manager capacity m calls).2) := by
  rw [← plain_ofCapacity, run_plain, chronicle]

section Chronicle

variable {manager : Manager μ τ} {capacity : Size} {m : μ} {calls : List (PoolCall τ)}
  {records : List (PoolRecord τ)} {p : Pool (Numbered τ)} {c : Chronicle μ τ}

theorem run_of_chronicle (h : chronicle manager capacity m calls = (records, p, c)) :
    run manager calls (ofCapacity capacity, m) =
      (records.map PoolRecord.plain, p.map Numbered.payload, c.manager) := by
  rw [run_eq_chronicle, h]
  rfl

theorem length_of_chronicle (h : chronicle manager capacity m calls = (records, p, c)) :
    records.length = calls.length := by
  have hlength := length_answerAll (record manager) calls (ofCapacity capacity, { manager := m })
  rw [← chronicle, h] at hlength
  exact hlength

end Chronicle

end Pool

end CachePool
