import CachePool.Proofs.Lockstep
import CachePool.Proofs.Pool.Layout

/-!
# The pool runs as its rules on a plain list say

A pool and its rules on a plain list are in step if the pool is sound and the list
is what it parks. Every part of an acquire and of a release keeps them in step, also
where a hook of the manager fails, because the hooks see the payload in flight and
the manager only. Over any sequence of calls, some of which fail, the two give the
same answers, tell the manager the same, and count the same.
-/

namespace CachePool

/-- A call to a pool. -/
inductive PoolCall (τ : Type) where
  | acquire
  | release (payload : τ)

variable {μ τ : Type}

namespace Pool

/-- Make a call; an acquire answers with a payload. -/
def perform (manager : Manager μ τ) : PoolCall τ → Action (Pool τ × μ) (Option τ)
  | .acquire => do
    let payload ← acquire manager
    return some payload
  | .release payload => do
    release manager payload
    return none

/-- Make calls one after the other, each of which answers or stops at a fault. -/
def run (manager : Manager μ τ) (calls : List (PoolCall τ)) (s : Pool τ × μ) :
    List (Except Fault (Option τ)) × (Pool τ × μ) :=
  Action.attemptAll (perform manager) calls s

end Pool

namespace PoolModel

/-- Make a call; an acquire answers with a payload. -/
def perform (manager : Manager μ τ) : PoolCall τ → Action (PoolModel τ × μ) (Option τ)
  | .acquire => do
    let payload ← acquire manager
    return some payload
  | .release payload => do
    release manager payload
    return none

/-- Make calls one after the other, each of which answers or stops at a fault. -/
def run (manager : Manager μ τ) (calls : List (PoolCall τ)) (s : PoolModel τ × μ) :
    List (Except Fault (Option τ)) × (PoolModel τ × μ) :=
  Action.attemptAll (perform manager) calls s

end PoolModel

namespace Pool

/-- A sound pool of a capacity beside the rules on what it parks, with the same manager. -/
structure InStep (capacity : Size) (s : Pool τ × μ) (t : PoolModel τ × μ) : Prop where
  sound : s.1.Sound
  capacity : s.1.capacity = capacity
  model : t = (s.1.model, s.2)

/-- In step, with the given payloads parked. -/
def Parks (capacity : Size) (parked : List τ) (s : Pool τ × μ) (t : PoolModel τ × μ) : Prop :=
  InStep capacity s t ∧ s.1.parked = parked

end Pool

namespace Manager

variable {π π' ρ : Type} {R : π × μ → π' × μ → Prop} {p : π} {p' : π'}

/-- A hook runs alike beside two states that stay related whatever the manager does. -/
theorem ask_lockstep (hook : Action μ ρ) (hR : ∀ m, R (p, m) (p', m)) (m : μ) :
    Lockstep R (ask hook (p, m)) (ask hook (p', m)) := by
  cases hanswer : hook m with
  | ok answer m =>
    simp only [ask, Action.within, hanswer]
    exact .ok (hR m)
  | error fault m =>
    simp only [ask, Action.within, hanswer]
    exact .error (hR m)

/-- A hook on a payload in flight runs alike beside two such states, and ends the payload alike. -/
theorem askAbout_lockstep (manager : Manager μ τ) (payload : τ) (hook : τ → Action μ ρ)
    (hR : ∀ m, R (p, m) (p', m)) (m : μ) :
    Lockstep R (manager.askAbout payload hook (p, m)) (manager.askAbout payload hook (p', m)) := by
  cases hanswer : hook payload m with
  | ok answer m =>
    simp only [askAbout, hanswer]
    exact .ok (hR m)
  | error fault m =>
    simp only [askAbout, hanswer]
    exact .error (hR _)

end Manager

namespace Pool

variable {capacity : Size} {s : Pool τ × μ} {t : PoolModel τ × μ} {parked : List τ}
  {payload : τ}

/-- A payload is disposed of alike wherever only the counters and the manager matter. -/
theorem discard_lockstep (manager : Manager μ τ) (payload : τ)
    {R : Pool τ × μ → PoolModel τ × μ → Prop} {p : Pool τ} {q : PoolModel τ}
    (hR : ∀ (event : PoolCounts → PoolCounts) m,
      R ({ p with stats := event p.stats }, m) ({ q with stats := event q.stats }, m)) (m : μ) :
    Lockstep R (discard manager payload (p, m)) (PoolModel.discard manager payload (q, m)) :=
  manager.askAbout_lockstep payload manager.destroy
    (hR fun stats => { stats with destroyed := stats.destroyed + 1 }) m

namespace Parks

theorem inStep (h : Parks capacity parked s t) : InStep capacity s t := h.1

/-- A count is kept in step and moves no payload. -/
theorem count (h : Parks capacity parked s t) (event : PoolCounts → PoolCounts) :
    Lockstep (Parks capacity parked) (Pool.count event s) (PoolModel.count event t) := by
  obtain ⟨p, m⟩ := s
  obtain ⟨⟨hsound, hcapacity, rfl⟩, hparked⟩ := h
  exact .ok ⟨⟨hsound.counted _, hcapacity, rfl⟩, hparked⟩

theorem ask {ρ : Type} (h : Parks capacity parked s t) (hook : Action μ ρ) :
    Lockstep (Parks capacity parked) (Manager.ask hook s) (Manager.ask hook t) := by
  obtain ⟨p, m⟩ := s
  obtain ⟨⟨hsound, hcapacity, rfl⟩, hparked⟩ := h
  exact Manager.ask_lockstep hook (fun _ => ⟨⟨hsound, hcapacity, rfl⟩, hparked⟩) m

theorem askAbout {ρ : Type} (h : Parks capacity parked s t) (manager : Manager μ τ)
    (hook : τ → Action μ ρ) : Lockstep (Parks capacity parked)
      (manager.askAbout payload hook s) (manager.askAbout payload hook t) := by
  obtain ⟨p, m⟩ := s
  obtain ⟨⟨hsound, hcapacity, rfl⟩, hparked⟩ := h
  exact manager.askAbout_lockstep payload hook
    (fun _ => ⟨⟨hsound, hcapacity, rfl⟩, hparked⟩) m

/-- A payload is disposed of alike. -/
theorem discard (h : Parks capacity parked s t) (manager : Manager μ τ) (payload : τ) :
    Lockstep (Parks capacity parked) (Pool.discard manager payload s)
      (PoolModel.discard manager payload t) := by
  obtain ⟨p, m⟩ := s
  obtain ⟨⟨hsound, hcapacity, rfl⟩, hparked⟩ := h
  exact discard_lockstep manager payload
    (fun _ _ => ⟨⟨hsound.counted _, hcapacity, rfl⟩, hparked⟩) m

/-- A payload is built alike. -/
theorem build (h : Parks capacity parked s t) (manager : Manager μ τ) :
    Lockstep (Parks capacity parked) (Pool.build manager s)
      (PoolModel.acquireParked manager [] t) := by
  refine (h.count _).bind (fun _ _ h => h) ?_
  intro _ s t h
  exact h.ask manager.create

/-- A payload that is taken out is the first of the list. -/
theorem unpark (h : Parks capacity (payload :: parked) s t) :
    ∃ s' t', Pool.unpark s = .ok (some payload) s' ∧
      PoolModel.setParked parked t = .ok () t' ∧ Parks capacity parked s' t' := by
  obtain ⟨p, m⟩ := s
  obtain ⟨⟨hsound, hcapacity, rfl⟩, hparked⟩ := h
  obtain ⟨p', hrun, hsound', hcapacity', hmodel⟩ := hsound.unpark_cons (m := m) hparked
  refine ⟨(p', m), ({ p.model with parked }, m), hrun, rfl, ⟨hsound', ?_, ?_⟩, ?_⟩
  · exact hcapacity'.trans hcapacity
  · rw [← hmodel]
  · exact congrArg PoolModel.parked hmodel

/-- A list that has become empty means that nothing can be taken out. -/
theorem unpark_nil (h : Parks capacity [] s t) : Pool.unpark s = .ok none s :=
  h.1.sound.unpark_nil h.2

/-- The rounds of an acquire go through the list alike. -/
theorem acquireParked (h : Parks capacity parked s t) (manager : Manager μ τ) {fuel : Nat}
    (hf : parked.length ≤ fuel) :
    Lockstep (InStep capacity) (Pool.acquireParked manager fuel s)
      (PoolModel.acquireParked manager parked t) := by
  induction parked generalizing s t fuel with
  | nil =>
    have hbuild := (h.build manager).mono fun _ _ h => h.inStep
    cases fuel with
    | zero => exact hbuild
    | succ fuel =>
      rw [acquireParked_succ, Action.bind_ok h.unpark_nil]
      exact hbuild
  | cons payload parked ih =>
    cases fuel with
    | zero => cases hf
    | succ fuel =>
      obtain ⟨s', t', hunpark, hset, h'⟩ := h.unpark
      rw [acquireParked_succ, PoolModel.acquireParked, Action.bind_ok hunpark,
        Action.bind_ok hset]
      refine (h'.askAbout manager manager.canReuse).bind (fun _ _ h => h.inStep) ?_
      intro accepted s t h
      cases accepted with
      | true => exact .ok h.inStep
      | false =>
        refine (h.discard manager payload).bind (fun _ _ h => h.inStep) ?_
        intro _ s t h
        exact ih h (Nat.le_of_succ_le_succ hf)

/-- A payload that is ready is parked in front of the list, if there is room for it. -/
theorem park (h : Parks capacity parked s t) (manager : Manager μ τ) (payload : τ) :
    Lockstep (InStep capacity) (Pool.park manager payload s)
      ((if parked.length < capacity.val then PoolModel.setParked (payload :: parked)
        else PoolModel.discard manager payload) t) := by
  have hdiscard := (h.discard manager payload).mono fun _ _ h => h.inStep
  obtain ⟨p, m⟩ := s
  obtain ⟨⟨hsound, rfl, rfl⟩, rfl⟩ := h
  by_cases hroom : p.parked.length < p.capacity.val
  · obtain ⟨p', hrun, hsound', hcapacity, hmodel⟩ :=
      hsound.park_room (m := m) hroom manager payload
    rw [if_pos hroom, hrun]
    refine .ok ⟨hsound', hcapacity, ?_⟩
    rw [hmodel]
  · rw [if_neg hroom, hsound.park_full hroom manager payload]
    exact hdiscard

end Parks

namespace InStep

/-- The list is what the pool parks. -/
theorem parks (h : InStep capacity s t) : Parks capacity t.1.parked s t := by
  refine ⟨h, ?_⟩
  rw [h.model]
  rfl

/-- An acquire answers or stops as it does on the list. -/
theorem acquire (h : InStep capacity s t) (manager : Manager μ τ) :
    Lockstep (InStep capacity) (Pool.acquire manager s) (PoolModel.acquire manager t) := by
  refine (h.parks.count _).bind (fun _ _ h => h.inStep) ?_
  intro _ s t h
  have hfuel : t.1.parked.length ≤ s.1.capacity.val := by
    rw [h.inStep.model]
    exact h.inStep.sound.length_le
  exact h.inStep.parks.acquireParked manager hfuel

/-- A release answers or stops as it does on the list. -/
theorem release (h : InStep capacity s t) (manager : Manager μ τ) (payload : τ) :
    Lockstep (InStep capacity) (Pool.release manager payload s)
      (PoolModel.release manager payload t) := by
  refine (h.parks.count _).bind (fun _ _ h => h.inStep) ?_
  intro _ s t h
  refine (h.askAbout manager manager.prepare).bind (fun _ _ h => h.inStep) ?_
  rintro ⟨ready, payload⟩ s t h
  cases ready with
  | false => exact (h.discard manager payload).mono fun _ _ h => h.inStep
  | true =>
    have hpark := h.inStep.parks.park manager payload
    have hcapacity : t.1.capacity = capacity.val := by
      rw [h.inStep.model, ← h.inStep.capacity]
      rfl
    rw [← hcapacity] at hpark
    simpa [Action.get_bind] using hpark

/-- A call answers or stops as it does on the list. -/
theorem perform (h : InStep capacity s t) (manager : Manager μ τ) (call : PoolCall τ) :
    Lockstep (InStep capacity) (Pool.perform manager call s)
      (PoolModel.perform manager call t) := by
  cases call with
  | acquire => exact (h.acquire manager).bind (fun _ _ h => h) fun _ _ _ h => .ok h
  | release payload =>
    exact (h.release manager payload).bind (fun _ _ h => h) fun _ _ _ h => .ok h

end InStep

/-- A new pool is in step with an empty list. -/
theorem inStep_ofCapacity (capacity : Size) (m : μ) :
    InStep capacity (ofCapacity (τ := τ) capacity, m) (PoolModel.ofCapacity capacity, m) where
  sound := (laid_ofCapacity capacity).sound
  capacity := rfl
  model := by rw [← model_ofCapacity]

/-- A pool on its way to the end: some nodes are still occupied, by the given payloads, and the
counters and the manager are those of the rules. -/
structure Drains (os : List NodeId) (parked : List τ) (s : Pool τ × μ) (t : PoolModel τ × μ) :
    Prop where
  occupied : s.1.occupied.Holds s.1.tails os
  filled : os.map s.1.slots.get = parked.map some
  stats : s.1.stats = t.1.stats
  manager : s.2 = t.2

/-- The payloads in the occupied nodes are destroyed in their order. -/
theorem Drains.drainParked {os : List NodeId} (h : Drains os parked s t) (manager : Manager μ τ)
    {fuel : Nat} (hf : os.length ≤ fuel) :
    Lockstep (fun s t => ∃ os parked, Drains os parked s t) (Pool.drainParked manager fuel s)
      (parked.forM (PoolModel.discard manager) t) := by
  induction os generalizing s t parked fuel with
  | nil =>
    cases parked with
    | cons => cases h.filled
    | nil =>
      cases fuel with
      | zero => exact .ok ⟨[], [], h⟩
      | succ fuel =>
        rw [Pool.drainParked, Action.bind_ok (popOccupied_nil h.occupied)]
        exact .ok ⟨[], [], h⟩
  | cons n os ih =>
    cases parked with
    | nil => cases h.filled
    | cons payload parked =>
      cases fuel with
      | zero => cases hf
      | succ fuel =>
        obtain ⟨p, m⟩ := s
        obtain ⟨q, m'⟩ := t
        obtain ⟨hoccupied, hfilled, hstats, rfl⟩ := h
        obtain ⟨hslot, hslots⟩ := List.cons.inj hfilled
        have hkept : ClaimStack.Holds (.below os) (p.tails.set n none) os := hoccupied.pop
        have hstill : os.map (p.slots.set n none).get = parked.map some := by
          rw [map_slots_set (List.nodup_cons.mp hoccupied.nodup).1]
          exact hslots
        rw [Pool.drainParked, List.forM, Action.bind_ok (popOccupied_cons hoccupied)]
        simp only
        rw [Action.bind_ok (exchange_eq _ m n none)]
        simp only [hslot]
        refine (discard_lockstep (R := Drains os parked) manager payload ?_ m).bind
          (fun _ _ h => ⟨os, parked, h⟩) ?_
        · intro event m
          exact ⟨hkept, hstill, congrArg event hstats, rfl⟩
        · intro _ s t h
          exact ih h (Nat.le_of_succ_le_succ hf)

/-- The end of a pool goes as it does on the list. -/
theorem InStep.drain (h : InStep capacity s t) (manager : Manager μ τ) :
    Lockstep (fun s t => ∃ os parked, Drains os parked s t) (Pool.drain manager s)
      (PoolModel.drain manager t) := by
  obtain ⟨p, m⟩ := s
  obtain ⟨hsound, -, rfl⟩ := h
  obtain ⟨fs, os, hlaid⟩ := hsound
  have hfuel : os.length ≤ p.capacity.val := by
    have hlength := hlaid.free_length
    have hoccupied := hlaid.occupied_length
    simp only at hlength hoccupied
    omega
  have hdrains : Drains os p.parked (p, m) (p.model, m) :=
    ⟨hlaid.occupied, hlaid.filled, rfl, rfl⟩
  exact hdrains.drainParked manager hfuel

end Pool

end CachePool
