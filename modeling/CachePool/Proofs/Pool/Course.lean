import CachePool.Proofs.Pool.Chronicle
import CachePool.Proofs.Pool.Tally

/-!
# The course of a call

What a call to a pool can do is said once, with all that is noted during it. An acquire
goes through the parked payloads from the first one on: it stops at one that is accepted
or at a hook that fails, and builds a payload when none is left. A release readies its
payload, and then parks or disposes of it. The counters count the hooks that were called.
What a pool keeps true over its calls is read off these courses.
-/

namespace CachePool

variable {μ τ : Type}

/-- The hook that was called, if the event is a call. -/
def PoolEvent.hook? : PoolEvent τ → Option Hook
  | .answered hook _ _ => some hook
  | .failed hook _ _ => some hook
  | .ended _ => none

/-- The hook that gave up, if the event says that one did. -/
def PoolEvent.failing? : PoolEvent τ → Option Hook
  | .failed hook _ _ => some hook
  | _ => none

/-- The number of calls to a hook, whether it answered or failed. -/
def PoolEvent.calls (hook : Hook) (events : List (PoolEvent τ)) : Nat :=
  events.countP fun event => event.hook? = some hook

namespace PoolTally

/-- The hooks that were called. -/
def ofEvents (events : List (PoolEvent τ)) : PoolTally where
  creates := PoolEvent.calls .create events
  destroyed := PoolEvent.calls .destroy events

theorem ofEvents_append (before after : List (PoolEvent τ)) :
    ofEvents (before ++ after) = ofEvents before + ofEvents after := by
  simp only [ofEvents, PoolEvent.calls, List.countP_append]
  rfl

end PoolTally

/-- The request itself and the hooks that were called for it. -/
def PoolRecord.tally (r : PoolRecord τ) : PoolTally :=
  (match r.call with
    | .acquire => { acquires := 1 }
    | .release _ => { releases := 1 }) + .ofEvents r.events

/-- What was requested and called in a sequence of calls. -/
def PoolRecord.total (records : List (PoolRecord τ)) : PoolTally where
  creates := (records.map (·.tally.creates)).sum
  acquires := (records.map (·.tally.acquires)).sum
  releases := (records.map (·.tally.releases)).sum
  destroyed := (records.map (·.tally.destroyed)).sum

theorem PoolRecord.total_concat (records : List (PoolRecord τ)) (r : PoolRecord τ) :
    total (records ++ [r]) = total records + r.tally := by
  simp only [total, List.map_append, List.sum_append, List.map_singleton, List.sum_singleton]
  rfl

/-- The ways in which a payload is disposed of. -/
inductive Disposed (x : Numbered τ) : Except Fault Unit → List (PoolEvent τ) → Prop
  | done : Disposed x (.ok ()) [.answered .destroy x true]
  | failed (fault : Fault) : Disposed x (.error fault) [.failed .destroy (some x) fault, .ended x]

/-- The ways in which the rounds of an acquire go through the parked payloads, while the next
number is the given one: what is answered, noted, still parked, and the next number afterwards. -/
inductive Served (n : Nat) : List (Numbered τ) → Except Fault (Numbered τ) →
    List (PoolEvent τ) → List (Numbered τ) → Nat → Prop
  | built (payload : τ) :
      Served n [] (.ok ⟨payload, n⟩) [.answered .create ⟨payload, n⟩ true] [] (n + 1)
  | unbuilt (fault : Fault) : Served n [] (.error fault) [.failed .create none fault] [] n
  | accepted (x : Numbered τ) (parked : List (Numbered τ)) :
      Served n (x :: parked) (.ok x) [.answered .canReuse x true] parked n
  | unjudged (x : Numbered τ) (parked : List (Numbered τ)) (fault : Fault) :
      Served n (x :: parked) (.error fault) [.failed .canReuse (some x) fault, .ended x] parked n
  | undisposed (x : Numbered τ) (parked : List (Numbered τ)) (fault : Fault) :
      Served n (x :: parked) (.error fault)
        [.answered .canReuse x false, .failed .destroy (some x) fault, .ended x] parked n
  | rejected (x : Numbered τ) {parked parked' : List (Numbered τ)}
      {answer : Except Fault (Numbered τ)} {events : List (PoolEvent τ)} {n' : Nat}
      (h : Served n parked answer events parked' n') :
      Served n (x :: parked) answer
        (.answered .canReuse x false :: .answered .destroy x true :: events) parked' n'

/-- The ways in which a release goes: what is answered, noted, and parked afterwards. -/
inductive Returned (capacity : Nat) (x : Numbered τ) (parked : List (Numbered τ)) :
    Except Fault Unit → List (PoolEvent τ) → List (Numbered τ) → Prop
  | unready (fault : Fault) : Returned capacity x parked (.error fault)
      [.failed .prepare (some x) fault, .ended x] parked
  | parked (payload : τ) (h : parked.length < capacity) : Returned capacity x parked (.ok ())
      [.answered .prepare { x with payload } true] ({ x with payload } :: parked)
  | disposed (payload : τ) (ready : Bool) (h : ready = true → capacity ≤ parked.length)
      {answer : Except Fault Unit} {events : List (PoolEvent τ)}
      (hdisposed : Disposed { x with payload } answer events) :
      Returned capacity x parked answer
        (.answered .prepare { x with payload } ready :: events) parked

/-- The ways in which a call goes that finds the given payloads parked, with the given number next:
its record, and the payloads and the number that it leaves. -/
inductive Course (capacity : Nat) (parked : List (Numbered τ)) (n : Nat) :
    PoolRecord τ → List (Numbered τ) → Nat → Prop
  | acquire {answer : Except Fault (Numbered τ)} {events : List (PoolEvent τ)}
      {parked' : List (Numbered τ)} {n' : Nat} (h : Served n parked answer events parked' n') :
      Course capacity parked n ⟨.acquire, answer.map some, events⟩ parked' n'
  | release (payload : τ) {answer : Except Fault Unit} {events : List (PoolEvent τ)}
      {parked' : List (Numbered τ)}
      (h : Returned capacity ⟨payload, n⟩ parked answer events parked') :
      Course capacity parked n
        ⟨.release ⟨payload, n⟩, answer.map fun _ => none, events⟩ parked' (n + 1)

theorem Course.returned {capacity n n' : Nat} {parked parked' : List (Numbered τ)}
    {r : PoolRecord τ} {x : Numbered τ} (h : Course capacity parked n r parked' n')
    (hcall : r.call = .release x) :
    ∃ answer, Returned capacity x parked answer r.events parked' ∧
      r.answer = answer.map fun _ => none := by
  cases h with
  | acquire h => cases hcall
  | release payload h =>
    cases hcall
    exact ⟨_, h, rfl⟩

/-- Note that a hook gave up on a payload in flight, which ends. -/
def Chronicle.abandon (c : Chronicle μ τ) (manager : Manager μ τ) (hook : Hook) (x : Numbered τ)
    (fault : Fault) (m : μ) : Chronicle μ τ :=
  (c.note m (.failed hook (some x) fault)).note (manager.drop x.payload m) (.ended x)

namespace Manager

variable {π : Type} (manager : Manager μ τ) (x : Numbered τ) (q : π) (c : Chronicle μ τ)

theorem attempt_canReuse : (manager.observed.askAbout x manager.observed.canReuse).attempt (q, c) =
    match manager.canReuse x.payload c.manager with
    | .ok reusable m => (.ok reusable, q, c.note m (.answered .canReuse x reusable))
    | .error fault m => (.error fault, q, c.abandon manager .canReuse x fault m) := by
  simp only [Action.attempt, askAbout, observed, observe]
  cases manager.canReuse x.payload c.manager <;> rfl

theorem attempt_prepare : (manager.observed.askAbout x manager.observed.prepare).attempt (q, c) =
    match manager.prepare x.payload c.manager with
    | .ok (ready, payload) m => (.ok (ready, { x with payload }), q,
      c.note m (.answered .prepare { x with payload } ready))
    | .error fault m => (.error fault, q, c.abandon manager .prepare x fault m) := by
  simp only [Action.attempt, askAbout, observed, observe]
  cases manager.prepare x.payload c.manager <;> rfl

theorem attempt_destroy : (manager.observed.askAbout x manager.observed.destroy).attempt (q, c) =
    match manager.destroy x.payload c.manager with
    | .ok _ m => (.ok (), q, c.note m (.answered .destroy x true))
    | .error fault m => (.error fault, q, c.abandon manager .destroy x fault m) := by
  simp only [Action.attempt, askAbout, observed, observe]
  cases manager.destroy x.payload c.manager <;> rfl

/-- However the hook to dispose of a payload goes, nothing beside the manager changes. -/
theorem exists_disposed : ∃ answer events m,
    (manager.observed.askAbout x manager.observed.destroy).attempt (q, c) =
      (answer, q, { c with manager := m, events := c.events ++ events }) ∧
      Disposed x answer events := by
  rw [manager.attempt_destroy]
  cases manager.destroy x.payload c.manager with
  | ok _ m => exact ⟨_, _, m, rfl, .done⟩
  | error fault m =>
    refine ⟨_, _, manager.drop x.payload m, ?_, .failed fault⟩
    simp [Chronicle.abandon, Chronicle.note]

theorem attempt_create : (ask manager.observed.create).attempt (q, c) =
    match manager.create c.manager with
    | .ok payload m => (.ok ⟨payload, c.entered⟩, q,
      { c.note m (.answered .create ⟨payload, c.entered⟩ true) with entered := c.entered + 1 })
    | .error fault m => (.error fault, q, c.note m (.failed .create none fault)) := by
  cases hcreate : manager.create c.manager with
  | ok payload m => simp only [Action.attempt, ask, Action.within, observed_create_ok hcreate]
  | error fault m => simp only [Action.attempt, ask, Action.within, observed_create_error hcreate]

end Manager

namespace PoolCounts

variable (s : PoolCounts) {x : Numbered τ} {answer : Except Fault Unit}
  {events : List (PoolEvent τ)}

/-- However a payload is disposed of, it is counted as destroyed. -/
theorem plus_disposed (h : Disposed x answer events) :
    s.plus (.ofEvents events) = { s with destroyed := s.destroyed + 1 } := by
  cases h <;> simp [plus, PoolTally.ofEvents, PoolEvent.calls, PoolEvent.hook?]

/-- Judging and readying a payload is not counted. -/
theorem plus_answered (hook : Hook) (hcreate : hook ≠ .create) (hdestroy : hook ≠ .destroy)
    (verdict : Bool) :
    s.plus (.ofEvents (.answered hook x verdict :: events)) = s.plus (.ofEvents events) := by
  simp [plus, PoolTally.ofEvents, PoolEvent.calls, PoolEvent.hook?, hcreate, hdestroy]

end PoolCounts

namespace PoolModel

variable (manager : Manager μ τ) (q : PoolModel (Numbered τ)) (c : Chronicle μ τ)

theorem exists_disposed (x : Numbered τ) : ∃ answer events m,
    (discard manager.observed x).attempt (q, c) =
      (answer, { q with stats := q.stats.plus (.ofEvents events) },
        { c with manager := m, events := c.events ++ events }) ∧
      Disposed x answer events := by
  obtain ⟨answer, events, m, hrun, hdisposed⟩ := manager.exists_disposed x
    { q with stats := { q.stats with destroyed := q.stats.destroyed + 1 } } c
  refine ⟨answer, events, m, ?_, hdisposed⟩
  rw [PoolCounts.plus_disposed _ hdisposed]
  exact hrun

/-- The rounds of an acquire go one of the ways. -/
theorem exists_served {parked : List (Numbered τ)} (hparked : q.parked = parked) :
    ∃ answer events parked' n m,
      (acquireParked manager.observed parked).attempt (q, c) =
        (answer, { q with parked := parked', stats := q.stats.plus (.ofEvents events) },
          { manager := m, entered := n, events := c.events ++ events }) ∧
        Served c.entered parked answer events parked' n := by
  induction parked generalizing q c with
  | nil =>
    have hcounted : (acquireParked manager.observed []).attempt (q, c) =
        (Manager.ask manager.observed.create).attempt
          ({ q with stats := { q.stats with creates := q.stats.creates + 1 } }, c) := rfl
    rw [hcounted, manager.attempt_create]
    cases manager.create c.manager with
    | ok payload m =>
      refine ⟨_, _, _, _, m, ?_, .built payload⟩
      simp [PoolCounts.plus, PoolTally.ofEvents, PoolEvent.calls, PoolEvent.hook?, Chronicle.note,
        hparked]
    | error fault m =>
      refine ⟨_, _, _, _, m, ?_, .unbuilt fault⟩
      simp [PoolCounts.plus, PoolTally.ofEvents, PoolEvent.calls, PoolEvent.hook?, Chronicle.note,
        hparked]
  | cons x parked ih =>
    have htaken : (acquireParked manager.observed (x :: parked)).attempt (q, c) =
        (manager.observed.askAbout x manager.observed.canReuse >>= fun accepted =>
          if accepted then pure x else do
            discard manager.observed x
            acquireParked manager.observed parked).attempt ({ q with parked }, c) := rfl
    rw [htaken, Action.attempt_bind, manager.attempt_canReuse]
    cases manager.canReuse x.payload c.manager with
    | error fault m =>
      refine ⟨_, _, _, _, manager.drop x.payload m, ?_, .unjudged x parked fault⟩
      simp [PoolCounts.plus, PoolTally.ofEvents, PoolEvent.calls, PoolEvent.hook?,
        Chronicle.abandon, Chronicle.note]
    | ok accepted m =>
      cases accepted with
      | true =>
        refine ⟨_, _, _, _, m, ?_, .accepted x parked⟩
        simp [PoolCounts.plus, PoolTally.ofEvents, PoolEvent.calls, PoolEvent.hook?, Action.attempt,
          Chronicle.note]
      | false =>
        obtain ⟨answer, events, m', hdiscard, hdisposed⟩ :=
          exists_disposed manager { q with parked } (c.note m (.answered .canReuse x false)) x
        simp only [Bool.false_eq_true, if_false]
        rw [Action.attempt_bind, hdiscard]
        cases hdisposed with
        | failed fault =>
          refine ⟨_, _, _, _, m', ?_, .undisposed x parked fault⟩
          simp [PoolCounts.plus, PoolTally.ofEvents, PoolEvent.calls, PoolEvent.hook?,
            Chronicle.note]
        | done =>
          obtain ⟨answer, events, parked', n, m'', hrest, hserved⟩ :=
            ih { q with parked, stats := q.stats.plus (.ofEvents [.answered .destroy x true]) }
              { c with
                manager := m'
                events := c.events ++ [.answered .canReuse x false, .answered .destroy x true] } rfl
          have hnoted : (c.note m (.answered .canReuse x false)).events ++
              [.answered .destroy x true] =
                c.events ++ [.answered .canReuse x false, .answered .destroy x true] := by
            simp [Chronicle.note]
          refine ⟨_, _, _, _, m'', ?_, .rejected x hserved⟩
          simp only [hnoted]
          refine hrest.trans ?_
          rw [PoolCounts.plus_plus, ← PoolTally.ofEvents_append,
            PoolCounts.plus_answered _ .canReuse (by decide) (by decide)]
          simp

/-- A release goes one of the ways, once it is counted. -/
theorem exists_returned (x : Numbered τ) : ∃ answer events parked' m,
    (release manager.observed x).attempt (q, c) =
      (answer,
        { q with
          parked := parked'
          stats := (q.stats.plus { releases := 1 }).plus (.ofEvents events) },
        { c with manager := m, events := c.events ++ events }) ∧
      Returned q.capacity x q.parked answer events parked' := by
  have hcounted : (release manager.observed x).attempt (q, c) =
      (manager.observed.askAbout x manager.observed.prepare >>= fun (ready, y) => do
        let (q, _) ← get
        if ready && q.parked.length < q.capacity then
          setParked (y :: q.parked)
        else
          discard manager.observed y).attempt
        ({ q with stats := { q.stats with releases := q.stats.releases + 1 } }, c) := rfl
  have hplus : { q.stats with releases := q.stats.releases + 1 } =
      q.stats.plus { releases := 1 } := by
    simp [PoolCounts.plus]
  rw [hcounted, hplus, Action.attempt_bind, manager.attempt_prepare]
  cases manager.prepare x.payload c.manager with
  | error fault m =>
    refine ⟨_, _, _, manager.drop x.payload m, ?_, .unready fault⟩
    simp [PoolCounts.plus, PoolTally.ofEvents, PoolEvent.calls, PoolEvent.hook?,
      Chronicle.abandon, Chronicle.note]
  | ok answer m =>
    obtain ⟨ready, payload⟩ := answer
    have hget : ∀ f : PoolModel (Numbered τ) × Chronicle μ τ → Action _ Unit, ∀ s,
        Action.attempt (MonadState.get >>= f) s = (f s).attempt s := fun _ _ => rfl
    simp only [hget]
    by_cases hroom : ready = true ∧ q.parked.length < q.capacity
    · obtain ⟨rfl, hlt⟩ := hroom
      refine ⟨_, _, _, m, ?_, .parked payload hlt⟩
      have hnone : (q.stats.plus { releases := 1 }).plus (.ofEvents ([] : List (PoolEvent τ))) =
          q.stats.plus { releases := 1 } := PoolCounts.plus_plus _ _ _
      rw [if_pos (by simpa using hlt),
        PoolCounts.plus_answered _ .prepare (by decide) (by decide), hnone]
      rfl
    · obtain ⟨answer, events, m', hdiscard, hdisposed⟩ :=
        exists_disposed manager { q with stats := q.stats.plus { releases := 1 } }
          (c.note m (.answered .prepare { x with payload } ready)) { x with payload }
      refine ⟨_, _, _, m', ?_, .disposed payload ready ?_ hdisposed⟩
      · rw [if_neg (by simpa using hroom)]
        refine hdiscard.trans ?_
        rw [PoolCounts.plus_answered _ .prepare (by decide) (by decide)]
        simp [Chronicle.note]
      · intro hready
        exact Nat.le_of_not_lt fun hlt => hroom ⟨hready, hlt⟩

/-- A call goes one of the ways, and its request and its hooks are counted. -/
theorem exists_course (call : PoolCall τ) : ∃ answer events parked' n m,
    (perform manager.observed (call.numbered c.entered)).attempt (q, c.turn call) =
      (answer,
        { q with
          parked := parked'
          stats := q.stats.plus (PoolRecord.tally ⟨call.numbered c.entered, answer, events⟩) },
        { manager := m, entered := n, events }) ∧
      Course q.capacity q.parked c.entered ⟨call.numbered c.entered, answer, events⟩ parked' n := by
  cases call with
  | acquire =>
    have hcounted : (acquire manager.observed).attempt (q, c.turn .acquire) =
        (acquireParked manager.observed q.parked).attempt
          ({ q with stats := { q.stats with acquires := q.stats.acquires + 1 } },
            c.turn .acquire) := rfl
    have hplus : { q.stats with acquires := q.stats.acquires + 1 } =
        q.stats.plus { acquires := 1 } := by
      simp [PoolCounts.plus]
    obtain ⟨answer, events, parked', n, m, hserved, hcourse⟩ := exists_served manager
      { q with stats := q.stats.plus { acquires := 1 } } (c.turn .acquire) rfl
    refine ⟨_, _, _, _, m, ?_, .acquire hcourse⟩
    rw [PoolCall.numbered, perform, Action.attempt_bind_pure, hcounted, hplus, hserved,
      PoolCounts.plus_plus]
    rfl
  | release payload =>
    obtain ⟨answer, events, parked', m, hreturned, hcourse⟩ :=
      exists_returned manager q (c.turn (.release payload)) ⟨payload, c.entered⟩
    refine ⟨_, _, _, _, m, ?_, .release payload hcourse⟩
    rw [PoolCall.numbered, perform, Action.attempt_bind_pure, hreturned, PoolCounts.plus_plus]
    rfl

end PoolModel

namespace Pool

/-- A pool between two calls, and the records of the calls so far. -/
structure Tells (capacity : Size) (records : List (PoolRecord τ)) (p : Pool (Numbered τ)) :
    Prop where
  sound : p.Sound
  capacity : p.capacity = capacity
  stats : p.stats = ({} : PoolCounts).plus (PoolRecord.total records)

variable {capacity : Size} {records : List (PoolRecord τ)} {p : Pool (Numbered τ)}
  {c : Chronicle μ τ}

theorem Tells.length_le (h : p.Tells capacity records) : p.parked.length ≤ capacity.val := by
  rw [← h.capacity]
  exact h.sound.length_le

/-- A new pool has no calls to tell about. -/
theorem tells_ofCapacity (capacity : Size) :
    (ofCapacity capacity).Tells capacity ([] : List (PoolRecord τ)) :=
  ⟨(laid_ofCapacity capacity).sound, rfl, rfl⟩

/-- A call takes one of the courses, and leaves a pool between two calls. -/
theorem Tells.record (h : p.Tells capacity records) (manager : Manager μ τ) (call : PoolCall τ)
    (c : Chronicle μ τ) :
    (Pool.record manager call (p, c)).2.1.Tells capacity
        (records ++ [(Pool.record manager call (p, c)).1]) ∧
      Course capacity.val p.parked c.entered (Pool.record manager call (p, c)).1
        (Pool.record manager call (p, c)).2.1.parked
        (Pool.record manager call (p, c)).2.2.entered := by
  have hstep : InStep capacity (p, c.turn call) (p.model, c.turn call) := ⟨h.sound, h.capacity, rfl⟩
  obtain ⟨hanswer, hsound, hcapacity, hmodel⟩ :=
    (hstep.perform manager.observed (call.numbered c.entered)).attempt
  obtain ⟨answer, events, parked', n, m, hrun, hcourse⟩ := p.model.exists_course manager c call
  rw [hrun] at hanswer hmodel
  obtain ⟨hmodel, hchronicle⟩ := Prod.mk.inj hmodel
  have hrecord : (Pool.record manager call (p, c)).1 =
      ⟨call.numbered c.entered, answer, events⟩ := by
    simp only [Pool.record, hanswer, ← hchronicle]
  have hparked : (Pool.record manager call (p, c)).2.1.parked = parked' :=
    (congrArg PoolModel.parked hmodel).symm
  have hentered : (Pool.record manager call (p, c)).2.2.entered = n :=
    (congrArg Chronicle.entered hchronicle).symm
  have hstats : (Pool.record manager call (p, c)).2.1.stats =
      p.stats.plus (PoolRecord.tally ⟨call.numbered c.entered, answer, events⟩) :=
    (congrArg PoolModel.stats hmodel).symm
  refine ⟨⟨hsound, hcapacity, ?_⟩, ?_⟩
  · rw [hstats, h.stats, PoolCounts.plus_plus, PoolRecord.total_concat, hrecord]
  · rw [← h.capacity, hparked, hrecord, hentered]
    exact hcourse

/-- What holds of a new pool without records, and is kept by every course of a call, holds after any
calls, which leave a pool between two calls. -/
theorem chronicle_induction {P : List (PoolRecord τ) → List (Numbered τ) → Nat → Prop}
    (manager : Manager μ τ) (capacity : Size) (m : μ) (calls : List (PoolCall τ))
    (hstart : P [] [] 0)
    (hcall : ∀ records parked n r parked' n', parked.length ≤ capacity.val → P records parked n →
      Course capacity.val parked n r parked' n' → P (records ++ [r]) parked' n') :
    ∃ records p c, chronicle manager capacity m calls = (records, p, c) ∧
      p.Tells capacity records ∧ P records p.parked c.entered := by
  induction calls using List.reverseRecOn with
  | nil =>
    refine ⟨_, _, _, rfl, tells_ofCapacity capacity, ?_⟩
    rw [(laid_ofCapacity capacity).parked_eq]
    exact hstart
  | append_singleton calls call ih =>
    obtain ⟨records, p, c, hchronicle, htells, hP⟩ := ih
    obtain ⟨htells', hcourse⟩ := htells.record manager call c
    refine ⟨_, _, _, ?_, htells', hcall _ _ _ _ _ _ htells.length_le hP hcourse⟩
    rw [chronicle] at hchronicle ⊢
    rw [answerAll_append, hchronicle]
    rfl

end Pool

end CachePool
