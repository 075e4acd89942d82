import CachePool.Pool.Probe
import CachePool.Proofs.Pool.Course

/-!
# Hooks that fail cost no slot

A pool gives a node back to its stacks before it calls a hook, so a hook that fails can
take its payload along, but never a node. After any calls, whichever of them failed, the
nodes are all there: a call stops with the fault of a hook and with no other, and as many
payloads as ever can still be parked.
-/

namespace CachePool

variable {μ τ : Type}

/-- A hook gave up with this fault. -/
def PoolEvent.Fails (events : List (PoolEvent τ)) (fault : Fault) : Prop :=
  ∃ hook x, .failed hook x fault ∈ events

section Stops

variable {capacity n n' : Nat} {parked parked' : List (Numbered τ)} {x : Numbered τ}
  {events : List (PoolEvent τ)} {fault : Fault}

theorem Disposed.error_iff {answer : Except Fault Unit} (h : Disposed x answer events) :
    answer = .error fault ↔ PoolEvent.Fails events fault := by
  cases h <;> simp [PoolEvent.Fails, eq_comm]

theorem Served.error_iff {answer : Except Fault (Numbered τ)}
    (h : Served n parked answer events parked' n') :
    answer = .error fault ↔ PoolEvent.Fails events fault := by
  induction h with
  | rejected x h ih => simpa [PoolEvent.Fails] using ih
  | built | unbuilt | accepted | unjudged | undisposed => simp [PoolEvent.Fails, eq_comm]

theorem Returned.error_iff {answer : Except Fault Unit}
    (h : Returned capacity x parked answer events parked') :
    answer = .error fault ↔ PoolEvent.Fails events fault := by
  cases h with
  | unready fault' => simp [PoolEvent.Fails, eq_comm]
  | parked => simp [PoolEvent.Fails]
  | disposed payload ready h hdisposed => simpa [PoolEvent.Fails] using hdisposed.error_iff

/-- A call stops exactly if a hook fails in it, and with the fault of that hook. -/
theorem Course.error_iff {r : PoolRecord τ} (h : Course capacity parked n r parked' n') :
    r.answer = .error fault ↔ PoolEvent.Fails r.events fault := by
  cases h with
  | @acquire answer events _ _ h =>
    rw [← h.error_iff]
    cases answer <;> simp [Except.map]
  | @release payload answer events _ h =>
    rw [← h.error_iff]
    cases answer <;> simp [Except.map]

end Stops

/-- The payload that was made ready, as it was left. -/
def PoolEvent.readied? : PoolEvent τ → Option (Numbered τ)
  | .answered .prepare x true => some x
  | _ => none

/-- The payload that was passed on to be destroyed, whether or not that failed. -/
def PoolEvent.destroyed? : PoolEvent τ → Option (Numbered τ)
  | .answered .destroy x _ => some x
  | .failed .destroy x _ => x
  | _ => none

namespace PoolRecord

/-- The payloads that were made ready during a call. -/
def readied (r : PoolRecord τ) : List (Numbered τ) := r.events.filterMap PoolEvent.readied?

/-- The payloads that were passed on to be destroyed during a call. -/
def destroyed (r : PoolRecord τ) : List (Numbered τ) := r.events.filterMap PoolEvent.destroyed?

end PoolRecord

theorem Disposed.readied_eq {x : Numbered τ} {answer : Except Fault Unit}
    {events : List (PoolEvent τ)} (h : Disposed x answer events) :
    events.filterMap PoolEvent.readied? = [] := by
  cases h <;> rfl

theorem Disposed.destroyed_eq {x : Numbered τ} {answer : Except Fault Unit}
    {events : List (PoolEvent τ)} (h : Disposed x answer events) :
    events.filterMap PoolEvent.destroyed? = [x] := by
  cases h <;> rfl

/-- A payload that was made ready is parked if there is room, and destroyed otherwise. -/
theorem Returned.readied_cases {capacity : Nat} {x : Numbered τ}
    {parked parked' : List (Numbered τ)} {answer : Except Fault Unit} {events : List (PoolEvent τ)}
    (h : Returned capacity x parked answer events parked')
    (hready : events.filterMap PoolEvent.readied? ≠ []) :
    ∃ y, events.filterMap PoolEvent.readied? = [y] ∧
      ((parked.length < capacity ∧ parked' = y :: parked ∧
          events.filterMap PoolEvent.destroyed? = []) ∨
        (capacity ≤ parked.length ∧ parked' = parked ∧
          events.filterMap PoolEvent.destroyed? = [y])) := by
  cases h with
  | unready fault => exact (hready rfl).elim
  | parked payload hroom => exact ⟨_, rfl, .inl ⟨hroom, rfl, rfl⟩⟩
  | disposed payload ready hfull hdisposed =>
    cases ready with
    | false =>
      rw [List.filterMap_cons, hdisposed.readied_eq] at hready
      exact (hready rfl).elim
    | true =>
      refine ⟨{ x with payload }, ?_, .inr ⟨hfull rfl, rfl, ?_⟩⟩
      · rw [List.filterMap_cons, hdisposed.readied_eq]
        rfl
      · rw [List.filterMap_cons, hdisposed.destroyed_eq]
        rfl

namespace Pool

/-- Payloads were made ready one after the other: while there was room they were parked, and then
destroyed. -/
structure Fills (p : Pool (Numbered τ)) (count : Nat) (records : List (PoolRecord τ))
    (p' : Pool (Numbered τ)) : Prop where
  length : (records.flatMap PoolRecord.readied).length = count
  parked : p'.parked = ((records.flatMap PoolRecord.readied).take
    (p.capacity.val - p.idle.toNat)).reverse ++ p.parked
  destroyed : records.flatMap PoolRecord.destroyed =
    (records.flatMap PoolRecord.readied).drop (p.capacity.val - p.idle.toNat)
  idle : p'.idle.toNat = p.idle.toNat + min count (p.capacity.val - p.idle.toNat)

section Fills

variable {p p' p'' : Pool (Numbered τ)} {y : Numbered τ} {r : PoolRecord τ}
  {records : List (PoolRecord τ)} {count : Nat}

/-- A payload that takes a slot leaves the other slots to the later ones. -/
theorem Fills.parked_cons (h : Fills p' count records p'') (hcapacity : p'.capacity = p.capacity)
    (hroom : p.idle.toNat < p.capacity.val) (hready : r.readied = [y])
    (hparked : p'.parked = y :: p.parked) (hidle : p'.idle.toNat = p.idle.toNat + 1)
    (hdestroyed : r.destroyed = []) :
    Fills p (count + 1) (r :: records) p'' := by
  have hslots : p.capacity.val - p.idle.toNat = p'.capacity.val - p'.idle.toNat + 1 := by
    rw [hcapacity, hidle]
    omega
  refine ⟨?_, ?_, ?_, ?_⟩
  · simp [hready, h.length]
  · rw [hslots, h.parked, List.flatMap_cons, hready, hparked]
    simp
  · rw [hslots, List.flatMap_cons, List.flatMap_cons, hready, hdestroyed, h.destroyed]
    simp
  · rw [h.idle, hcapacity, hidle]
    omega

/-- A payload that finds no slot changes nothing for the later ones. -/
theorem Fills.full_cons (h : Fills p' count records p'') (hcapacity : p'.capacity = p.capacity)
    (hfull : p.capacity.val ≤ p.idle.toNat) (hready : r.readied = [y])
    (hparked : p'.parked = p.parked) (hidle : p'.idle.toNat = p.idle.toNat)
    (hdestroyed : r.destroyed = [y]) :
    Fills p (count + 1) (r :: records) p'' := by
  have hslots : p.capacity.val - p.idle.toNat = 0 := Nat.sub_eq_zero_of_le hfull
  obtain ⟨hlength, hparked', hdestroyed', hidle'⟩ := h
  rw [hcapacity, hidle, hslots] at hparked' hdestroyed' hidle'
  refine ⟨?_, ?_, ?_, ?_⟩
  · simp [hready, hlength]
  · rw [hslots, hparked', hparked]
    simp
  · rw [hslots, List.flatMap_cons, List.flatMap_cons, hready, hdestroyed, hdestroyed']
    simp
  · rw [hslots, hidle']
    simp

end Fills

variable {capacity : Size} {records : List (PoolRecord τ)} {p : Pool (Numbered τ)}

/-- Releases of payloads that can all be made ready fill the pool. -/
theorem Tells.fills (h : p.Tells capacity records) (manager : Manager μ τ) (payloads : List τ)
    (c : Chronicle μ τ)
    (hready : ∀ r ∈ (answerAll (Pool.record manager) (payloads.map .release) (p, c)).1,
      r.readied ≠ []) :
    Fills p payloads.length (answerAll (Pool.record manager) (payloads.map .release) (p, c)).1
      (answerAll (Pool.record manager) (payloads.map .release) (p, c)).2.1 := by
  induction payloads generalizing p c records with
  | nil => exact ⟨rfl, by simp [answerAll], by simp [answerAll], by simp [answerAll]⟩
  | cons payload payloads ih =>
    obtain ⟨htells, hcourse⟩ := h.record manager (.release payload) c
    generalize hr : (Pool.record manager (.release payload) (p, c)).1 = r at htells hcourse
    generalize hs : (Pool.record manager (.release payload) (p, c)).2 = s at htells hcourse
    obtain ⟨p', c'⟩ := s
    simp only [List.map_cons, answerAll, hr, hs, List.forall_mem_cons] at hready ⊢
    obtain ⟨answer, hreturned, -⟩ := hcourse.returned (by rw [← hr]; rfl)
    obtain ⟨y, hy, hcases⟩ := hreturned.readied_cases hready.1
    have hrest := ih htells c' hready.2
    have hcapacity : p'.capacity = p.capacity := htells.capacity.trans h.capacity.symm
    have hidle := h.sound.idle_eq
    have hidle' := htells.sound.idle_eq
    rw [← h.capacity] at hcases
    obtain ⟨hroom, hparked, hnone⟩ | ⟨hfull, hparked, hone⟩ := hcases
    · rw [hparked, List.length_cons, ← hidle] at hidle'
      exact hrest.parked_cons hcapacity (hidle ▸ hroom) hy hparked hidle' hnone
    · rw [hparked, ← hidle] at hidle'
      exact hrest.full_cons hcapacity (hidle ▸ hfull) hy hparked hidle' hone

/-- The nodes of a pool do not depend on what the payloads are. -/
theorem Laid.map {σ : Type} {p : Pool σ} {fs os : List NodeId} {parked : List σ}
    (h : Laid p fs os parked) (f : σ → τ) : Laid (p.map f) fs os (parked.map f) := by
  have hslot : ∀ n, (p.map f).slots.get n = (p.slots.get n).map f := fun n =>
    Table.get_map (f := Option.map f) rfl p.slots n
  refine ⟨h.free, h.occupied, h.nodes, fun n hn => ?_, ?_, ?_⟩
  · rw [hslot, h.vacant n hn]
    rfl
  · simp only [funext hslot]
    have hfilled := congrArg (List.map (Option.map f)) h.filled
    simpa [List.map_map, Function.comp_def] using hfilled
  · rw [List.length_map]
    exact h.idle

/-- Every node of the pool is on one of its stacks: an occupied node holds a payload and a free one
holds none, no stack stays claimed, and the idle count says how many nodes are occupied. -/
structure KeepsSlots (p : Pool τ) (fs os : List NodeId) : Prop where
  nodes : (fs ++ os).Perm (List.range p.capacity.val)
  free : p.free.Holds p.tails fs
  occupied : p.occupied.Holds p.tails os
  vacant : ∀ n ∈ fs, p.slots.get n = none
  filled : ∀ n ∈ os, ∃ payload, p.slots.get n = some payload
  idle : p.idle.toNat = os.length
  free_unclaimed : p.free.isClaimed = false
  occupied_unclaimed : p.occupied.isClaimed = false

theorem Laid.keepsSlots {p : Pool τ} {fs os : List NodeId} {parked : List τ}
    (h : Laid p fs os parked) : p.KeepsSlots fs os where
  nodes := h.nodes
  free := h.free
  occupied := h.occupied
  vacant := h.vacant
  filled := by
    intro n hn
    have hslot : p.slots.get n ∈ os.map p.slots.get := List.mem_map_of_mem hn
    rw [h.filled] at hslot
    obtain ⟨payload, -, hpayload⟩ := List.mem_map.mp hslot
    exact ⟨payload, hpayload.symm⟩
  idle := h.idle.trans h.occupied_length.symm
  free_unclaimed := h.free.isClaimed_eq
  occupied_unclaimed := h.occupied.isClaimed_eq

/-- Hooks that fail cost no slot: after any calls, whichever of them failed, every node is on one of
two unclaimed stacks, calls stopped with the faults of their hooks only, and payloads that are then
made ready one after the other are parked while there is room, and destroyed afterwards. -/
theorem run_keeps_slots (manager : Manager μ τ) (capacity : Size) (m : μ)
    (calls : List (PoolCall τ)) :
    ∃ records p c,
      chronicle manager capacity m calls = (records, p, c) ∧
      run manager calls (ofCapacity capacity, m) =
        (records.map PoolRecord.plain, p.map Numbered.payload, c.manager) ∧
      p.capacity = capacity ∧
      (∃ fs os, (p.map Numbered.payload).KeepsSlots fs os) ∧
      (∀ r ∈ records, ∀ fault, r.answer = .error fault ↔ PoolEvent.Fails r.events fault) ∧
      ∀ (payloads : List τ) records' p' c',
        answerAll (record manager) (payloads.map .release) (p, c) = (records', p', c') →
        (∀ r ∈ records', r.readied ≠ []) →
        run manager (payloads.map .release) (p.map Numbered.payload, c.manager) =
          (records'.map PoolRecord.plain, p'.map Numbered.payload, c'.manager) ∧
        Fills p payloads.length records' p' := by
  obtain ⟨records, p, c, hchronicle, htells, hfaults⟩ := chronicle_induction manager capacity m
    calls (P := fun records _ _ => ∀ r ∈ records, ∀ fault,
      r.answer = .error fault ↔ PoolEvent.Fails r.events fault) (by simp) (by
        intro records parked n r parked' n' _ h hcourse
        simp only [List.forall_mem_append, List.forall_mem_singleton]
        exact ⟨h, fun _ => hcourse.error_iff⟩)
  obtain ⟨fs, os, hlaid⟩ := htells.sound
  refine ⟨records, p, c, hchronicle, run_of_chronicle hchronicle, htells.capacity,
    ⟨fs, os, (hlaid.map Numbered.payload).keepsSlots⟩, hfaults, ?_⟩
  intro payloads records' p' c' hfill hready
  have hfills := htells.fills manager payloads c
  rw [hfill] at hfills
  refine ⟨?_, hfills hready⟩
  have hrun := run_plain manager (payloads.map .release) (p, c)
  rw [hfill] at hrun
  exact hrun

/-- The one node of a pool, whose payload a failing hook took along, is filled again. -/
theorem run_keeps_slots_one :
    let s := (chronicle ProbeBench.judging ⟨1, by decide, by decide⟩
      { failing := some .canReuse } [.release { id := 7 }, .acquire]).2
    let filling := answerAll (record ProbeBench.judging)
      ([{ id := 8 }, { id := 9 }].map .release) s
    (∀ r ∈ filling.1, r.readied ≠ []) ∧ Fills s.1 2 filling.1 filling.2.1 := by
  intro s filling
  obtain ⟨records, p, c, hchronicle, -, -, -, -, hfill⟩ := run_keeps_slots ProbeBench.judging
    ⟨1, by decide, by decide⟩ { failing := some .canReuse } [.release { id := 7 }, .acquire]
  have hs : s = (p, c) := congrArg Prod.snd hchronicle
  have hready : ∀ r ∈ filling.1, r.readied ≠ [] := by decide
  refine ⟨hready, ?_⟩
  have hfilling : answerAll (record ProbeBench.judging)
      ([{ id := 8 }, { id := 9 }].map .release) (p, c) = filling := by rw [← hs]
  rw [hs]
  exact (hfill _ _ _ _ hfilling hready).2

end Pool

end CachePool
