import CachePool.Pool.Probe
import CachePool.Proofs.Pool.Refinement
import Mathlib.Data.List.Infix

/-!
# A pool builds no more than is needed at once

Under a manager that accepts every payload, a payload that is handed back is parked as
long as there is room, and what is parked is handed out before anything is built. So if
payloads come back to the pool that handed them out, and never more of them are held at
once than the pool can park, then as many were built as were ever held at once, and none
was destroyed.
-/

namespace CachePool

variable {μ τ : Type}

/-- From the given states, which it does not leave, a manager can always build a payload, and takes
every payload for reusable and for ready. -/
structure Manager.Accepts (manager : Manager μ τ) (states : μ → Prop) : Prop where
  create : ∀ m, states m → ∃ payload m', manager.create m = .ok payload m' ∧ states m'
  canReuse : ∀ payload m, states m → ∃ m', manager.canReuse payload m = .ok true m' ∧ states m'
  prepare : ∀ payload m, states m →
    ∃ payload' m', manager.prepare payload m = .ok (true, payload') m' ∧ states m'

/-- A manager that does not judge its payloads accepts them if it can always build one. -/
theorem Manager.accepts_of_create {create : Action μ τ} {drop : τ → μ → μ}
    {destroy : τ → Action μ Unit} {states : μ → Prop}
    (h : ∀ m, states m → ∃ payload m', create m = .ok payload m' ∧ states m') :
    Manager.Accepts { create, drop, destroy } states where
  create := h
  canReuse := fun _ m hm => ⟨m, rfl, hm⟩
  prepare := fun payload m hm => ⟨payload, m, rfl, hm⟩

namespace PoolCall

/-- The payloads held after a call, where some were held before: a payload that is asked for is held
from then on, and one that is handed back no longer. -/
def holding (held : Nat) : PoolCall τ → Nat
  | .acquire => held + 1
  | .release _ => held - 1

/-- The payloads held after calls that were all answered. -/
def held (calls : List (PoolCall τ)) : Nat := calls.foldl holding 0

/-- The most payloads held at once, after any of the calls. -/
def peak (calls : List (PoolCall τ)) : Nat := (calls.inits.map held).foldl max 0

/-- A payload is handed back only while some are held. -/
def Returns (calls : List (PoolCall τ)) : Prop :=
  ∀ past payload, past ++ [.release payload] <+: calls → 0 < held past

variable (calls : List (PoolCall τ)) (call : PoolCall τ)

theorem held_concat : held (calls ++ [call]) = call.holding (held calls) := by
  rw [held, List.foldl_append]
  rfl

theorem peak_concat : peak (calls ++ [call]) = max (peak calls) (held (calls ++ [call])) := by
  simp [peak, List.inits_append, List.foldl_append]

theorem returns_nil : Returns ([] : List (PoolCall τ)) := by
  intro past payload h
  cases List.append_ne_nil_of_right_ne_nil past (List.cons_ne_nil _ _) (List.prefix_nil.mp h)

/-- Of calls that hand back what is held, the last one does so too if it is a release. -/
theorem returns_concat : Returns (calls ++ [call]) ↔
    Returns calls ∧ ∀ payload, call = .release payload → 0 < held calls := by
  constructor
  · intro h
    refine ⟨fun past payload hpast => h past payload (hpast.trans (List.prefix_append _ _)), ?_⟩
    rintro payload rfl
    exact h calls payload (List.prefix_refl _)
  · rintro ⟨h, hlast⟩ past payload hpast
    rcases List.prefix_concat_iff.mp hpast with heq | hpast
    · obtain ⟨rfl, hcall⟩ := List.append_inj' heq rfl
      cases hcall
      exact hlast payload rfl
    · exact h past payload hpast

end PoolCall

/-- A hook that answers leaves everything but the manager alone. -/
theorem Manager.ask_ok {π ρ : Type} {hook : Action μ ρ} {answer : ρ} {m m' : μ}
    (h : hook m = .ok answer m') (s : π) : ask hook (s, m) = .ok answer (s, m') := by
  simp only [ask, Action.within, h]

/-- A hook that answers about a payload in flight leaves everything but the manager alone. -/
theorem Manager.askAbout_ok {π ρ : Type} {manager : Manager μ τ} {hook : τ → Action μ ρ}
    {payload : τ} {answer : ρ} {m m' : μ} (h : hook payload m = .ok answer m') (s : π) :
    manager.askAbout payload hook (s, m) = .ok answer (s, m') := by
  simp only [askAbout, h]

namespace PoolModel

variable {manager : Manager μ τ} {states : μ → Prop} {q : PoolModel τ} {m : μ} {payload : τ}
  {parked : List τ}

/-- An acquire that finds nothing parked builds a payload. -/
theorem acquire_nil (h : manager.Accepts states) (hm : states m) (hq : q.parked = []) :
    ∃ payload m', perform manager .acquire (q, m) = .ok (some payload)
      ({ q with stats :=
          { q.stats with acquires := q.stats.acquires + 1, creates := q.stats.creates + 1 } },
        m') ∧ states m' := by
  obtain ⟨payload, m', hcreate, hm'⟩ := h.create m hm
  have hrun : acquire manager (q, m) = acquireParked manager []
      ({ q with stats := { q.stats with acquires := q.stats.acquires + 1 } }, m) := by
    rw [← hq]
    rfl
  have hbuild := Action.bind_ok (f := fun payload => pure (some payload))
    (hrun.trans (Manager.ask_ok hcreate _))
  exact ⟨payload, m', hbuild, hm'⟩

/-- An acquire that finds a payload parked hands it out. -/
theorem acquire_cons (h : manager.Accepts states) (hm : states m)
    (hq : q.parked = payload :: parked) : ∃ m',
    perform manager .acquire (q, m) = .ok (some payload)
      ({ q with parked, stats := { q.stats with acquires := q.stats.acquires + 1 } }, m') ∧
    states m' := by
  obtain ⟨m', hreuse, hm'⟩ := h.canReuse payload m hm
  have hrun : acquire manager (q, m) = acquireParked manager (payload :: parked)
      ({ q with stats := { q.stats with acquires := q.stats.acquires + 1 } }, m) := by
    rw [← hq]
    rfl
  have hjudged : acquireParked manager (payload :: parked)
      ({ q with stats := { q.stats with acquires := q.stats.acquires + 1 } }, m) =
        .ok payload _ := Action.bind_ok (Manager.askAbout_ok hreuse _)
  exact ⟨m', Action.bind_ok (f := fun payload => pure (some payload)) (hrun.trans hjudged), hm'⟩

/-- A release that finds room parks its payload. -/
theorem release_room (h : manager.Accepts states) (hm : states m)
    (hroom : q.parked.length < q.capacity) (payload : τ) :
    ∃ readied m', perform manager (.release payload) (q, m) = .ok none
      ({ q with
          parked := readied :: q.parked
          stats := { q.stats with releases := q.stats.releases + 1 } }, m') ∧ states m' := by
  obtain ⟨readied, m', hprepare, hm'⟩ := h.prepare payload m hm
  have hready : release manager payload (q, m) = _ := Action.bind_ok
    (s := ({ q with stats := { q.stats with releases := q.stats.releases + 1 } }, m))
    (Manager.askAbout_ok hprepare _)
  simp only [Action.get_bind] at hready
  rw [if_pos (by simpa using hroom)] at hready
  exact ⟨readied, m', Action.bind_ok (f := fun _ => pure none) hready, hm'⟩

/-- After the calls, as many payloads were built as were ever held at once, none was destroyed, and
those that are not held are parked. -/
structure Recycles (q : PoolModel τ) (calls : List (PoolCall τ)) : Prop where
  creates : q.stats.creates.toNat = PoolCall.peak calls
  destroyed : q.stats.destroyed = 0
  balance : PoolCall.held calls + q.parked.length = PoolCall.peak calls

namespace Recycles

variable {calls : List (PoolCall τ)} {call : PoolCall τ}

/-- A call under a manager that accepts every payload is answered, and leaves a list that recycles:
it builds only if nothing is parked, when all payloads so far are held, and it finds room, because
one of them was held. -/
theorem perform (h : q.Recycles calls) (haccepts : manager.Accepts states) (hm : states m)
    (hreturns : PoolCall.Returns (calls ++ [call]))
    (hpeak : PoolCall.peak (calls ++ [call]) ≤ q.capacity) (hcapacity : q.capacity < UInt64.size) :
    ∃ answer q' m', PoolModel.perform manager call (q, m) = .ok answer (q', m') ∧ states m' ∧
      q'.capacity = q.capacity ∧ q'.Recycles (calls ++ [call]) := by
  obtain ⟨hcreates, hdestroyed, hbalance⟩ := h
  have hnext := PoolCall.peak_concat calls call
  have hheld := PoolCall.held_concat calls call
  cases call with
  | acquire =>
    rw [PoolCall.holding] at hheld
    cases hparked : q.parked with
    | nil =>
      obtain ⟨payload, m', hrun, hm'⟩ := acquire_nil haccepts hm hparked
      rw [hparked, List.length_nil] at hbalance
      have hfits : q.stats.creates.toNat + 1 < 2 ^ 64 := by
        have hsize : UInt64.size = 2 ^ 64 := rfl
        omega
      refine ⟨_, _, _, hrun, hm', rfl, ?_, hdestroyed, ?_⟩
      · change (q.stats.creates + 1).toNat = _
        rw [UInt64.toNat_add, UInt64.toNat_one, Nat.mod_eq_of_lt hfits]
        omega
      · rw [hparked, List.length_nil]
        omega
    | cons payload parked =>
      obtain ⟨m', hrun, hm'⟩ := acquire_cons haccepts hm hparked
      rw [hparked, List.length_cons] at hbalance
      refine ⟨_, _, _, hrun, hm', rfl, ?_, hdestroyed, ?_⟩
      · change q.stats.creates.toNat = _
        omega
      · change _ + parked.length = _
        omega
  | release payload =>
    rw [PoolCall.holding] at hheld
    have hsome := ((PoolCall.returns_concat _ _).mp hreturns).2 payload rfl
    have hroom : q.parked.length < q.capacity := by omega
    obtain ⟨readied, m', hrun, hm'⟩ := release_room haccepts hm hroom payload
    refine ⟨_, _, _, hrun, hm', rfl, ?_, hdestroyed, ?_⟩
    · change q.stats.creates.toNat = _
      omega
    · rw [List.length_cons]
      omega

end Recycles

/-- Over any calls that hand back what they hold, the list recycles. -/
theorem recycles_run (haccepts : manager.Accepts states) (hm : states m) (capacity : Size)
    (calls : List (PoolCall τ)) (hreturns : PoolCall.Returns calls)
    (hpeak : PoolCall.peak calls ≤ capacity.val) :
    ∃ answers q m', run manager calls (ofCapacity capacity, m) = (answers, q, m') ∧ states m' ∧
      (∀ answer ∈ answers, ∃ payload, answer = .ok payload) ∧
      q.capacity = capacity.val ∧ q.Recycles calls := by
  induction calls using List.reverseRecOn with
  | nil => exact ⟨[], _, m, rfl, hm, nofun, rfl, rfl, rfl, rfl⟩
  | append_singleton calls call ih =>
    have hle : PoolCall.peak calls ≤ PoolCall.peak (calls ++ [call]) := by
      rw [PoolCall.peak_concat]
      exact Nat.le_max_left _ _
    obtain ⟨answers, q, m', hrun, hm', hanswers, hcapacity, hrecycles⟩ :=
      ih ((PoolCall.returns_concat _ _).mp hreturns).1 (hle.trans hpeak)
    obtain ⟨answer, q', m'', hcall, hm'', hcapacity', hrecycles'⟩ :=
      hrecycles.perform haccepts hm' hreturns (hcapacity ▸ hpeak) (hcapacity ▸ capacity.lt)
    refine ⟨answers ++ [.ok answer], q', m'', ?_, hm'', ?_, hcapacity'.trans hcapacity,
      hrecycles'⟩
    · rw [run] at hrun ⊢
      rw [Action.attemptAll_concat, hrun, Action.attempt_ok hcall]
    · simp only [List.forall_mem_append, List.forall_mem_singleton]
      exact ⟨hanswers, _, rfl⟩

end PoolModel

namespace Pool

/-- A pool creates only as many payloads as are ever held at once: under a manager that accepts
every payload, where payloads are handed back only while some are held, and never more of them are
held at once than the pool can park, every call is answered, as many payloads were built as the most
that were held at once, none was destroyed, and those that are not held are parked. -/
theorem run_recycles {manager : Manager μ τ} {states : μ → Prop} {m : μ}
    (haccepts : manager.Accepts states) (hm : states m) (capacity : Size)
    (calls : List (PoolCall τ)) (hreturns : PoolCall.Returns calls)
    (hpeak : PoolCall.peak calls ≤ capacity.val) :
    ∃ answers p m', run manager calls (ofCapacity capacity, m) = (answers, p, m') ∧
      (∀ answer ∈ answers, ∃ payload, answer = .ok payload) ∧
      p.stats.creates.toNat = PoolCall.peak calls ∧
      p.stats.destroyed = 0 ∧
      PoolCall.held calls + p.idle.toNat = p.stats.creates.toNat := by
  obtain ⟨answers, q, m', hmodel, -, hanswers, -, hcreates, hdestroyed, hbalance⟩ :=
    PoolModel.recycles_run haccepts hm capacity calls hreturns hpeak
  obtain ⟨hsame, hstep⟩ := Lockstep.attemptAll
    (fun call _ _ h => InStep.perform h manager call) calls (inStep_ofCapacity capacity m)
  rw [PoolModel.run] at hmodel
  rw [hmodel] at hsame hstep
  obtain ⟨hq, -⟩ := Prod.mk.inj hstep.model
  have hidle := hstep.sound.idle_eq
  rw [hq] at hcreates hdestroyed hbalance
  refine ⟨answers, _, _, Prod.ext hsame rfl, hanswers, hcreates, hdestroyed, ?_⟩
  exact (congrArg _ hidle).trans (hbalance.trans hcreates.symm)

/-- The one payload that is ever held is built once and recycled. -/
theorem run_recycles_one :
    ∃ answers p b, run ProbeBench.building [.acquire, .release { id := 0 }, .acquire]
        (ofCapacity ⟨1, by decide, by decide⟩, {}) = (answers, p, b) ∧
      p.stats.creates.toNat = 1 ∧ p.stats.destroyed = 0 ∧ 1 + p.idle.toNat = 1 := by
  have haccepts : ProbeBench.building.Accepts fun b => b.failing = none := by
    refine Manager.accepts_of_create fun b hb => ?_
    have hcreate : ProbeBench.create b = .ok { id := b.nextId }
        { b.note (.created b.nextId) with nextId := b.nextId + 1 } := by
      simp [ProbeBench.create, ProbeBench.guarded, hb]
    exact ⟨_, _, hcreate, hb⟩
  have hreturns : PoolCall.Returns [.acquire, .release ({ id := 0 } : Probe), .acquire] := by
    have hfirst : PoolCall.Returns [.acquire (τ := Probe)] :=
      (PoolCall.returns_concat [] .acquire).mpr ⟨PoolCall.returns_nil, nofun⟩
    have hsecond : PoolCall.Returns [.acquire, .release ({ id := 0 } : Probe)] :=
      (PoolCall.returns_concat [.acquire] _).mpr ⟨hfirst, fun _ _ => by decide⟩
    exact (PoolCall.returns_concat _ .acquire).mpr ⟨hsecond, nofun⟩
  obtain ⟨answers, p, b, hrun, -, hcreates, hdestroyed, hbalance⟩ :=
    run_recycles haccepts (m := {}) rfl ⟨1, by decide, by decide⟩ _ hreturns (by decide)
  have hpeak : PoolCall.peak [.acquire, .release ({ id := 0 } : Probe), .acquire] = 1 := by decide
  rw [hcreates, hpeak] at hbalance
  exact ⟨answers, p, b, hrun, hcreates.trans hpeak, hdestroyed, hbalance⟩

end Pool

end CachePool
