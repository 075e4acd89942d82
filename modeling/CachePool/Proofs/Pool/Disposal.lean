import CachePool.Pool.Probe
import CachePool.Proofs.Pool.Slots
import Mathlib.Data.List.Perm.Basic

/-!
# Every payload leaves a pool once

Each entry of a payload into a pool has a number of its own. After any calls the numbers
given so far are those of the payloads that were handed out, that are parked, that were
passed on to be destroyed, and that ended in a hook that gave up on them; so nothing is
destroyed twice, and nothing that was given up is handed out. What is handed out was
built for it, or was readied when it came in and accepted before it went out. The end of
a pool destroys what is parked.
-/

namespace CachePool

variable {μ τ : Type}

namespace PoolEvent

/-- The number under which a payload was built. -/
def built? : PoolEvent τ → Option Nat
  | .answered .create x _ => some x.number
  | _ => none

/-- The payload that was in flight when the hook to judge or to ready it failed. -/
def unwound? : PoolEvent τ → Option (Numbered τ)
  | .failed .canReuse x _ => x
  | .failed .prepare x _ => x
  | _ => none

/-- The payload that was in flight when any hook failed. -/
def abandoned? : PoolEvent τ → Option (Numbered τ)
  | .failed _ x _ => x
  | _ => none

/-- The payload that ended in flight. -/
def ended? : PoolEvent τ → Option (Numbered τ)
  | .ended x => some x
  | _ => none

end PoolEvent

namespace PoolRecord

variable (r : PoolRecord τ)

/-- The numbers under which payloads entered during a call, released ones and built ones. -/
def entered : List Nat :=
  (match r.call with
    | .acquire => []
    | .release x => [x.number]) ++ r.events.filterMap PoolEvent.built?

/-- The number of the payload that was handed out. -/
def handedOut : List Nat :=
  match r.answer with
  | .ok (some x) => [x.number]
  | _ => []

/-- The payloads that were dropped because a hook failed to judge or to ready them. -/
def unwound : List (Numbered τ) := r.events.filterMap PoolEvent.unwound?

/-- The numbers of the payloads that left during a call. -/
def left : List Nat :=
  r.handedOut ++ (r.destroyed.map Numbered.number ++ r.unwound.map Numbered.number)

/-- The payload was readied when it was released in the call. -/
def Readied (x : Numbered τ) : Prop :=
  ∃ y, r.call = .release y ∧ y.number = x.number ∧ .answered .prepare x true ∈ r.events

/-- The payload was built in the call, or taken from the parked ones and accepted. -/
inductive Provided (parked : List (Numbered τ)) (x : Numbered τ) : Prop
  | built (h : .answered .create x true ∈ r.events)
  | accepted (h : .answered .canReuse x true ∈ r.events) (hx : x ∈ parked)

end PoolRecord

section Calls

variable {capacity n n' : Nat} {parked parked' : List (Numbered τ)} {x : Numbered τ}
  {events : List (PoolEvent τ)} {r : PoolRecord τ}

theorem Disposed.built_eq {answer : Except Fault Unit} (h : Disposed x answer events) :
    events.filterMap PoolEvent.built? = [] := by
  cases h <;> rfl

theorem Disposed.ended_eq {answer : Except Fault Unit} (h : Disposed x answer events) :
    events.filterMap PoolEvent.ended? = events.filterMap PoolEvent.abandoned? := by
  cases h <;> rfl

/-- An acquire numbers what it builds in turn. -/
theorem Served.range_built {answer : Except Fault (Numbered τ)}
    (h : Served n parked answer events parked' n') :
    List.range n ++ events.filterMap PoolEvent.built? = List.range n' := by
  induction h with
  | built payload => exact List.range_succ.symm
  | unbuilt | accepted | unjudged | undisposed => exact List.append_nil _
  | rejected x h ih => exact ih

/-- What an acquire finds parked or builds is handed out, stays parked, is destroyed or unwound. -/
theorem Served.perm {answer : Except Fault (Numbered τ)}
    (h : Served n parked answer events parked' n') :
    (parked.map Numbered.number ++ events.filterMap PoolEvent.built?).Perm
      (parked'.map Numbered.number ++
        PoolRecord.left ⟨.acquire, answer.map some, events⟩) := by
  induction h with
  | built | unbuilt => exact .refl _
  | accepted x parked | unjudged x parked | undisposed x parked =>
    rw [List.map_cons, List.cons_append]
    refine (List.perm_append_singleton _ _).symm.trans ?_
    rw [List.append_assoc]
    exact .refl _
  | @rejected x parked parked' answer events n' h ih =>
    have hleft : (PoolRecord.left ⟨.acquire, answer.map some,
        .answered .canReuse x false :: .answered .destroy x true :: events⟩).Perm
          (x.number :: PoolRecord.left ⟨.acquire, answer.map some, events⟩) := List.perm_middle
    exact (ih.cons x.number).trans (List.perm_middle.symm.trans (hleft.symm.append_left _))

theorem Served.ended_eq {answer : Except Fault (Numbered τ)}
    (h : Served n parked answer events parked' n') :
    events.filterMap PoolEvent.ended? = events.filterMap PoolEvent.abandoned? := by
  induction h with
  | built | unbuilt | accepted | unjudged | undisposed => rfl
  | rejected x h ih => exact ih

/-- What an acquire leaves parked was parked before. -/
theorem Served.parked_subset {answer : Except Fault (Numbered τ)}
    (h : Served n parked answer events parked' n') : parked' ⊆ parked := by
  induction h with
  | built | unbuilt => exact List.Subset.refl _
  | accepted x parked | unjudged x parked | undisposed x parked => exact List.subset_cons_self x _
  | rejected x h ih => exact fun y hy => List.mem_cons_of_mem x (ih hy)

/-- What an acquire hands out was built for it, or parked and accepted. -/
theorem Served.provided {answer : Except Fault (Numbered τ)}
    (h : Served n parked answer events parked' n') (hanswer : answer = .ok x) :
    PoolRecord.Provided ⟨.acquire, answer.map some, events⟩ parked x := by
  induction h with
  | built payload =>
    cases hanswer
    exact .built List.mem_cons_self
  | accepted y parked =>
    cases hanswer
    exact .accepted List.mem_cons_self List.mem_cons_self
  | unbuilt | unjudged | undisposed => cases hanswer
  | rejected y h ih =>
    cases ih hanswer with
    | built hbuilt => exact .built (List.mem_cons_of_mem _ (List.mem_cons_of_mem _ hbuilt))
    | accepted haccepted hx =>
      exact .accepted (List.mem_cons_of_mem _ (List.mem_cons_of_mem _ haccepted))
        (List.mem_cons_of_mem _ hx)

/-- A payload that is released is parked, destroyed or unwound. -/
theorem Returned.perm {answer : Except Fault Unit}
    (h : Returned capacity x parked answer events parked') :
    (parked.map Numbered.number ++
        PoolRecord.entered ⟨.release x, answer.map fun _ => none, events⟩).Perm
      (parked'.map Numbered.number ++
        PoolRecord.left ⟨.release x, answer.map fun _ => none, events⟩) := by
  cases h with
  | unready fault => exact .refl _
  | parked payload hroom =>
    refine (List.perm_append_singleton _ _).trans ?_
    rw [List.map_cons, List.cons_append]
    exact .of_eq (List.append_nil _).symm
  | disposed payload ready hfull hdisposed => cases hdisposed <;> cases ready <;> exact .refl _

theorem Returned.ended_eq {answer : Except Fault Unit}
    (h : Returned capacity x parked answer events parked') :
    events.filterMap PoolEvent.ended? = events.filterMap PoolEvent.abandoned? := by
  cases h with
  | unready | parked => rfl
  | disposed payload ready hfull hdisposed => exact hdisposed.ended_eq

/-- A release builds nothing. -/
theorem Returned.built_eq {answer : Except Fault Unit}
    (h : Returned capacity x parked answer events parked') :
    events.filterMap PoolEvent.built? = [] := by
  cases h with
  | unready | parked => rfl
  | disposed payload ready hfull hdisposed => exact hdisposed.built_eq

/-- What a release parks was readied in it. -/
theorem Returned.readied {answer : Except Fault Unit} {y : Numbered τ}
    (h : Returned capacity x parked answer events parked') (hy : y ∈ parked') :
    y ∈ parked ∨ y.number = x.number ∧ .answered .prepare y true ∈ events := by
  cases h with
  | unready | disposed => exact .inl hy
  | parked payload hroom =>
    rcases List.mem_cons.mp hy with rfl | hy
    · exact .inr ⟨rfl, List.mem_cons_self⟩
    · exact .inl hy

/-- A call numbers in turn what enters. -/
theorem Course.range_entered (h : Course capacity parked n r parked' n') :
    List.range n ++ r.entered = List.range n' := by
  cases h with
  | acquire h => exact h.range_built
  | release payload h =>
    rw [PoolRecord.entered, h.built_eq]
    exact List.range_succ.symm

/-- What was parked or enters stays parked or leaves. -/
theorem Course.perm (h : Course capacity parked n r parked' n') :
    (parked.map Numbered.number ++ r.entered).Perm (parked'.map Numbered.number ++ r.left) := by
  cases h with
  | acquire h => exact h.perm
  | release payload h => exact h.perm

/-- A payload that is in flight when a hook fails ends, and no other one does. -/
theorem Course.ended_eq (h : Course capacity parked n r parked' n') :
    r.events.filterMap PoolEvent.ended? = r.events.filterMap PoolEvent.abandoned? := by
  cases h with
  | acquire h => exact h.ended_eq
  | release payload h => exact h.ended_eq

/-- What is handed out was built for it, or parked and accepted. -/
theorem Course.provided (h : Course capacity parked n r parked' n')
    (hanswer : r.answer = .ok (some x)) : r.Provided parked x := by
  cases h with
  | @acquire answer events _ _ hserved =>
    refine hserved.provided ?_
    cases answer with
    | error fault => cases hanswer
    | ok y =>
      cases hanswer
      rfl
  | @release payload answer _ _ _ => cases answer <;> cases hanswer

/-- What is parked after a call was parked before, or was readied in it. -/
theorem Course.readied (h : Course capacity parked n r parked' n') (hx : x ∈ parked') :
    x ∈ parked ∨ r.Readied x := by
  cases h with
  | acquire h => exact .inl (h.parked_subset hx)
  | release payload h =>
    refine (h.readied hx).imp_right ?_
    rintro ⟨hnumber, hready⟩
    exact ⟨_, rfl, hnumber.symm, hready⟩

end Calls

/-- What became of the payloads that entered a pool, while the next number is the given one. -/
structure Disposal (records : List (PoolRecord τ)) (parked : List (Numbered τ)) (n : Nat) :
    Prop where
  entered : records.flatMap PoolRecord.entered = List.range n
  left : (parked.map Numbered.number ++ records.flatMap PoolRecord.left).Perm (List.range n)
  ended : ∀ r ∈ records,
    r.events.filterMap PoolEvent.ended? = r.events.filterMap PoolEvent.abandoned?
  readied : ∀ x ∈ parked, ∃ r ∈ records, r.Readied x
  provided : ∀ before r, before ++ [r] <+: records → ∀ x, r.answer = .ok (some x) →
    .answered .create x true ∈ r.events ∨
      .answered .canReuse x true ∈ r.events ∧ ∃ r' ∈ before, r'.Readied x

namespace Disposal

variable {capacity n n' : Nat} {records : List (PoolRecord τ)} {parked parked' : List (Numbered τ)}
  {r : PoolRecord τ}

theorem nil : Disposal ([] : List (PoolRecord τ)) [] 0 where
  entered := rfl
  left := .refl _
  ended := nofun
  readied := nofun
  provided := by
    intro before r h
    cases List.append_ne_nil_of_right_ne_nil before (List.cons_ne_nil r []) (List.prefix_nil.mp h)

/-- Whichever way a call goes, every payload is still accounted for. -/
theorem concat (h : Disposal records parked n) (hcourse : Course capacity parked n r parked' n') :
    Disposal (records ++ [r]) parked' n' where
  entered := by
    rw [List.flatMap_append, List.flatMap_singleton, h.entered, hcourse.range_entered]
  left := by
    have hcall : ∀ leaving : List Nat,
        (parked'.map Numbered.number ++ (leaving ++ r.left)).Perm
          (parked.map Numbered.number ++ leaving ++ r.entered) := by
      intro leaving
      calc (parked'.map Numbered.number ++ (leaving ++ r.left)).Perm
            (leaving ++ (parked'.map Numbered.number ++ r.left)) :=
          List.perm_append_comm_assoc _ _ _
        List.Perm _ (leaving ++ (parked.map Numbered.number ++ r.entered)) :=
          hcourse.perm.symm.append_left leaving
        List.Perm _ (parked.map Numbered.number ++ leaving ++ r.entered) := by
          rw [List.append_assoc]
          exact List.perm_append_comm_assoc _ _ _
    rw [List.flatMap_append, List.flatMap_singleton, ← hcourse.range_entered]
    exact (hcall _).trans (h.left.append_right r.entered)
  ended := by
    simp only [List.forall_mem_append, List.forall_mem_singleton]
    exact ⟨h.ended, hcourse.ended_eq⟩
  readied := by
    intro x hx
    rcases hcourse.readied hx with hx | hready
    · obtain ⟨r', hr', hready⟩ := h.readied x hx
      exact ⟨r', List.mem_append_left _ hr', hready⟩
    · exact ⟨r, List.mem_concat_self, hready⟩
  provided := by
    intro before s hprefix x hanswer
    rcases List.prefix_concat_iff.mp hprefix with heq | hprefix
    · -- the latest call: what it takes from the parked ones was readied before
      obtain ⟨rfl, hs⟩ := List.append_inj' heq rfl
      cases hs
      cases hcourse.provided hanswer with
      | built hbuilt => exact .inl hbuilt
      | accepted haccepted hx => exact .inr ⟨haccepted, h.readied x hx⟩
    · exact h.provided before s hprefix x hanswer

end Disposal

/-- The ways in which parked payloads are destroyed one after the other. -/
inductive Drained : List (Numbered τ) → Except Fault Unit → List (PoolEvent τ) → Prop
  | nil : Drained [] (.ok ()) []
  | failed (x : Numbered τ) (parked : List (Numbered τ)) (fault : Fault) :
      Drained (x :: parked) (.error fault) [.failed .destroy (some x) fault, .ended x]
  | destroyed (x : Numbered τ) {parked : List (Numbered τ)} {answer : Except Fault Unit}
      {events : List (PoolEvent τ)} (h : Drained parked answer events) :
      Drained (x :: parked) answer (.answered .destroy x true :: events)

/-- If no hook fails, every payload is destroyed once. -/
theorem Drained.eq_of_smooth {parked : List (Numbered τ)} {answer : Except Fault Unit}
    {events : List (PoolEvent τ)} (h : Drained parked answer events)
    (hsmooth : ∀ fault, ¬ PoolEvent.Fails events fault) :
    answer = .ok () ∧ events = parked.map (.answered .destroy · true) := by
  induction h with
  | nil => exact ⟨rfl, rfl⟩
  | failed x parked fault => exact (hsmooth fault ⟨_, _, List.mem_cons_self⟩).elim
  | destroyed x h ih =>
    obtain ⟨hanswer, hevents⟩ := ih fun fault ⟨hook, y, hfailed⟩ =>
      hsmooth fault ⟨hook, y, List.mem_cons_of_mem _ hfailed⟩
    exact ⟨hanswer, congrArg _ hevents⟩

namespace Pool

variable {p : Pool (Numbered τ)} {os : List NodeId} {parked : List (Numbered τ)}

/-- The payloads in the occupied nodes are destroyed until one cannot be, or no node is left. -/
theorem exists_drained (manager : Manager μ τ) (c : Chronicle μ τ) {fuel : Nat}
    (hoccupied : p.occupied.Holds p.tails os) (hfilled : os.map p.slots.get = parked.map some)
    (hf : os.length ≤ fuel) :
    ∃ answer events p' m,
      (drainParked manager.observed fuel).attempt (p, c) =
        (answer, p', { c with manager := m, events := c.events ++ events }) ∧
      Drained parked answer events ∧ (answer = .ok () → p'.occupied.Holds p'.tails []) := by
  induction os generalizing p c parked fuel with
  | nil =>
    cases parked with
    | cons => cases hfilled
    | nil =>
      refine ⟨.ok (), [], p, c.manager, ?_, .nil, fun _ => hoccupied⟩
      cases fuel with
      | zero => simp [drainParked, Action.attempt]
      | succ fuel =>
        rw [drainParked, Action.attempt_bind_ok (popOccupied_nil hoccupied)]
        simp [Action.attempt]
  | cons n os ih =>
    cases parked with
    | nil => cases hfilled
    | cons x parked =>
      cases fuel with
      | zero => cases hf
      | succ fuel =>
        obtain ⟨hslot, hslots⟩ := List.cons.inj hfilled
        have hstill : os.map (p.slots.set n none).get = parked.map some := by
          rw [map_slots_set (List.nodup_cons.mp hoccupied.nodup).1]
          exact hslots
        obtain ⟨q, hq, hkept, hrest⟩ : ∃ q : Pool (Numbered τ),
            q = { p with
              occupied := .below os
              tails := p.tails.set n none
              slots := p.slots.set n none } ∧
            q.occupied.Holds q.tails os ∧ os.map q.slots.get = parked.map some :=
          ⟨_, rfl, hoccupied.pop, hstill⟩
        rw [drainParked, Action.attempt_bind_ok (popOccupied_cons hoccupied)]
        simp only
        rw [Action.attempt_bind_ok (exchange_eq _ c n none)]
        simp only [hslot]
        rw [← hq, Action.attempt_bind]
        obtain ⟨answer, events, m, hdiscard, hdisposed⟩ := manager.exists_disposed x
          { q with stats := { q.stats with destroyed := q.stats.destroyed + 1 } } c
        have hcounted : (discard manager.observed x).attempt (q, c) = _ := hdiscard
        rw [hcounted]
        cases hdisposed with
        | failed fault =>
          refine ⟨_, _, _, m, rfl, .failed x parked fault, ?_⟩
          rintro ⟨⟩
        | done =>
          obtain ⟨answer, events, p', m', hrun, hdrained, hempty⟩ :=
            ih (p := { q with stats := { q.stats with destroyed := q.stats.destroyed + 1 } })
              { c with manager := m, events := c.events ++ [.answered .destroy x true] }
              hkept hrest (Nat.le_of_succ_le_succ hf)
          refine ⟨answer, _, p', m', hrun.trans ?_, .destroyed x hdrained, hempty⟩
          rw [List.append_assoc]
          rfl

/-- A pool whose occupied stack holds no node parks nothing. -/
theorem parked_of_holds_nil {p : Pool τ} (h : p.occupied.Holds p.tails []) : p.parked = [] := by
  rw [parked, h.head]
  cases p.capacity.val <;> rfl

/-- The end of a pool between two calls destroys what is parked, and leaves nothing, if no hook
fails. -/
theorem Sound.drained (h : p.Sound) (manager : Manager μ τ) (c : Chronicle μ τ) :
    ∃ answer p' c',
      (drain manager.observed).attempt (p, { c with events := [] }) = (answer, p', c') ∧
      (drain manager).attempt (p.map Numbered.payload, c.manager) =
        (answer, p'.map Numbered.payload, c'.manager) ∧
      ((∀ fault, ¬ PoolEvent.Fails c'.events fault) →
        answer = .ok () ∧ p'.parked = [] ∧
          c'.events = p.parked.map (.answered .destroy · true)) := by
  obtain ⟨fs, os, hlaid⟩ := h
  have hfuel : os.length ≤ p.capacity.val := by
    have hlength := hlaid.free_length
    rw [hlaid.occupied_length]
    omega
  obtain ⟨answer, events, p', m, hrun, hdrained, hempty⟩ :=
    exists_drained manager { c with events := [] } hlaid.occupied hlaid.filled hfuel
  have hdrain : (drain manager.observed).attempt (p, { c with events := [] }) =
      (answer, p', { c with manager := m, events }) := hrun
  have hplain := (projects_drain manager).attempt (p, { c with events := [] })
  refine ⟨answer, p', _, hdrain, ?_, ?_⟩
  · rw [hdrain] at hplain
    cases answer <;> exact hplain
  · intro hsmooth
    obtain ⟨hanswer, hevents⟩ := hdrained.eq_of_smooth hsmooth
    exact ⟨hanswer, parked_of_holds_nil (hempty hanswer), hevents⟩

/-- A pool parks the same payloads with and without their numbers. -/
theorem Sound.map_parked {σ : Type} {p : Pool σ} (h : p.Sound) (f : σ → τ) :
    (p.map f).parked = p.parked.map f := by
  obtain ⟨fs, os, hlaid⟩ := h
  exact (hlaid.map f).parked_eq

/-- Every payload that entered a pool was handed out, is parked, was passed on to be destroyed, or
ended in a hook that failed, and exactly one of these once, whatever the hooks did; what was handed
out was built for it, or readied when it was released and then accepted; and the end of the pool, if
no hook fails in it, destroys every parked payload once. -/
theorem run_disposes_once (manager : Manager μ τ) (capacity : Size) (m : μ)
    (calls : List (PoolCall τ)) :
    ∃ records p c,
      chronicle manager capacity m calls = (records, p, c) ∧
      run manager calls (ofCapacity capacity, m) =
        (records.map PoolRecord.plain, p.map Numbered.payload, c.manager) ∧
      (p.map Numbered.payload).parked = p.parked.map Numbered.payload ∧
      Disposal records p.parked c.entered ∧
      ∃ answer p' c',
        (drain manager.observed).attempt (p, { c with events := [] }) = (answer, p', c') ∧
        (drain manager).attempt (p.map Numbered.payload, c.manager) =
          (answer, p'.map Numbered.payload, c'.manager) ∧
        ((∀ fault, ¬ PoolEvent.Fails c'.events fault) →
          answer = .ok () ∧ p'.parked = [] ∧
            c'.events = p.parked.map (.answered .destroy · true)) := by
  obtain ⟨records, p, c, hchronicle, htells, hdisposal⟩ := chronicle_induction manager capacity m
    calls (P := Disposal) .nil fun _ _ _ _ _ _ _ h hcourse => h.concat hcourse
  exact ⟨records, p, c, hchronicle, run_of_chronicle hchronicle, htells.sound.map_parked _,
    hdisposal, htells.sound.drained manager c⟩

/-- A payload that was parked while another one was handed out is destroyed at the end. -/
theorem run_disposes_once_parked : ∃ records p c,
    chronicle ProbeBench.judging ⟨2, by decide, by decide⟩ {}
      [.release { id := 7 }, .release { id := 8 }, .acquire] = (records, p, c) ∧
    ∃ answer p' c',
      (drain ProbeBench.judging.observed).attempt (p, { c with events := [] }) =
        (answer, p', c') ∧
      answer = .ok () ∧ p'.parked = [] ∧
        c'.events = p.parked.map (.answered .destroy · true) := by
  obtain ⟨records, p, c, hchronicle, -, -, -, answer, p', c', hdrain, -, hsmooth⟩ :=
    run_disposes_once ProbeBench.judging ⟨2, by decide, by decide⟩ {}
      [.release { id := 7 }, .release { id := 8 }, .acquire]
  have hsmooth' : (((drain ProbeBench.judging.observed).attempt
      ((chronicle ProbeBench.judging ⟨2, by decide, by decide⟩ {}
        [.release { id := 7 }, .release { id := 8 }, .acquire]).2.1,
      { (chronicle ProbeBench.judging ⟨2, by decide, by decide⟩ {}
        [.release { id := 7 }, .release { id := 8 }, .acquire]).2.2 with
          events := [] })).2.2.events.all fun event => event.failing?.isNone) = true := by
    decide +kernel
  rw [hchronicle, hdrain] at hsmooth'
  refine ⟨records, p, c, hchronicle, answer, p', c', hdrain, hsmooth ?_⟩
  rintro fault ⟨hook, x, hfailed⟩
  cases List.all_eq_true.mp hsmooth' _ hfailed

end Pool

end CachePool
