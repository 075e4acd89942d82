import CachePool.Cache.Shared
import CachePool.Proofs.Cache.Lookups
import CachePool.Proofs.Lockstep
import Mathlib.Algebra.BigOperators.Group.List.Basic
import Mathlib.Algebra.Ring.Int.Defs

/-!
# Clients of a shared cache

Clients share a cache of numbers through a lock. Each has a program of calls, none of
which adds or removes a key, and any of them may take the next turn. Whoever takes it,
a value is what it was plus everything that was added to it so far, and the requests
and the hits are those of the calls so far. So the end depends on the calls of the
programs, and not on the turns; generations and orders may well depend on them.
-/

namespace CachePool

open Metrics

/-- The calls are those of the programs, each program in its own order, and one of them takes each
turn. -/
inductive Interleaves {ι : Type} : List (List ι) → List ι → Prop
  | done {programs : List (List ι)} (h : ∀ program ∈ programs, program = []) :
      Interleaves programs []
  | turn {before after : List (List ι)} {call : ι} {program calls : List ι}
      (h : Interleaves (before ++ program :: after) calls) :
      Interleaves (before ++ (call :: program) :: after) (call :: calls)

/-- An interleaving consists of the calls of all programs. -/
theorem Interleaves.perm {ι : Type} {programs : List (List ι)} {calls : List ι}
    (h : Interleaves programs calls) : calls.Perm programs.flatten := by
  induction h with
  | done h => rw [List.flatten_eq_nil_iff.mpr h]
  | @turn before after call program calls _ ih =>
    rw [List.flatten_append, List.flatten_cons] at ih ⊢
    exact (ih.cons call).trans List.perm_middle.symm

/-- A call on a shared cache of numbers that neither adds nor removes a key. -/
inductive SharedCall (κ ρ : Type) where
  | get (key : κ)
  /-- Say something of a value. -/
  | getWith (key : κ) (f : Int64 → ρ)
  /-- Add to a value, and say something of the value before. -/
  | add (key : κ) (n : Int64) (f : Int64 → ρ)
  | contains (key : κ)
  | generationOf (key : κ)
  | length
  | metrics

/-- What a call on a shared cache answers. -/
inductive SharedAnswer (ρ : Type) where
  | value (v : Option Int64)
  | said (r : Option ρ)
  | found (present : Bool)
  | generation (g : Option Generation)
  | length (n : Nat)
  | metrics (m : CacheMetrics)

namespace SharedCall

variable {κ ρ : Type} [DecidableEq κ]

/-- The key that a call looks up and counts as a request. -/
def key? : SharedCall κ ρ → Option κ
  | .get key | .getWith key _ | .add key _ _ => some key
  | _ => none

omit [DecidableEq κ] in
/-- The call is a request. -/
def asks (call : SharedCall κ ρ) : Bool := call.key?.isSome

/-- The call is a request for a key that the cache has. -/
def finds (c : Cache κ Int64) (call : SharedCall κ ρ) : Bool :=
  call.key?.any fun key => (c.peek key).isSome

omit [DecidableEq κ] in
/-- What the call makes of the value that it finds. -/
def change : SharedCall κ ρ → Int64 → Int64
  | .add _ n _ => fun v => v + n
  | _ => id

/-- What the call adds to the value of a key. -/
def addend (key : κ) : SharedCall κ ρ → Int
  | .add k n _ => if key = k then n.toInt else 0
  | _ => 0

/-- What calls add to the value of a key, one with another. -/
def added (key : κ) (calls : List (SharedCall κ ρ)) : Int := (calls.map (addend key)).sum

/-- What the call answers on a cache. -/
def answerOn (c : Cache κ Int64) : SharedCall κ ρ → SharedAnswer ρ
  | .get key => .value (c.peek key)
  | .getWith key f | .add key _ f => .said ((c.peek key).map f)
  | .contains key => .found (c.contains key)
  | .generationOf key => .generation (c.generationOf key)
  | .length => .length c.length
  | .metrics => .metrics c.metrics

/-- A call adds to the value of the key that it looks up, within the word. -/
theorem change_ofInt {call : SharedCall κ ρ} {key : κ} (h : call.key? = some key) (i : Int) :
    call.change (Int64.ofInt i) = Int64.ofInt (i + call.addend key) := by
  cases call with
  | add k n f =>
    obtain rfl : k = key := Option.some.inj h
    rw [change, addend, if_pos rfl, Int64.ofInt_add, Int64.ofInt_toInt]
  | get | getWith => exact congrArg Int64.ofInt (Int.add_zero i).symm
  | contains | generationOf | length | metrics => cases h

/-- A call adds nothing to the value of another key than the one that it looks up. -/
theorem addend_of_ne {call : SharedCall κ ρ} {key : κ} (h : call.key? ≠ some key) :
    call.addend key = 0 := by
  cases call with
  | add k n f =>
    rw [addend, if_neg]
    rintro rfl
    exact h rfl
  | _ => rfl

/-- A call that looks up an absent key answers nothing. -/
theorem answerOn_absent {c : Cache κ Int64} {call : SharedCall κ ρ} {key : κ}
    (hkey : call.key? = some key) (h : c.peek key = none) :
    call.answerOn c = .value none ∨ call.answerOn c = .said none := by
  cases call with
  | get k | getWith k f | add k n f =>
    obtain rfl : k = key := Option.some.inj hkey
    simp [answerOn, h]
  | contains | generationOf | length | metrics => cases hkey

theorem added_concat (key : κ) (calls : List (SharedCall κ ρ)) (call : SharedCall κ ρ) :
    added key (calls ++ [call]) = added key calls + call.addend key := by
  rw [added, added, List.map_append, List.sum_append, List.map_singleton, List.sum_singleton]

/-- What is added does not depend on the order. -/
theorem added_perm {calls calls' : List (SharedCall κ ρ)} (h : calls.Perm calls') (key : κ) :
    added key calls = added key calls' := (h.map _).sum_eq

end SharedCall

namespace SharedCache

variable {κ ρ : Type} [DecidableEq κ] {s : SharedCache κ Int64} {c : Cache κ Int64}
  {past : List (SharedCall κ ρ)}

/-- Make a call. -/
def perform : SharedCall κ ρ → Action (SharedCache κ Int64) (Outcome (SharedAnswer ρ) Int64)
  | .get key => Outcome.map .value <$> locked (Cache.get key)
  | .getWith key f => Outcome.map .said <$> getWith key f
  | .add key n f => Outcome.map .said <$> updateWith key fun v => (f v, v + n)
  | .contains key => inspect fun c => { result := .found (c.contains key) }
  | .generationOf key => inspect fun c => { result := .generation (c.generationOf key) }
  | .length => inspect fun c => { result := .length c.length }
  | .metrics => inspect fun c => { result := .metrics c.metrics }

/-- The second cache is the first one after a call: after a lookup of its key, or as it was. -/
def Serves (c c' : Cache κ Int64) (call : SharedCall κ ρ) : Prop :=
  match call.key? with
  | some key => c.LooksUp c' key call.change
  | none => c' = c

/-- A call on a reachable cache answers from what the cache shows and frees nothing, or it is a
request that can no longer be counted. -/
theorem perform_cases (h : s.inner.Reachable) (call : SharedCall κ ρ) :
    (∃ s', perform call s = .ok { result := call.answerOn s.inner } s' ∧
      Serves s.inner s'.inner call) ∨
    (∃ s', perform call s = .error .additionOverflow s') ∧ call.asks ∧
      s.inner.counted .requests + 1 = UInt64.size := by
  cases call with
  | get key =>
    rcases h.get key with ⟨c', hget, hlooks⟩ | ⟨c', hget, hfull⟩
    · exact .inl ⟨⟨c'⟩, Action.map_ok (Action.within_ok hget), hlooks⟩
    · exact .inr ⟨⟨⟨c'⟩, Action.map_error (Action.within_error hget)⟩, rfl, hfull⟩
  | getWith key f =>
    rcases h.get key with ⟨c', hget, hlooks⟩ | ⟨c', hget, hfull⟩
    · exact .inl ⟨⟨c'⟩, Action.map_ok (Action.within_ok (Action.map_ok hget)), hlooks⟩
    · have hwith : getWith key f s = .error .additionOverflow ⟨c'⟩ := by
        rw [getWith, locked, Action.within_error (Action.map_error hget)]
      exact .inr ⟨⟨⟨c'⟩, Action.map_error hwith⟩, rfl, hfull⟩
  | add key n f =>
    rcases h.update key (fun v => v + n) with ⟨c', hupdate, hlooks⟩ | ⟨c', hupdate, hfull⟩
    · exact .inl ⟨⟨c'⟩, Action.map_ok (Action.within_ok (Action.map_ok hupdate)), hlooks⟩
    · have hwith : updateWith key (fun v => (f v, v + n)) s = .error .additionOverflow ⟨c'⟩ := by
        rw [updateWith, locked, Action.within_error (Action.map_error hupdate)]
      exact .inr ⟨⟨⟨c'⟩, Action.map_error hwith⟩, rfl, hfull⟩
  | contains | generationOf | length | metrics => exact .inl ⟨s, rfl, rfl⟩

/-- A call that answers does so from what the cache shows, and frees nothing. -/
theorem serves_of_answer (h : s.inner.Reachable) {call : SharedCall κ ρ}
    {a : Outcome (SharedAnswer ρ) Int64} (ha : ((perform call).attempt s).1 = .ok a) :
    perform call s = .ok { result := call.answerOn s.inner } ((perform call).attempt s).2 ∧
      Serves s.inner ((perform call).attempt s).2.inner call := by
  rcases perform_cases h call with ⟨s', hs', hserves⟩ | ⟨⟨s', hs'⟩, -⟩
  · rw [Action.attempt_ok hs']
    exact ⟨hs', hserves⟩
  · rw [Action.attempt_error hs'] at ha
    cases ha

/-- A call that stops is a request that can no longer be counted. -/
theorem full_of_stop (h : s.inner.Reachable) {call : SharedCall κ ρ} {fault : Fault}
    {t : SharedCache κ Int64} (hstop : perform call s = .error fault t) :
    call.asks ∧ s.inner.counted .requests + 1 = UInt64.size ∧
      ((perform call).attempt s).1 = .error .additionOverflow := by
  rcases perform_cases h call with ⟨s', hs', -⟩ | ⟨⟨s', hs'⟩, hasks, hfull⟩
  · cases hs'.symm.trans hstop
  · exact ⟨hasks, hfull, by rw [Action.attempt_error hs']⟩

/-- The cache has the keys of the one that the calls started from, each with its value and what was
added to it, and counted the requests and hits of the calls. -/
structure Tallies (c : Cache κ Int64) (past : List (SharedCall κ ρ)) (s : SharedCache κ Int64) :
    Prop where
  reachable : s.inner.Reachable
  peek : ∀ key, s.inner.peek key =
    (c.peek key).map fun v => Int64.ofInt (v.toInt + SharedCall.added key past)
  length : s.inner.length = c.length
  requests : s.inner.counted .requests =
    c.counted .requests + past.countP SharedCall.asks
  cacheHits : s.inner.counted .cacheHits =
    c.counted .cacheHits + past.countP (SharedCall.finds c)

/-- Nothing was called yet. -/
theorem tallies_nil (h : c.Reachable) : Tallies c ([] : List (SharedCall κ ρ)) ⟨c⟩ where
  reachable := h
  peek := fun key => by
    simp only [SharedCall.added, List.map_nil, List.sum_nil, Int.add_zero, Int64.ofInt_toInt,
      Option.map_id']
  length := rfl
  requests := rfl
  cacheHits := rfl

/-- The calls started from a cache with the same keys. -/
theorem Tallies.isSome_eq (h : Tallies c past s) (key : κ) :
    (s.inner.peek key).isSome = (c.peek key).isSome := by rw [h.peek, Option.isSome_map]

/-- One more call is tallied. -/
theorem Tallies.concat (h : Tallies c past s) {call : SharedCall κ ρ} {s' : SharedCache κ Int64}
    (hserves : Serves s.inner s'.inner call) : Tallies c (past ++ [call]) s' := by
  rw [Serves] at hserves
  cases hkey : call.key? with
  | none =>
    rw [hkey] at hserves
    obtain rfl : s' = s := congrArg SharedCache.mk hserves
    constructor
    case reachable => exact h.reachable
    case peek =>
      intro key
      rw [h.peek, SharedCall.added_concat, SharedCall.addend_of_ne (by simp [hkey]), Int.add_zero]
    case length => exact h.length
    case requests => simp [h.requests, SharedCall.asks, hkey]
    case cacheHits => simp [h.cacheHits, SharedCall.finds, hkey]
  | some found =>
    rw [hkey] at hserves
    constructor
    case reachable => exact hserves.reachable
    case peek =>
      intro key
      rw [hserves.peek, h.peek, SharedCall.added_concat]
      by_cases hk : key = found
      · obtain rfl := hk
        rw [if_pos rfl, Option.map_map]
        refine congrArg (fun f => Option.map f _) (funext fun v => ?_)
        rw [Function.comp_apply, SharedCall.change_ofInt hkey, Int.add_assoc]
      · have hne : call.key? ≠ some key := by
          rw [hkey]
          exact fun heq => hk (Option.some.inj heq).symm
        rw [if_neg hk, SharedCall.addend_of_ne hne, Int.add_zero]
    case length => rw [hserves.length, h.length]
    case requests =>
      simp [hserves.requests, h.requests, SharedCall.asks, hkey, Nat.add_assoc]
    case cacheHits =>
      simp [hserves.cacheHits, h.cacheHits, h.isSome_eq, SharedCall.finds, hkey, Nat.add_assoc,
        List.countP_singleton]

/-- A tally does not depend on the order of the calls. -/
theorem Tallies.perm {calls calls' : List (SharedCall κ ρ)} (h : Tallies c calls s)
    (hperm : calls.Perm calls') : Tallies c calls' s where
  reachable := h.reachable
  peek := fun key => by rw [h.peek, SharedCall.added_perm hperm]
  length := h.length
  requests := by rw [h.requests, hperm.countP_eq]
  cacheHits := by rw [h.cacheHits, hperm.countP_eq]

/-- A sequence of calls that answers is tallied. -/
theorem Tallies.attemptAll (h : c.Reachable) {calls : List (SharedCall κ ρ)}
    (hanswers : Action.Answers perform calls ⟨c⟩) :
    Tallies c calls (Action.attemptAll perform calls ⟨c⟩).2 := by
  induction calls using List.reverseRecOn with
  | nil => exact tallies_nil h
  | append_singleton calls call ih =>
    obtain ⟨hcalls, a, ha⟩ := Action.answers_concat_iff.mp hanswers
    obtain ⟨-, hserves⟩ := serves_of_answer (ih hcalls).reachable ha
    rw [Action.attemptAll_concat]
    exact (ih hcalls).concat hserves

/-- After calls that are tallied, a lookup of a key that the cache did not have in the beginning
answers nothing and changes no entry. -/
theorem Tallies.absent (h : Tallies c past s) {call : SharedCall κ ρ} {s' : SharedCache κ Int64}
    (hserves : Serves s.inner s'.inner call) {key : κ} (hkey : call.key? = some key)
    (hpeek : c.peek key = none) :
    (call.answerOn s.inner = .value none ∨ call.answerOn s.inner = .said none) ∧
      s'.inner.model = s.inner.model := by
  have habsent : s.inner.peek key = none := by
    rw [h.peek, hpeek]
    rfl
  rw [Serves, hkey] at hserves
  exact ⟨SharedCall.answerOn_absent hkey habsent, hserves.absent habsent⟩

/-- Clients share a reachable cache through a lock, and their programs are interleaved in any way. Up
to the end, or to a request that can no longer be counted, every call answers from what the cache
shows and frees nothing; the keys stay, each value is what it was plus what was added to it, and the
requests and hits are those of the calls so far. A lookup of an absent key answers nothing and
changes no entry. With room for the requests, the end is the same for all interleavings. -/
theorem run_interleaved (c : Cache κ Int64) (hreachable : c.Reachable)
    (programs : List (List (SharedCall κ ρ))) (calls : List (SharedCall κ ρ))
    (hcalls : Interleaves programs calls) :
    let after (past : List (SharedCall κ ρ)) := (Action.attemptAll perform past ⟨c⟩).2
    (∃ done rest, calls = done ++ rest ∧
      (∀ past, past <+: done → Tallies c past (after past)) ∧
      (∀ past call, past ++ [call] <+: done →
        perform call (after past) =
          .ok { result := call.answerOn (after past).inner } (after (past ++ [call])) ∧
        ∀ key, call.key? = some key → c.peek key = none →
          (call.answerOn (after past).inner = .value none ∨
            call.answerOn (after past).inner = .said none) ∧
          (after (past ++ [call])).inner.model = (after past).inner.model) ∧
      ∀ call tail, rest = call :: tail → call.asks ∧
        (after done).inner.counted .requests + 1 = UInt64.size ∧
        ((perform call).attempt (after done)).1 = .error .additionOverflow) ∧
    (c.counted .requests + programs.flatten.countP SharedCall.asks < UInt64.size →
      Action.Answers perform calls ⟨c⟩ ∧ Tallies c programs.flatten (after calls)) := by
  intro after
  obtain ⟨done, rest, rfl, hdone, hrest⟩ := Action.answers_or_stops perform calls ⟨c⟩
  have htallies : ∀ past, past <+: done → Tallies c past (after past) := by
    rintro past ⟨tail, rfl⟩
    exact .attemptAll hreachable hdone.of_append
  have hall := htallies done (List.prefix_refl done)
  have hstop : ∀ call tail, rest = call :: tail → call.asks ∧
      (after done).inner.counted .requests + 1 = UInt64.size ∧
      ((perform call).attempt (after done)).1 = .error .additionOverflow := by
    intro call tail hcall
    obtain ⟨fault, t, ht⟩ := hrest call tail hcall
    exact full_of_stop hall.reachable ht
  refine ⟨⟨done, rest, rfl, htallies, ?_, hstop⟩, fun hroom => ?_⟩
  · rintro past call ⟨tail, rfl⟩
    obtain ⟨-, a, ha⟩ := Action.answers_concat_iff.mp hdone.of_append
    have hpast := htallies past ⟨[call] ++ tail, by rw [List.append_assoc]⟩
    obtain ⟨hanswer, hserves⟩ := serves_of_answer hpast.reachable ha
    have hafter : after (past ++ [call]) = ((perform call).attempt (after past)).2 := by
      simp only [after, Action.attemptAll_concat]
    rw [hafter]
    exact ⟨hanswer, fun key hkey hpeek => hpast.absent hserves hkey hpeek⟩
  · have hperm := hcalls.perm
    cases rest with
    | cons call tail =>
      obtain ⟨hasks, hfull, -⟩ := hstop call tail rfl
      have hrequests := hall.requests
      rw [← hperm.countP_eq, List.countP_append, List.countP_cons, if_pos hasks] at hroom
      omega
    | nil =>
      rw [List.append_nil] at hperm ⊢
      exact ⟨hdone, hall.perm hperm⟩

/-- A cache of two slots that has the key 1 with the value 10. -/
def twoSlots : Cache Nat Int64 :=
  ((Cache.ofConfig { capacity := CacheConfig.leastCapacity } (Hasher.constant 0)).run [.put 1 10]).2

/-- Two clients, of which each adds to the value of the key 1 and makes another lookup. -/
def twoPrograms : List (List (SharedCall Nat Unit)) :=
  [[.add 1 5 fun _ => (), .get 2], [.getWith 1 fun _ => (), .add 1 (-7) fun _ => ()]]

/-- Two clients take turns, and nothing that they add is lost. -/
theorem run_interleaved_twoPrograms :
    let calls : List (SharedCall Nat Unit) :=
      [.getWith 1 fun _ => (), .add 1 5 fun _ => (), .add 1 (-7) fun _ => (), .get 2]
    twoSlots.Reachable ∧ Interleaves twoPrograms calls ∧
      (Action.attemptAll perform calls ⟨twoSlots⟩).2.inner.peek 1 = some 8 := by
  intro calls
  have hreachable : twoSlots.Reachable :=
    ⟨_, _, _, Cache.answers_of_length _ _ _ (by decide), rfl⟩
  have hinterleaves : Interleaves twoPrograms calls :=
    @Interleaves.turn _ [_] [] _ _ _ <| @Interleaves.turn _ [] [_] _ _ _ <|
      @Interleaves.turn _ [_] [] _ _ _ <| @Interleaves.turn _ [] [_] _ _ _ <| .done (by simp)
  obtain ⟨-, hend⟩ := run_interleaved twoSlots hreachable twoPrograms calls hinterleaves
  have hroom : twoSlots.counted .requests + twoPrograms.flatten.countP SharedCall.asks <
      UInt64.size := by decide +kernel
  have hbefore : twoSlots.peek 1 = some 10 := by decide +kernel
  refine ⟨hreachable, hinterleaves, ?_⟩
  rw [(hend hroom).2.peek, hbefore]
  decide

end SharedCache

end CachePool
