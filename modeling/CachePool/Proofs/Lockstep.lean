import CachePool.Proofs.Action
import Mathlib.Data.List.Induction

/-!
# Runs in lockstep

Two actions on different states run in lockstep if they answer alike or stop at the
same fault, and leave related states behind in both cases. Lockstep is handed on
from part to part, so a simulation is proved one part after the other; and a
relation that every single call keeps is kept by any sequence of calls, each of
which answers or stops.
-/

namespace CachePool

variable {σ τ α β ι : Type}

/-- Two ends of runs with the same answer or the same fault, and related states. -/
inductive Lockstep (R : σ → τ → Prop) :
    EStateM.Result Fault σ α → EStateM.Result Fault τ α → Prop
  | ok {a : α} {s : σ} {t : τ} (h : R s t) : Lockstep R (.ok a s) (.ok a t)
  | error {fault : Fault} {s : σ} {t : τ} (h : R s t) : Lockstep R (.error fault s) (.error fault t)

namespace Lockstep

variable {R Q : σ → τ → Prop} {x : Action σ α} {y : Action τ α} {s : σ} {t : τ}

/-- Lockstep for a relation is lockstep for every weaker one. -/
theorem mono {left : EStateM.Result Fault σ α} {right : EStateM.Result Fault τ α}
    (h : Lockstep R left right) (hle : ∀ s t, R s t → Q s t) : Lockstep Q left right := by
  cases h with
  | ok h => exact .ok (hle _ _ h)
  | error h => exact .error (hle _ _ h)

/-- First parts in lockstep hand over to the rest, whose relation may be weaker. -/
theorem bind {f : α → Action σ β} {g : α → Action τ β} (h : Lockstep R (x s) (y t))
    (hle : ∀ s t, R s t → Q s t) (hrest : ∀ a s t, R s t → Lockstep Q (f a s) (g a t)) :
    Lockstep Q ((x >>= f) s) ((y >>= g) t) := by
  generalize hx : x s = left at h
  generalize hy : y t = right at h
  cases h with
  | ok h =>
    rw [Action.bind_ok hx, Action.bind_ok hy]
    exact hrest _ _ _ h
  | error h =>
    rw [Action.bind_error hx, Action.bind_error hy]
    exact .error (hle _ _ h)

/-- First parts that answer hand over to the rest. -/
theorem bind_ok {γ : Type} {a : α} {b : γ} {s' : σ} {t' : τ} {z : Action τ γ} {f : α → Action σ β}
    {g : γ → Action τ β} (hx : x s = .ok a s') (hz : z t = .ok b t')
    (h : Lockstep R (f a s') (g b t')) : Lockstep R ((x >>= f) s) ((z >>= g) t) := by
  rw [Action.bind_ok hx, Action.bind_ok hz]
  exact h

/-- First parts that stop alike stop the whole. -/
theorem bind_error {γ : Type} {fault : Fault} {s' : σ} {t' : τ} {z : Action τ γ}
    {f : α → Action σ β} {g : γ → Action τ β} (hx : x s = .error fault s')
    (hz : z t = .error fault t') (h : R s' t') : Lockstep R ((x >>= f) s) ((z >>= g) t) := by
  rw [Action.bind_error hx, Action.bind_error hz]
  exact .error h

/-- Attempts in lockstep report the same and leave related states. -/
theorem attempt (h : Lockstep R (x s) (y t)) :
    (x.attempt s).1 = (y.attempt t).1 ∧ R (x.attempt s).2 (y.attempt t).2 := by
  generalize hx : x s = left at h
  generalize hy : y t = right at h
  cases h with
  | ok h =>
    rw [Action.attempt_ok hx, Action.attempt_ok hy]
    exact ⟨rfl, h⟩
  | error h =>
    rw [Action.attempt_error hx, Action.attempt_error hy]
    exact ⟨rfl, h⟩

end Lockstep

/-- Make calls one after the other, each of which answers or stops at a fault. -/
def Action.attemptAll (call : ι → Action σ α) : List ι → σ → List (Except Fault α) × σ
  | [], s => ([], s)
  | i :: rest, s =>
    let (answer, s) := (call i).attempt s
    let (answers, s) := Action.attemptAll call rest s
    (answer :: answers, s)

/-- A sequence of calls goes on from the state in which its first part leaves off. -/
theorem Action.attemptAll_append (call : ι → Action σ α) (first rest : List ι) (s : σ) :
    attemptAll call (first ++ rest) s =
      ((attemptAll call first s).1 ++ (attemptAll call rest (attemptAll call first s).2).1,
        (attemptAll call rest (attemptAll call first s).2).2) := by
  induction first generalizing s with
  | nil => rfl
  | cons i first ih => simp only [List.cons_append, attemptAll, ih]

/-- Of a sequence of calls, the last one is made from the state that the others leave. -/
theorem Action.attemptAll_concat (call : ι → Action σ α) (calls : List ι) (i : ι) (s : σ) :
    attemptAll call (calls ++ [i]) s =
      ((attemptAll call calls s).1 ++ [((call i).attempt (attemptAll call calls s).2).1],
        ((call i).attempt (attemptAll call calls s).2).2) := by
  rw [attemptAll_append]
  rfl

/-- What is noted of calls that are made one after the other, each in the state that it finds. -/
def Action.noteAll (call : ι → Action σ α) (note : ι → σ → Option β) : List ι → σ → List β
  | [], _ => []
  | i :: rest, s => (note i s).toList ++ Action.noteAll call note rest ((call i).attempt s).2

/-- Of a sequence of calls, the last one is noted in the state that the others leave. -/
theorem Action.noteAll_concat (call : ι → Action σ α) (note : ι → σ → Option β) (calls : List ι)
    (i : ι) (s : σ) :
    noteAll call note (calls ++ [i]) s =
      noteAll call note calls s ++ (note i (attemptAll call calls s).2).toList := by
  induction calls generalizing s with
  | nil => simp [noteAll, attemptAll]
  | cons j calls ih => simp only [List.cons_append, noteAll, ih, List.append_assoc, attemptAll]

/-- Every call of a sequence answers. -/
def Action.Answers (call : ι → Action σ α) (calls : List ι) (s : σ) : Prop :=
  ∀ answer ∈ (attemptAll call calls s).1, ∃ a, answer = .ok a

/-- The calls of the first part of a sequence that answers do so as well. -/
theorem Action.Answers.of_append {call : ι → Action σ α} {first rest : List ι} {s : σ}
    (h : Answers call (first ++ rest) s) : Answers call first s := by
  intro answer hmem
  refine h answer ?_
  rw [attemptAll_append]
  exact List.mem_append_left _ hmem

/-- A sequence with one more call answers if it does so without the call, and the call answers. -/
theorem Action.answers_concat_iff {call : ι → Action σ α} {calls : List ι} {i : ι} {s : σ} :
    Answers call (calls ++ [i]) s ↔
      Answers call calls s ∧ ∃ a, ((call i).attempt (attemptAll call calls s).2).1 = .ok a := by
  rw [Answers, attemptAll_concat, List.forall_mem_append]
  exact and_congr_right fun _ => List.forall_mem_singleton

/-- A sequence of calls answers up to its end, or up to a first call that stops. -/
theorem Action.answers_or_stops (call : ι → Action σ α) (calls : List ι) (s : σ) :
    ∃ done rest, calls = done ++ rest ∧ Answers call done s ∧ ∀ i tail, rest = i :: tail →
      ∃ fault t, call i (attemptAll call done s).2 = .error fault t := by
  induction calls using List.reverseRecOn with
  | nil => exact ⟨[], [], rfl, by simp [Answers, attemptAll], by simp⟩
  | append_singleton calls last ih =>
    obtain ⟨done, rest, rfl, hdone, hrest⟩ := ih
    cases rest with
    | cons i tail =>
      refine ⟨done, i :: (tail ++ [last]), by simp, hdone, ?_⟩
      rintro _ _ ⟨rfl, rfl⟩
      exact hrest i tail rfl
    | nil =>
      rw [List.append_nil]
      cases hlast : call last (attemptAll call done s).2 with
      | ok a t =>
        refine ⟨done ++ [last], [], (List.append_nil _).symm, ?_, by simp⟩
        exact answers_concat_iff.mpr ⟨hdone, a, by rw [attempt_ok hlast]⟩
      | error fault t =>
        refine ⟨done, [last], rfl, hdone, ?_⟩
        rintro _ _ ⟨rfl, rfl⟩
        exact ⟨fault, t, hlast⟩

/-- Calls that keep a relation in lockstep keep it over any sequence, with the same answers. -/
theorem Lockstep.attemptAll {R : σ → τ → Prop} {x : ι → Action σ α} {y : ι → Action τ α}
    (hcall : ∀ i s t, R s t → Lockstep R (x i s) (y i t)) (calls : List ι) {s : σ} {t : τ}
    (h : R s t) :
    (Action.attemptAll x calls s).1 = (Action.attemptAll y calls t).1 ∧
      R (Action.attemptAll x calls s).2 (Action.attemptAll y calls t).2 := by
  induction calls generalizing s t with
  | nil => exact ⟨rfl, h⟩
  | cons i calls ih =>
    obtain ⟨hanswer, hstate⟩ := (hcall i s t h).attempt
    obtain ⟨hanswers, hfinal⟩ := ih hstate
    exact ⟨congrArg₂ List.cons hanswer hanswers, hfinal⟩

/-- Put calls to a machine that answers every one. -/
def answerAll (step : ι → τ → α × τ) : List ι → τ → List α × τ
  | [], t => ([], t)
  | i :: rest, t =>
    let (answer, t) := step i t
    let (answers, t) := answerAll step rest t
    (answer :: answers, t)

/-- A machine goes on from the state in which the first calls leave it. -/
theorem answerAll_append (step : ι → τ → α × τ) (first rest : List ι) (t : τ) :
    answerAll step (first ++ rest) t =
      ((answerAll step first t).1 ++ (answerAll step rest (answerAll step first t).2).1,
        (answerAll step rest (answerAll step first t).2).2) := by
  induction first generalizing t with
  | nil => rfl
  | cons i first ih =>
    simp only [List.cons_append, answerAll, ih]

/-- A machine answers every call once. -/
theorem length_answerAll (step : ι → τ → α × τ) (calls : List ι) (t : τ) :
    (answerAll step calls t).1.length = calls.length := by
  induction calls generalizing t with
  | nil => rfl
  | cons i calls ih => exact congrArg Nat.succ (ih _)

/-- Every call of a sequence is permitted in the state in which the machine meets it. -/
def Permitted (P : ι → τ → Prop) (step : ι → τ → α × τ) : List ι → τ → Prop
  | [], _ => True
  | i :: rest, t => P i t ∧ Permitted P step rest (step i t).2

/-- What is permitted in every state is permitted in a sequence. -/
theorem permitted_of_forall {P : ι → τ → Prop} {step : ι → τ → α × τ} (h : ∀ i t, P i t)
    (calls : List ι) (t : τ) : Permitted P step calls t := by
  induction calls generalizing t with
  | nil => trivial
  | cons i calls ih => exact ⟨h i t, ih (step i t).2⟩

/-- Calls that answer as a machine does where they are permitted, and keep a relation with its
state, do so over any permitted sequence. -/
theorem attemptAll_eq_answerAll {R : σ → τ → Prop} {P : ι → τ → Prop} {x : ι → Action σ α}
    {step : ι → τ → α × τ}
    (hcall : ∀ i s t, R s t → P i t → ∃ s', x i s = .ok (step i t).1 s' ∧ R s' (step i t).2)
    (calls : List ι) {s : σ} {t : τ} (h : R s t) (hcalls : Permitted P step calls t) :
    (Action.attemptAll x calls s).1 = (answerAll step calls t).1.map .ok ∧
      R (Action.attemptAll x calls s).2 (answerAll step calls t).2 := by
  induction calls generalizing s t with
  | nil => exact ⟨rfl, h⟩
  | cons i calls ih =>
    obtain ⟨hfirst, hrest⟩ := hcalls
    obtain ⟨s', hanswer, hstate⟩ := hcall i s t h hfirst
    obtain ⟨hanswers, hfinal⟩ := ih hstate hrest
    rw [Action.attemptAll, Action.attempt_ok hanswer]
    exact ⟨congrArg (List.cons _) hanswers, hfinal⟩

end CachePool
