import CachePool.Proofs.Lockstep

/-!
# Projections of actions

A state can carry more than an operation needs, and an answer can say more than was
asked for. An action projects to another one if the other, run on what remains of a
state, answers with what remains of the answer or stops at the same fault, and leaves
what remains of the state behind. Projection is handed on from part to part.
-/

namespace CachePool

namespace Action

variable {σ τ α β γ δ : Type}

/-- The second action does to what remains of states and answers what the first one does to them. -/
def Projects (keep : σ → τ) (rest : α → β) (x : Action σ α) (y : Action τ β) : Prop :=
  ∀ s, y (keep s) = match x s with
    | .ok a s => .ok (rest a) (keep s)
    | .error fault s => .error fault (keep s)

variable {keep : σ → τ} {rest : α → β} {x : Action σ α} {y : Action τ β} {s t : σ} {a : α}
  {fault : Fault}

namespace Projects

theorem ok (h : Projects keep rest x y) (hx : x s = .ok a t) :
    y (keep s) = .ok (rest a) (keep t) := by
  rw [h s, hx]

theorem error (h : Projects keep rest x y) (hx : x s = .error fault t) :
    y (keep s) = .error fault (keep t) := by
  rw [h s, hx]

/-- First parts that project hand over to the rest. -/
theorem bind {last : γ → δ} {f : α → Action σ γ} {g : β → Action τ δ}
    (h : Projects keep rest x y) (hrest : ∀ a, Projects keep last (f a) (g (rest a))) :
    Projects keep last (x >>= f) (y >>= g) := by
  intro s
  cases hx : x s with
  | ok a t =>
    rw [bind_ok hx, bind_ok (h.ok hx)]
    exact hrest a t
  | error fault t => rw [bind_error hx, bind_error (h.error hx)]

/-- An attempt of the projected action reports and leaves what remains. -/
theorem attempt (h : Projects keep rest x y) (s : σ) :
    y.attempt (keep s) = ((x.attempt s).1.map rest, keep (x.attempt s).2) := by
  cases hx : x s with
  | ok a t =>
    rw [attempt_ok hx, attempt_ok (h.ok hx)]
    rfl
  | error fault t =>
    rw [attempt_error hx, attempt_error (h.error hx)]
    rfl

end Projects

theorem projects_pure (a : α) : Projects keep rest (pure a) (pure (rest a)) := fun _ => rfl

theorem projects_throw (fault : Fault) :
    Projects keep rest (throw fault : Action σ α) (throw fault : Action τ β) := fun _ => rfl

theorem projects_modify {f : σ → σ} {g : τ → τ} (h : ∀ s, g (keep s) = keep (f s)) :
    Projects keep id (modify f) (modify g) := by
  intro s
  exact congrArg (EStateM.Result.ok PUnit.unit) (h s)

end Action

end CachePool
