import CachePool.Fault

/-!
# Running interruptible actions

An action is run step by step: a first part that answers hands its answer and its
state on, and a first part that stops ends the whole. These equations replace the
unfolding of the monad in every other proof.
-/

namespace CachePool

namespace Action

variable {σ τ α β : Type} {x : Action σ α} {f : α → Action σ β} {s t : σ} {a : α} {fault : Fault}

/-- After a first part that answers, the rest runs from the state that it left. -/
theorem bind_ok (h : x s = .ok a t) : (x >>= f) s = f a t := by
  change EStateM.bind x f s = _
  rw [EStateM.bind, h]

/-- A first part that stops leaves its fault and its state to the whole. -/
theorem bind_error (h : x s = .error fault t) : (x >>= f) s = .error fault t := by
  change EStateM.bind x f s = _
  rw [EStateM.bind, h]

/-- Rests that agree on what the first part hands on agree after it. -/
theorem bind_congr {g : α → Action σ β} (h : ∀ a t, x s = .ok a t → f a t = g a t) :
    (x >>= f) s = (x >>= g) s := by
  cases hx : x s with
  | ok a t => rw [bind_ok hx, bind_ok hx, h a t hx]
  | error fault t => rw [bind_error hx, bind_error hx]

/-- A function of the answer leaves the state alone. -/
theorem map_ok {g : α → β} (h : x s = .ok a t) : (g <$> x) s = .ok (g a) t := by
  change EStateM.map g x s = _
  rw [EStateM.map, h]

/-- A function of the answer leaves a fault alone. -/
theorem map_error {g : α → β} (h : x s = .error fault t) : (g <$> x) s = .error fault t := by
  change EStateM.map g x s = _
  rw [EStateM.map, h]

/-- An action whose first part reads the state. -/
theorem get_bind (f : σ → Action σ β) (s : σ) : ((MonadState.get : Action σ σ) >>= f) s = f s s :=
  rfl

/-- An action whose first part replaces the state. -/
theorem modify_bind (g : σ → σ) (f : PUnit → Action σ β) (s : σ) :
    ((modify g : Action σ PUnit) >>= f) s = f ⟨⟩ (g s) := rfl

@[simp] theorem pure_apply (a : α) (s : σ) : (pure a : Action σ α) s = .ok a s := rfl

/-- An action on a part answers as it does on the part alone. -/
theorem within_ok {part : σ → τ} {replace : σ → τ → σ} {y : Action τ α} {u : τ}
    (h : y (part s) = .ok a u) : Action.within part replace y s = .ok a (replace s u) := by
  rw [Action.within, h]

/-- An action on a part stops as it does on the part alone. -/
theorem within_error {part : σ → τ} {replace : σ → τ → σ} {y : Action τ α} {u : τ}
    (h : y (part s) = .error fault u) :
    Action.within part replace y s = .error fault (replace s u) := by
  rw [Action.within, h]

/-- A part that is read back as it was put in place takes a sequence of actions one by one. -/
theorem within_bind {part : σ → τ} {replace : σ → τ → σ}
    (hread : ∀ s t, part (replace s t) = t) (hput : ∀ s t u, replace (replace s t) u = replace s u)
    (y : Action τ α) (f : α → Action τ β) :
    Action.within part replace (y >>= f) =
      Action.within part replace y >>= fun a => Action.within part replace (f a) := by
  funext s
  cases hy : y (part s) with
  | ok a t =>
    rw [bind_ok (within_ok hy)]
    simp only [Action.within, bind_ok hy, hread, hput]
  | error fault t =>
    rw [bind_error (within_error hy)]
    simp only [Action.within, bind_error hy]

/-- The attempt of an action that answers. -/
theorem attempt_ok (h : x s = .ok a t) : x.attempt s = (.ok a, t) := by
  rw [attempt, h]

/-- The attempt of an action that stops. -/
theorem attempt_error (h : x s = .error fault t) : x.attempt s = (.error fault, t) := by
  rw [attempt, h]

/-- The attempt of an action on a part leaves the part as the action alone does. -/
theorem attempt_within {part : σ → τ} {replace : σ → τ → σ} (y : Action τ α) (s : σ) :
    (Action.within part replace y).attempt s =
      ((y.attempt (part s)).1, replace s (y.attempt (part s)).2) := by
  cases hy : y (part s) with
  | ok a u => rw [attempt_ok hy, attempt_ok (within_ok hy)]
  | error fault u => rw [attempt_error hy, attempt_error (within_error hy)]

/-- An attempt of two parts goes on to the second one if the first one answers. -/
theorem attempt_bind (x : Action σ α) (f : α → Action σ β) (s : σ) :
    (x >>= f).attempt s = match x.attempt s with
      | (.ok a, t) => (f a).attempt t
      | (.error fault, t) => (.error fault, t) := by
  cases hx : x s with
  | ok a t =>
    rw [attempt, bind_ok hx, attempt_ok hx]
    rfl
  | error fault t => rw [attempt, bind_error hx, attempt_error hx]

/-- After a first part that answers, the second one is attempted. -/
theorem attempt_bind_ok (h : x s = .ok a t) : (x >>= f).attempt s = (f a).attempt t := by
  rw [attempt_bind, attempt_ok h]

/-- A function of the answer is reported, and leaves the state alone. -/
theorem attempt_bind_pure (x : Action σ α) (g : α → β) (s : σ) :
    (x >>= fun a => pure (g a)).attempt s = ((x.attempt s).1.map g, (x.attempt s).2) := by
  rw [attempt_bind]
  cases hx : x s with
  | ok a t =>
    rw [attempt_ok hx]
    rfl
  | error fault t =>
    rw [attempt_error hx]
    rfl

end Action

end CachePool
