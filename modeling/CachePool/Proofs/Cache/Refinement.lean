import CachePool.Proofs.Cache.Operations

/-!
# A cache runs as its model does

A new cache and the empty model of its configuration go through the same history
side by side: the calls have the same outcomes, the cache shows the model, its
counters hold what the model raised, and what it frees at its end is what the model
says. The histories part in one way only. A counter that would leave its word stops
the call, which no history of fewer than `2 ^ 64` calls can bring about.
-/

namespace CachePool

open Metrics

namespace CacheModel

variable {κ α : Type}

/-- The lifetime counters that a history raised, in order. -/
def raisedBy (steps : List (Step κ α)) : List Counter := steps.flatMap (·.raised)

theorem raisedBy_cons (step : Step κ α) (steps : List (Step κ α)) :
    raisedBy (step :: steps) = step.raised ++ raisedBy steps := List.flatMap_cons

/-- Every counter holds what a history raised within its word. -/
def Fits (steps : List (Step κ α)) : Prop :=
  ∀ counter : Counter, counter.grows → (raisedBy steps).count counter < UInt64.size

variable [DecidableEq κ]

theorem run_append (m : CacheModel κ α) (as bs : List (Operation κ α)) :
    m.run (as ++ bs) = ((m.run as).1 ++ ((m.run as).2.run bs).1, ((m.run as).2.run bs).2) := by
  induction as generalizing m with
  | nil => rfl
  | cons op as ih =>
    simp only [List.cons_append, run, ih]

/-- What a history raises with one more call. -/
theorem raisedBy_run_concat (m : CacheModel κ α) (ops : List (Operation κ α))
    (op : Operation κ α) :
    raisedBy (m.run (ops ++ [op])).1 =
      raisedBy (m.run ops).1 ++ ((m.run ops).2.step op).raised := by
  rw [run_append, raisedBy, List.flatMap_append]
  exact congrArg _ (List.flatMap_singleton _ _)

/-- A hit raises no counter twice. -/
theorem hit_raised_nodup (m : CacheModel κ α) (key : κ) : (m.hit key).1.Nodup := by
  simp only [hit, promote]
  split
  · split
    · simp
    · split <;> simp
  · split <;> simp

/-- A call raises no counter twice. -/
theorem step_raised_nodup (m : CacheModel κ α) (op : Operation κ α) : (m.step op).raised.Nodup := by
  have hput : ∀ key value, (m.put key value).raised.Nodup := by
    intro key value
    simp only [put, insert]
    split
    · simp
    · split <;> simp
  have hremove : ∀ key, (m.remove key).raised.Nodup := by
    intro key
    simp only [remove]
    split <;> simp
  cases op with
  | get key => exact m.hit_raised_nodup key
  | update key f => exact m.hit_raised_nodup key
  | getLive key alive =>
    simp only [step, getLive]
    split
    · split
      · exact m.hit_raised_nodup key
      · simp
    · simp
  | peek key => exact List.nodup_nil
  | contains key => exact List.nodup_nil
  | generationOf key => exact List.nodup_nil
  | put key value => exact hput key value
  | set key value =>
    cases value with
    | some value => exact hput key value
    | none => exact hremove key
  | remove key => exact hremove key
  | clear => exact List.nodup_nil

/-- A history raises no counter more often than it has calls. -/
theorem count_raisedBy_le (m : CacheModel κ α) (ops : List (Operation κ α)) (counter : Counter) :
    (raisedBy (m.run ops).1).count counter ≤ ops.length := by
  induction ops generalizing m with
  | nil => exact Nat.zero_le _
  | cons op rest ih =>
    have hone := List.nodup_iff_count_le_one.mp (m.step_raised_nodup op) counter
    have hrest := ih (m.step op).next
    change (raisedBy (m.step op :: ((m.step op).next.run rest).1)).count counter ≤ _
    rw [raisedBy_cons, List.count_append, List.length_cons]
    omega

/-- A history shorter than a word has numbers fits every counter. -/
theorem fits_of_length (m : CacheModel κ α) {ops : List (Operation κ α)}
    (h : ops.length < UInt64.size) : Fits (m.run ops).1 :=
  fun counter _ => Nat.lt_of_le_of_lt (m.count_raisedBy_le ops counter) h

/-- The beginning of a history that fits does so as well. -/
theorem Fits.of_append {m : CacheModel κ α} {as bs : List (Operation κ α)}
    (h : Fits (m.run (as ++ bs)).1) : Fits (m.run as).1 := by
  intro counter hgrows
  have hall := h counter hgrows
  rw [run_append, raisedBy, List.flatMap_append, List.count_append] at hall
  exact Nat.lt_of_le_of_lt (Nat.le_add_right _ _) hall

/-- A history fits, or there is a first call that raises a counter beyond its word. -/
theorem fits_or_first_overflow (m : CacheModel κ α) (ops : List (Operation κ α)) :
    Fits (m.run ops).1 ∨ ∃ done op tail, ops = done ++ op :: tail ∧ Fits (m.run done).1 ∧
      ¬ Fits (m.run (done ++ [op])).1 := by
  induction ops using List.reverseRecOn with
  | nil => exact Or.inl fun _ _ => (by decide : 0 < UInt64.size)
  | append_singleton ops last ih =>
    rcases ih with hfits | ⟨done, op, tail, rfl, hdone, hover⟩
    · by_cases hall : Fits (m.run (ops ++ [last])).1
      · exact Or.inl hall
      · exact Or.inr ⟨ops, last, [], rfl, hfits, hall⟩
    · exact Or.inr ⟨done, op, tail ++ [last], by simp, hdone, hover⟩

end CacheModel

namespace Sketch

variable {κ α : Type} {s s' s'' : Sketch κ α} {c : Cache κ α}

/-- One stretch of a history after the other. -/
theorem Reaches.trans {as bs : List Counter} {m m' : CacheModel κ α} (h : s.Reaches as m s')
    (h' : s'.Reaches bs m' s'') : s.Reaches (as ++ bs) m' s'' where
  settled := h'.settled
  model := h'.model
  counts := by
    rw [h'.counts, ← raise_raise]
    funext counter
    exact congrArg (· + bs.count counter) (congrFun h.counts counter)
  config := h'.config.trans h.config
  hasher := h'.hasher.trans h.hasher

/-- A node that was never used is in no generation. -/
theorem Depicts.loose_unused (hc : s.Depicts c) : s.Loose s.unused := by
  have hfresh := hc.fresh s.unused (Nat.le_refl _)
  refine ⟨fun hmem => ?_, fun hmem => ?_⟩
  · obtain ⟨e, he⟩ := hc.filled s.unused (Or.inl hmem)
    exact Option.some_ne_none e (he.symm.trans hfresh)
  · obtain ⟨e, he⟩ := hc.filled s.unused (Or.inr hmem)
    exact Option.some_ne_none e (he.symm.trans hfresh)

/-- A new cache starts at a settled sketch of the empty model. -/
theorem settled_ofConfig (config : CacheConfig) (hasher : Hasher κ) :
    (ofConfig config hasher : Sketch κ α).Settled where
  nodup := List.nodup_nil
  indexed := ⟨[], rfl, .refl _⟩
  filed := by
    rintro (_ | _) n ⟨⟩
  spare := fun _ _ => rfl
  sound := CacheModel.sound_ofConfig config
  youngSize := rfl
  oldSize := rfl

/-- A settled sketch of a cache frees at the end what its model says. -/
theorem freeContents_ok (hc : s.Depicts c) (hs : s.Settled) :
    (Cache.freeContents.attempt c).1 = .ok s.model.ending := by
  have hcarries := carries_freeContents hs.nodup hs.filled
  rw [ending_eq] at hcarries
  obtain ⟨c', hrun, -⟩ := hcarries.ok hc.fits c hc
  rw [Action.attempt_ok hrun]

variable [DecidableEq κ]

/-- A call with room in its counters answers as the model does. -/
theorem step_ok (hc : s.Depicts c) (hs : s.Settled) (op : Operation κ α) :
    ∃ s', s.Reaches (s.model.step op).raised (s.model.step op).next s' ∧
      (s'.Fits → (c.step op).1 = .ok (s.model.step op).outcome ∧ s'.Depicts (c.step op).2) ∧
      (¬ s'.Fits → (c.step op).1 = .error .additionOverflow) := by
  obtain ⟨s', hcarries, hreaches⟩ := carries_perform hs hc.loose_unused op
  refine ⟨s', hreaches, fun hfits => ?_, fun hfits => ?_⟩
  · obtain ⟨c', hrun, hc'⟩ := hcarries.ok hfits c hc
    rw [Cache.step, Action.attempt_ok hrun]
    exact ⟨rfl, hc'⟩
  · obtain ⟨c', hrun⟩ := hcarries.overflow hfits c hc
    rw [Cache.step, Action.attempt_error hrun]

/-- A history with room in its counters goes as that of the model. -/
theorem run_ok (hc : s.Depicts c) (hs : s.Settled) (ops : List (Operation κ α))
    (hfits : (s.raise (CacheModel.raisedBy (s.model.run ops).1)).Fits) :
    ∃ s', (c.run ops).1 = (s.model.run ops).1.map (fun step => .ok step.outcome) ∧
      s'.Depicts (c.run ops).2 ∧
      s.Reaches (CacheModel.raisedBy (s.model.run ops).1) (s.model.run ops).2 s' := by
  induction ops generalizing s c with
  | nil => exact ⟨s, rfl, hc, hs.reaches_refl⟩
  | cons op rest ih =>
    obtain ⟨s', hreaches, hok, -⟩ := step_ok hc hs op
    have hall : ∀ counter : Counter, counter.grows → s'.counts counter +
        (CacheModel.raisedBy ((s.model.step op).next.run rest).1).count counter <
          UInt64.size := by
      intro counter hgrows
      have hcount := hfits counter hgrows
      change s.counts counter + (CacheModel.raisedBy
        (s.model.step op :: ((s.model.step op).next.run rest).1)).count counter < _ at hcount
      rw [CacheModel.raisedBy_cons, List.count_append, ← Nat.add_assoc] at hcount
      rw [hreaches.counts]
      exact hcount
    obtain ⟨hanswer, hc'⟩ := hok fun counter hgrows =>
      Nat.lt_of_le_of_lt (Nat.le_add_right _ _) (hall counter hgrows)
    rw [← hreaches.model] at hall
    obtain ⟨s'', hanswers, hc'', hreaches'⟩ := ih hc' hreaches.settled hall
    rw [hreaches.model] at hanswers hreaches'
    refine ⟨s'', ?_, hc'', ?_⟩
    · change (c.step op).1 :: ((c.step op).2.run rest).1 = _
      rw [hanswer, hanswers]
      rfl
    · change s.Reaches (CacheModel.raisedBy
        (s.model.step op :: ((s.model.step op).next.run rest).1)) _ s''
      rw [CacheModel.raisedBy_cons]
      exact hreaches.trans hreaches'

end Sketch

namespace Cache

variable {κ α : Type}

/-- The cache shows the model, its counters hold what was raised, its gauges are up to date, and at
its end it frees what the model says. -/
structure Mirrors (c : Cache κ α) (m : CacheModel κ α) (raised : List Counter) : Prop where
  model : c.model = m
  counts : ∀ counter : Counter, counter.grows →
    (c.metrics.get counter).toNat = raised.count counter
  youngSize : c.metrics.youngSize.toNat = m.young.length
  oldSize : c.metrics.oldSize.toNat = m.old.length
  ending : (freeContents.attempt c).1 = .ok m.ending

/-- A settled sketch that a history reached from a new cache mirrors its model. -/
theorem mirrors_of_reaches {config : CacheConfig} {hasher : Hasher κ} {raised : List Counter}
    {m : CacheModel κ α} {s : Sketch κ α} {c : Cache κ α} (hc : s.Depicts c)
    (h : (Sketch.ofConfig config hasher).Reaches raised m s) : c.Mirrors m raised where
  model := hc.model_eq.trans h.model
  counts := by
    intro counter hgrows
    rw [hc.counts counter hgrows, h.counts]
    exact Nat.zero_add _
  youngSize := by
    rw [hc.youngSize, h.settled.youngSize, ← h.settled.young_length, h.model]
  oldSize := by
    rw [hc.oldSize, h.settled.oldSize, ← h.settled.old_length, h.model]
  ending := h.model ▸ Sketch.freeContents_ok hc h.settled

variable [DecidableEq κ]

/-- A history that fits the counters goes as that of the model, from a new cache on. -/
theorem run_of_fits (config : CacheConfig) (hasher : Hasher κ) {ops : List (Operation κ α)}
    (hfits : CacheModel.Fits ((CacheModel.ofConfig config).run ops).1) :
    ∃ s : Sketch κ α,
      ((ofConfig config hasher).run ops).1 =
        ((CacheModel.ofConfig config).run ops).1.map (fun step => .ok step.outcome) ∧
      s.Depicts ((ofConfig config hasher).run ops).2 ∧
      (Sketch.ofConfig config hasher).Reaches
        (CacheModel.raisedBy ((CacheModel.ofConfig config).run ops).1)
        ((CacheModel.ofConfig config).run ops).2 s := by
  refine Sketch.run_ok (Sketch.depicts_ofConfig config hasher)
    (Sketch.settled_ofConfig config hasher) ops fun counter hgrows => ?_
  exact Nat.lt_of_le_of_lt (Nat.le_of_eq (Nat.zero_add _)) (hfits counter hgrows)

/-- A call that raises a counter beyond its word stops there. -/
theorem step_of_not_fits (config : CacheConfig) (hasher : Hasher κ)
    {done : List (Operation κ α)} {op : Operation κ α}
    (hfits : CacheModel.Fits ((CacheModel.ofConfig config).run done).1)
    (hover : ¬ CacheModel.Fits ((CacheModel.ofConfig config).run (done ++ [op])).1) :
    (((ofConfig config hasher).run done).2.step op).1 = .error .additionOverflow := by
  obtain ⟨s, -, hc, hreaches⟩ := run_of_fits config hasher hfits
  obtain ⟨s', hnext, -, hstop⟩ := Sketch.step_ok hc hreaches.settled op
  refine hstop fun hroom => hover fun counter hgrows => ?_
  have hcount := hroom counter hgrows
  have hall := hreaches.trans hnext
  rw [hall.counts, hreaches.model] at hcount
  rw [CacheModel.raisedBy_run_concat]
  exact Nat.lt_of_le_of_lt (Nat.le_of_eq (Nat.zero_add _).symm) hcount

/-- Every call of the history answers. -/
def Answers (c : Cache κ α) (ops : List (Operation κ α)) : Prop :=
  ∀ outcome ∈ (c.run ops).1, ∃ o, outcome = .ok o

/-- The cache is reached from a new one by calls that all answered. -/
def Reachable (c : Cache κ α) : Prop :=
  ∃ config hasher ops, (ofConfig config hasher).Answers ops ∧
    c = ((ofConfig config hasher).run ops).2

theorem run_append (c : Cache κ α) (as bs : List (Operation κ α)) :
    c.run (as ++ bs) = ((c.run as).1 ++ ((c.run as).2.run bs).1, ((c.run as).2.run bs).2) := by
  induction as generalizing c with
  | nil => rfl
  | cons op as ih =>
    simp only [List.cons_append, run, ih]

/-- A history answers if its first part does, and then the other. -/
theorem answers_append_iff {c : Cache κ α} {as bs : List (Operation κ α)} :
    c.Answers (as ++ bs) ↔ c.Answers as ∧ (c.run as).2.Answers bs := by
  rw [Answers, run_append]
  exact List.forall_mem_append

/-- A new cache answers every call of a history that fits the counters. -/
theorem answers_of_fits (config : CacheConfig) (hasher : Hasher κ) {ops : List (Operation κ α)}
    (h : CacheModel.Fits ((CacheModel.ofConfig config).run ops).1) :
    (ofConfig config hasher).Answers ops := by
  obtain ⟨-, hanswers, -⟩ := run_of_fits config hasher h
  intro outcome hmem
  rw [hanswers] at hmem
  obtain ⟨step, -, rfl⟩ := List.mem_map.mp hmem
  exact ⟨step.outcome, rfl⟩

/-- A new cache answers every call of a history shorter than `2 ^ 64`. -/
theorem answers_of_length (config : CacheConfig) (hasher : Hasher κ)
    (ops : List (Operation κ α)) (h : ops.length < UInt64.size) :
    (ofConfig config hasher).Answers ops :=
  answers_of_fits config hasher ((CacheModel.ofConfig config).fits_of_length h)

/-- The first call of a history that answers leads to a cache on which the others answer. -/
theorem Answers.cons {c : Cache κ α} {op : Operation κ α} {rest : List (Operation κ α)}
    (h : c.Answers (op :: rest)) :
    (∃ o, (c.step op).1 = .ok o) ∧ (c.step op).2.Answers rest :=
  ⟨h _ List.mem_cons_self, fun outcome hmem => h outcome (List.mem_cons_of_mem _ hmem)⟩

/-- A call that answers leads to a settled sketch of the next model. -/
theorem step_of_ok {s : Sketch κ α} {c : Cache κ α} (hc : s.Depicts c) (hs : s.Settled)
    {op : Operation κ α} (hok : ∃ o, (c.step op).1 = .ok o) :
    ∃ s', s'.Depicts (c.step op).2 ∧
      s.Reaches (s.model.step op).raised (s.model.step op).next s' := by
  obtain ⟨s', hreaches, hnext, hstop⟩ := Sketch.step_ok hc hs op
  by_cases hfits : s'.Fits
  · exact ⟨s', (hnext hfits).2, hreaches⟩
  · obtain ⟨o, ho⟩ := hok
    rw [hstop hfits] at ho
    cases ho

/-- A reachable cache has a settled sketch. -/
theorem Reachable.settled {c : Cache κ α} (h : c.Reachable) :
    ∃ s : Sketch κ α, s.Depicts c ∧ s.Settled := by
  obtain ⟨config, hasher, ops, hanswers, rfl⟩ := h
  have hrun : ∀ (ops : List (Operation κ α)) (s : Sketch κ α) (c : Cache κ α), s.Depicts c →
      s.Settled → c.Answers ops → ∃ s' : Sketch κ α, s'.Depicts (c.run ops).2 ∧ s'.Settled := by
    intro ops
    induction ops with
    | nil => exact fun s c hc hs _ => ⟨s, hc, hs⟩
    | cons op rest ih =>
      intro s c hc hs hanswers
      obtain ⟨hok, hrest⟩ := hanswers.cons
      obtain ⟨s', hc', hreaches⟩ := step_of_ok hc hs hok
      exact ih s' _ hc' hreaches.settled hrest
  exact hrun ops _ _ (Sketch.depicts_ofConfig config hasher)
    (Sketch.settled_ofConfig config hasher) hanswers

/-- For every configuration, hasher and history, the cache and its model go together through a
beginning of the history: after every part of it the calls had the same outcomes, and the cache
shows the model. What follows it is nothing, or a call that stops because the model raises a counter
beyond its word; and it is nothing if there are fewer than `2 ^ 64` calls. -/
theorem run_refines_model (config : CacheConfig) (hasher : Hasher κ)
    (ops : List (Operation κ α)) :
    ∃ done rest, ops = done ++ rest ∧
      (∀ past, past <+: done →
        ((ofConfig config hasher).run past).1 =
            ((CacheModel.ofConfig config).run past).1.map (fun step => .ok step.outcome) ∧
          ((ofConfig config hasher).run past).2.Mirrors ((CacheModel.ofConfig config).run past).2
            (CacheModel.raisedBy ((CacheModel.ofConfig config).run past).1)) ∧
      (∀ op tail, rest = op :: tail →
        (((ofConfig config hasher).run done).2.step op).1 = .error .additionOverflow ∧
          ¬ CacheModel.Fits ((CacheModel.ofConfig config).run (done ++ [op])).1) ∧
      (ops.length < UInt64.size → rest = []) := by
  have hpast : ∀ done, CacheModel.Fits ((CacheModel.ofConfig config).run done).1 →
      ∀ past, past <+: done →
        ((ofConfig config hasher).run past).1 =
            ((CacheModel.ofConfig config).run past).1.map (fun step => .ok step.outcome) ∧
          ((ofConfig config hasher).run past).2.Mirrors ((CacheModel.ofConfig config).run past).2
            (CacheModel.raisedBy ((CacheModel.ofConfig config : CacheModel κ α).run past).1) := by
    rintro _ hdone past ⟨later, rfl⟩
    obtain ⟨s, hanswers, hc, hreaches⟩ := run_of_fits config hasher hdone.of_append
    exact ⟨hanswers, mirrors_of_reaches hc hreaches⟩
  rcases (CacheModel.ofConfig config).fits_or_first_overflow ops with
    hfits | ⟨done, op, tail, rfl, hdone, hover⟩
  · exact ⟨ops, [], (List.append_nil ops).symm, hpast ops hfits, by rintro op tail ⟨⟩, fun _ => rfl⟩
  · refine ⟨done, op :: tail, rfl, hpast done hdone, ?_, fun hlt => ?_⟩
    · rintro _ _ ⟨rfl, rfl⟩
      exact ⟨step_of_not_fits config hasher hdone hover, hover⟩
    · refine (hover (CacheModel.fits_of_length _ ?_)).elim
      simp only [List.length_append, List.length_cons, List.length_nil] at hlt ⊢
      omega

end Cache

end CachePool
