import CachePool.Proofs.Cache.Pairs
import CachePool.Proofs.Cache.Refinement

/-!
# Histories that answer

A cache that is settled between two calls shows a model, and everything that a client
can ask of it is read off that model. A call that answers leads from a cache to one
that shows the next model, so a property of models and histories that every call keeps
holds after every history that answers.
-/

namespace CachePool

open Metrics

namespace Cache

variable {κ α : Type} {c : Cache κ α} {m : CacheModel κ α}

/-- No operation is under way in the cache, and the model is what it shows. -/
def Shows (c : Cache κ α) (m : CacheModel κ α) : Prop :=
  ∃ s : Sketch κ α, s.Depicts c ∧ s.Settled ∧ s.model = m

/-- A new cache shows the empty model of its configuration. -/
theorem shows_ofConfig (config : CacheConfig) (hasher : Hasher κ) :
    (ofConfig config hasher : Cache κ α).Shows (CacheModel.ofConfig config) :=
  ⟨Sketch.ofConfig config hasher, Sketch.depicts_ofConfig config hasher,
    Sketch.settled_ofConfig config hasher, rfl⟩

namespace Shows

theorem model_eq (h : c.Shows m) : c.model = m := by
  obtain ⟨s, hc, -, rfl⟩ := h
  exact hc.model_eq

theorem sound (h : c.Shows m) : m.Sound := by
  obtain ⟨s, -, hs, rfl⟩ := h
  exact hs.sound

theorem youngCapacity (h : c.Shows m) : c.young.capacity.val = m.youngCapacity := by
  rw [← h.model_eq]
  rfl

theorem oldCapacity (h : c.Shows m) : c.old.capacity.val = m.oldCapacity := by
  rw [← h.model_eq]
  rfl

theorem young_length (h : c.Shows m) : c.young.length = m.young.length := by
  obtain ⟨s, hc, hs, rfl⟩ := h
  rw [hc.young.length, hs.young_length]

theorem old_length (h : c.Shows m) : c.old.length = m.old.length := by
  obtain ⟨s, hc, hs, rfl⟩ := h
  rw [hc.old.length, hs.old_length]

/-- The gauge of young is up to date. -/
theorem youngSize (h : c.Shows m) : c.metrics.youngSize.toNat = c.young.length := by
  obtain ⟨s, hc, hs, -⟩ := h
  rw [hc.youngSize, hs.youngSize, hc.young.length]

/-- The gauge of old is up to date. -/
theorem oldSize (h : c.Shows m) : c.metrics.oldSize.toNat = c.old.length := by
  obtain ⟨s, hc, hs, -⟩ := h
  rw [hc.oldSize, hs.oldSize, hc.old.length]

/-- The slots of old are measured. -/
theorem oldSlots (h : c.Shows m) : c.metrics.oldCapacity.toNat = c.old.capacity.val := by
  obtain ⟨s, hc, -, -⟩ := h
  rw [hc.oldSlots, hc.oldCapacity, Size.toNat_toWord]

/-- The young entries are the young items. -/
theorem young_eq (h : c.Shows m) : (c.contents .young).map Entry.item = m.young := by
  rw [← h.model_eq]
  rfl

/-- The old entries are the old items. -/
theorem old_eq (h : c.Shows m) : (c.contents .old).map Entry.item = m.old := by
  rw [← h.model_eq]
  rfl

/-- What a new key pushes out is the last young entry, once young is full. -/
theorem displaced_eq (h : c.Shows m) :
    m.displaced = if c.young.isFull then (c.contents .young).getLast?.map Entry.item else none := by
  rw [← List.getLast?_map, h.young_eq, CacheModel.displaced, RecencyList.isFull, h.youngCapacity,
    h.young_length]
  by_cases hlt : m.young.length < m.youngCapacity
  · simp [hlt, Nat.not_le.mpr hlt]
  · simp [hlt, Nat.le_of_not_lt hlt]

/-- A full young generation has a last entry. -/
theorem exists_displaced (h : c.Shows m) (hfull : c.young.isFull) :
    ∃ e, (c.contents .young).getLast? = some e ∧ m.displaced = some e.item := by
  rw [h.displaced_eq, if_pos hfull]
  cases he : (c.contents .young).getLast? with
  | some e => exact ⟨e, rfl, rfl⟩
  | none =>
    have hroom := h.sound.youngRoom
    rw [RecencyList.isFull, decide_eq_true_iff, h.youngCapacity, h.young_length, ← h.young_eq,
      List.getLast?_eq_none_iff.mp he] at hfull
    exact (Nat.lt_irrefl 0 (Nat.lt_of_lt_of_le hroom hfull)).elim

/-- What is displaced is the last young entry. -/
theorem exists_of_displaced {i : Item κ α} (h : c.Shows m) (hi : m.displaced = some i) :
    ∃ e, (c.contents .young).getLast? = some e ∧ e.item = i := by
  rw [h.displaced_eq] at hi
  split at hi
  · exact Option.map_eq_some_iff.mp hi
  · cases hi

variable [DecidableEq κ]

theorem peek_eq (h : c.Shows m) (key : κ) : c.peek key = m.value? key := by
  obtain ⟨s, hc, hs, rfl⟩ := h
  exact hs.peek_eq hc key

/-- The cache and the model look every key up alike. -/
theorem lookup_eq (h : c.Shows m) : c.peek = m.value? := funext h.peek_eq

theorem contains_eq (h : c.Shows m) (key : κ) : c.contains key = (m.value? key).isSome := by
  obtain ⟨s, hc, hs, rfl⟩ := h
  exact hs.contains_eq hc key

theorem generationOf_eq (h : c.Shows m) (key : κ) : c.generationOf key = m.generationOf key := by
  obtain ⟨s, hc, hs, rfl⟩ := h
  exact hs.generationOf_eq hc key

/-- A call that answers has the outcome of the rules, raises their counters, and leads to a cache
that shows the next model. -/
theorem step (h : c.Shows m) {op : Operation κ α} {o : Outcome (Answer α) α}
    (ho : (c.step op).1 = .ok o) :
    o = (m.step op).outcome ∧ (c.step op).2.Shows (m.step op).next ∧
      ∀ counter : Counter, counter.grows → ((c.step op).2.metrics.get counter).toNat =
        (c.metrics.get counter).toNat + (m.step op).raised.count counter := by
  obtain ⟨s, hc, hs, rfl⟩ := h
  obtain ⟨s', hreaches, hok, hstop⟩ := Sketch.step_ok hc hs op
  by_cases hfits : s'.Fits
  · obtain ⟨hanswer, hc'⟩ := hok hfits
    refine ⟨Except.ok.inj (ho.symm.trans hanswer), ⟨s', hc', hreaches.settled, hreaches.model⟩, ?_⟩
    intro counter hgrows
    rw [hc'.counts counter hgrows, hc.counts counter hgrows, hreaches.counts]
    rfl
  · rw [hstop hfits] at ho
    cases ho

/-- A clear always answers: it counts nothing. -/
theorem clear (h : c.Shows m) : (c.step .clear).1 = .ok (m.step .clear).outcome := by
  obtain ⟨s, hc, hs, rfl⟩ := h
  obtain ⟨s', hreaches, hok, -⟩ := Sketch.step_ok hc hs .clear
  refine (hok fun counter hgrows => ?_).1
  rw [hreaches.counts]
  exact hc.fits counter hgrows

omit [DecidableEq κ] in
/-- At its end a cache frees what its model says, and keeps nothing. -/
theorem freeContents (h : c.Shows m) :
    ∃ last, Cache.freeContents c = .ok m.ending last ∧ (∀ g, last.contents g = []) ∧
      ∀ n, last.entries.get n = none := by
  obtain ⟨s, hc, hs, rfl⟩ := h
  have hcarries := Sketch.carries_freeContents hs.nodup hs.filled
  rw [Sketch.ending_eq] at hcarries
  obtain ⟨last, hrun, hlast⟩ := hcarries.ok hc.fits c hc
  refine ⟨last, hrun, fun g => ?_, fun n => ?_⟩
  · rw [hlast.contents_eq]
    cases g <;> rfl
  · rw [hlast.entries]
    change (if n ∈ s.old then none else if n ∈ s.young then none else s.entries n) = none
    split_ifs with hold hyoung
    · rfl
    · rfl
    · exact hs.spare n ⟨hyoung, hold⟩

end Shows

variable [DecidableEq κ]

/-- The calls of a history with their outcomes, in order. -/
def transcript (c : Cache κ α) (ops : List (Operation κ α)) :
    List (Operation κ α × Except Fault (Outcome (Answer α) α)) :=
  ops.zip (c.run ops).1

theorem run_length (c : Cache κ α) (ops : List (Operation κ α)) :
    (c.run ops).1.length = ops.length := by
  induction ops generalizing c with
  | nil => rfl
  | cons op rest ih => exact congrArg (· + 1) (ih (c.step op).2)

/-- One more call is added to the transcript with its outcome. -/
theorem transcript_concat (c : Cache κ α) (ops : List (Operation κ α)) (op : Operation κ α) :
    c.transcript (ops ++ [op]) = c.transcript ops ++ [(op, ((c.run ops).2.step op).1)] := by
  rw [transcript, run_append, List.zip_append (c.run_length ops).symm]
  rfl

theorem run_concat (c : Cache κ α) (ops : List (Operation κ α)) (op : Operation κ α) :
    (c.run (ops ++ [op])).2 = ((c.run ops).2.step op).2 := by
  rw [run_append]
  rfl

/-- A history with one more call answers if it does so without the call, and the call answers. -/
theorem answers_concat_iff {ops : List (Operation κ α)} {op : Operation κ α} :
    c.Answers (ops ++ [op]) ↔ c.Answers ops ∧ ∃ o, ((c.run ops).2.step op).1 = .ok o := by
  rw [answers_append_iff]
  exact and_congr_right fun _ => List.forall_mem_singleton

/-- What holds at the empty model of a configuration, and is kept by every call that answers, holds
after every history that answers, at a model that the cache then shows. -/
theorem Answers.induction {config : CacheConfig} {hasher : Hasher κ}
    {P : List (Operation κ α) → CacheModel κ α → Prop} {ops : List (Operation κ α)}
    (hanswers : (ofConfig config hasher).Answers ops) (hstart : P [] (CacheModel.ofConfig config))
    (hcall : ∀ past op o m, ((ofConfig config hasher).run past).2.Shows m →
      (((ofConfig config hasher).run past).2.step op).1 = .ok o → P past m →
        P (past ++ [op]) (m.step op).next) :
    ∃ m, ((ofConfig config hasher).run ops).2.Shows m ∧ P ops m := by
  induction ops using List.reverseRecOn with
  | nil => exact ⟨_, shows_ofConfig config hasher, hstart⟩
  | append_singleton past op ih =>
    obtain ⟨hpast, o, ho⟩ := answers_concat_iff.mp hanswers
    obtain ⟨m, hm, hP⟩ := ih hpast
    rw [run_concat]
    exact ⟨_, (hm.step ho).2.1, hcall past op o m hm ho hP⟩

/-- After a history that answers, a new cache shows a model. -/
theorem Answers.shows {config : CacheConfig} {hasher : Hasher κ} {ops : List (Operation κ α)}
    (h : (ofConfig config hasher).Answers ops) :
    ∃ m, ((ofConfig config hasher).run ops).2.Shows m := by
  obtain ⟨m, hm, -⟩ := h.induction (P := fun _ _ => True) trivial fun _ _ _ _ _ _ _ => trivial
  exact ⟨m, hm⟩

/-- The property holds after every part of a history, up to the first call that stops. That call
raises a counter of its model beyond its word, which no history shorter than `2 ^ 64` can do. -/
def Throughout (config : CacheConfig) (hasher : Hasher κ) (ops : List (Operation κ α))
    (P : List (Operation κ α) → Prop) : Prop :=
  ∃ done rest, ops = done ++ rest ∧ (∀ past, past <+: done → P past) ∧
    (∀ op tail, rest = op :: tail →
      (((ofConfig config hasher).run done).2.step op).1 = .error .additionOverflow ∧
        ¬ CacheModel.Fits ((CacheModel.ofConfig config).run (done ++ [op])).1) ∧
    (ops.length < UInt64.size → rest = [])

/-- What holds throughout a history that is short enough holds after it. -/
theorem Throughout.of_length {config : CacheConfig} {hasher : Hasher κ} {ops : List (Operation κ α)}
    {P : List (Operation κ α) → Prop} (h : Throughout config hasher ops P)
    (hlength : ops.length < UInt64.size) : P ops := by
  obtain ⟨done, rest, rfl, hdone, -, hrest⟩ := h
  rw [hrest hlength, List.append_nil]
  exact hdone done (List.prefix_refl done)

/-- What holds after every history that answers holds throughout every history. -/
theorem throughout_of_answers {config : CacheConfig} {hasher : Hasher κ}
    {P : List (Operation κ α) → Prop} (h : ∀ past, (ofConfig config hasher).Answers past → P past)
    (ops : List (Operation κ α)) : Throughout config hasher ops P := by
  obtain ⟨done, rest, rfl, hdone, hstop, hlength⟩ := run_refines_model config hasher ops
  refine ⟨done, rest, rfl, fun past hpast => h past fun outcome hmem => ?_, hstop, hlength⟩
  rw [(hdone past hpast).1] at hmem
  obtain ⟨step, -, rfl⟩ := List.mem_map.mp hmem
  exact ⟨step.outcome, rfl⟩

/-- The call stops, because it would raise a counter beyond its word. -/
def Overflows (c : Cache κ α) (op : Operation κ α) : Prop :=
  (c.step op).1 = .error .additionOverflow ∧ ∃ counter : Counter, counter.grows ∧
    UInt64.size ≤ (c.metrics.get counter).toNat + (c.model.step op).raised.count counter

namespace Shows

/-- A call answers, or it overflows. -/
theorem step_or_overflows (h : c.Shows m) (op : Operation κ α) :
    (∃ o, (c.step op).1 = .ok o) ∨ c.Overflows op := by
  rw [Overflows, h.model_eq]
  obtain ⟨s, hc, hs, rfl⟩ := h
  obtain ⟨s', hreaches, hok, hstop⟩ := Sketch.step_ok hc hs op
  by_cases hfits : s'.Fits
  · exact .inl ⟨_, (hok hfits).1⟩
  · have hover := hfits
    rw [Sketch.Fits] at hover
    push Not at hover
    obtain ⟨counter, hgrows, hcount⟩ := hover
    rw [hreaches.counts] at hcount
    refine .inr ⟨hstop hfits, counter, hgrows, ?_⟩
    rw [hc.counts counter hgrows]
    exact hcount

/-- A history that answers goes as that of the model, and raises the counters as it says. -/
theorem run (h : c.Shows m) {ops : List (Operation κ α)} (hanswers : c.Answers ops) :
    (c.run ops).1 = (m.run ops).1.map (fun step => .ok step.outcome) ∧
      (c.run ops).2.Shows (m.run ops).2 ∧
      ∀ counter : Counter, counter.grows → ((c.run ops).2.metrics.get counter).toNat =
        (c.metrics.get counter).toNat + (CacheModel.raisedBy (m.run ops).1).count counter := by
  induction ops generalizing c m with
  | nil => exact ⟨rfl, h, fun _ _ => rfl⟩
  | cons op ops ih =>
    obtain ⟨⟨o, ho⟩, hrest⟩ := hanswers.cons
    obtain ⟨rfl, hnext, hcounts⟩ := h.step ho
    obtain ⟨houtcomes, hlast, hraised⟩ := ih hnext hrest
    refine ⟨?_, hlast, fun counter hgrows => ?_⟩
    · change (c.step op).1 :: ((c.step op).2.run ops).1 = _
      rw [ho, houtcomes]
      rfl
    · change (((c.step op).2.run ops).2.metrics.get counter).toNat = _ + (CacheModel.raisedBy
        (m.step op :: ((m.step op).next.run ops).1)).count counter
      rw [hraised counter hgrows, hcounts counter hgrows, CacheModel.raisedBy_cons,
        List.count_append, Nat.add_assoc]

/-- A history answers up to its end, or up to a first call that overflows. -/
theorem answers_or_overflows (h : c.Shows m) (ops : List (Operation κ α)) :
    ∃ done rest, ops = done ++ rest ∧ c.Answers done ∧
      ∀ op tail, rest = op :: tail → (c.run done).2.Overflows op := by
  induction ops generalizing c m with
  | nil => exact ⟨[], [], rfl, by simp [Answers, Cache.run], by simp⟩
  | cons op ops ih =>
    rcases h.step_or_overflows op with ⟨o, ho⟩ | hover
    · obtain ⟨done, rest, rfl, hdone, hrest⟩ := ih (h.step ho).2.1
      refine ⟨op :: done, rest, rfl, fun outcome hmem => ?_, hrest⟩
      rcases List.mem_cons.mp hmem with rfl | hmem
      · exact ⟨o, ho⟩
      · exact hdone outcome hmem
    · refine ⟨[], op :: ops, rfl, by simp [Answers, Cache.run], ?_⟩
      rintro _ _ ⟨rfl, rfl⟩
      exact hover

/-- A counter that overflows holds as many as its word can, and is raised once more. -/
theorem full_of_overflows (h : c.Shows m) {op : Operation κ α} (hover : c.Overflows op) :
    ∃ counter : Counter, counter.grows ∧ (m.step op).raised.count counter = 1 ∧
      (c.metrics.get counter).toNat + 1 = UInt64.size := by
  obtain ⟨-, counter, hgrows, hcount⟩ := hover
  rw [h.model_eq] at hcount
  have hword := UInt64.toNat_lt (c.metrics.get counter)
  have hone := List.nodup_iff_count_le_one.mp (m.step_raised_nodup op) counter
  have hsize : UInt64.size = 2 ^ 64 := rfl
  exact ⟨counter, hgrows, by omega, by omega⟩

end Shows

/-- A reachable cache shows a model. -/
theorem Reachable.shows (h : c.Reachable) : ∃ m, c.Shows m := by
  obtain ⟨config, hasher, ops, hanswers, rfl⟩ := h
  exact hanswers.shows

/-- A call that answers leads from a reachable cache to a reachable one. -/
theorem Reachable.step (h : c.Reachable) {op : Operation κ α} {o : Outcome (Answer α) α}
    (ho : (c.step op).1 = .ok o) : (c.step op).2.Reachable := by
  obtain ⟨config, hasher, ops, hanswers, rfl⟩ := h
  exact ⟨config, hasher, ops ++ [op], answers_concat_iff.mpr ⟨hanswers, o, ho⟩,
    (run_concat _ ops op).symm⟩

end Cache

end CachePool
