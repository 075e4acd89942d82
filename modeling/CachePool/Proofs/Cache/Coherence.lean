import CachePool.Proofs.Cache.History

/-!
# Caches beside a map that forgets nothing

A cache and an ideal map receive the same writes, removals and clears. The cache may
miss what the map has, but what it holds for a key is what the map holds, so no call
ever reports a stale or a foreign value. A key is lost for one of four reasons only: it
is removed, the cache is cleared, its value is found gone, or it is the last young key
when a new one enters a full young generation. A hit loses nothing: a promotion makes
room in young before it demotes.
-/

namespace CachePool

open Metrics

/-- The answer tells nothing about a key but what the given value of the key says. -/
def Answer.Reports {α : Type} (expected : Option α) : Answer α → Prop
  | .value v => ∀ w, v = some w → expected = some w
  | .found present => present → expected.isSome
  | .generation g => g.isSome → expected.isSome
  | .done => True

/-- What is true of a value is true of what it comes from. -/
theorem Answer.Reports.mono {α : Type} {v w : Option α} {answer : Answer α}
    (h : answer.Reports v) (hvw : ∀ x, v = some x → w = some x) : answer.Reports w := by
  have hsome : v.isSome → w.isSome := by
    intro hv
    obtain ⟨x, hx⟩ := Option.isSome_iff_exists.mp hv
    rw [hvw x hx, Option.isSome_some]
  cases answer with
  | value u => exact fun x hx => hvw x (h x hx)
  | found present => exact fun hpresent => hsome (h hpresent)
  | generation g => exact fun hg => hsome (h hg)
  | done => trivial

namespace Operation

variable {κ α : Type}

/-- The key that a call is about. -/
def subject : Operation κ α → Option κ
  | .get key => some key
  | .update key _ => some key
  | .getLive key _ => some key
  | .peek key => some key
  | .contains key => some key
  | .generationOf key => some key
  | .put key _ => some key
  | .set key _ => some key
  | .remove key => some key
  | .clear => none

/-- The call looks a key up for a hit, and does not find its value gone. -/
def isLookup (lookup : κ → Option α) : Operation κ α → Prop
  | .get _ => True
  | .update _ _ => True
  | .getLive key alive => (lookup key).all alive
  | _ => False

/-- The call removes no key, does not clear, and finds no value gone. -/
def retains (lookup : κ → Option α) : Operation κ α → Prop
  | .remove _ => False
  | .set _ none => False
  | .getLive key alive => (lookup key).all alive
  | .clear => False
  | _ => True

/-- The call makes a cached key leave, by the values that are cached and the key that a new one pushes
out. -/
def loses (lookup : κ → Option α) (pushedOut : Option κ) (key : κ) : Operation κ α → Prop
  | .getLive k alive => k = key ∧ (lookup k).any fun value => !alive value
  | .put k _ => lookup k = none ∧ pushedOut = some key
  | .set k (some _) => lookup k = none ∧ pushedOut = some key
  | .set k none => k = key
  | .remove k => k = key
  | .clear => True
  | _ => False

/-- A call that gives a key a value loses the key that is pushed out, if its own is new. -/
theorem loses_of_assigns {op : Operation κ α} {lookup : κ → Option α} {pushedOut : Option κ}
    {key k : κ} {value : α} (h : op.assigns = some (key, value)) :
    op.loses lookup pushedOut k ↔ lookup key = none ∧ pushedOut = some k := by
  cases op with
  | put _ _ =>
    cases h
    exact Iff.rfl
  | set _ v =>
    cases v with
    | some _ =>
      cases h
      exact Iff.rfl
    | none => cases h
  | _ => cases h

/-- A lookup loses no key. -/
theorem not_loses_of_isLookup {op : Operation κ α} {lookup : κ → Option α} {pushedOut : Option κ}
    {key : κ} (h : op.isLookup lookup) : ¬ op.loses lookup pushedOut key := by
  cases op with
  | get _ => exact id
  | update _ _ => exact id
  | getLive k alive =>
    rintro ⟨-, hgone⟩
    rw [isLookup] at h
    cases hv : lookup k with
    | none =>
      rw [hv] at hgone
      cases hgone
    | some v =>
      rw [hv, Option.all_some] at h
      rw [hv, Option.any_some, h] at hgone
      cases hgone
  | _ => exact h.elim

variable [DecidableEq κ]

/-- What a call does to a map that forgets nothing. An update writes if it was given a value to
write to. -/
def writeTo (ideal : κ → Option α) (answer : Answer α) : Operation κ α → κ → Option α
  | .put key value => Function.update ideal key (some value)
  | .set key value => Function.update ideal key value
  | .update key f =>
    match answer with
    | .value (some _) => Function.update ideal key ((ideal key).map f)
    | _ => ideal
  | .remove key => Function.update ideal key none
  | .clear => fun _ => none
  | _ => ideal

end Operation

namespace CacheModel

variable {κ α : Type} [DecidableEq κ] {m : CacheModel κ α} {ideal : κ → Option α} {key k : κ}
  {value v : α}

/-- The map has every value of the model. -/
def Within (m : CacheModel κ α) (ideal : κ → Option α) : Prop :=
  ∀ key value, m.value? key = some value → ideal key = some value

/-- A model that keeps values only is within the same map. -/
theorem Within.mono {m' : CacheModel κ α} (hm : m.Within ideal)
    (hkept : ∀ k w, m'.value? k = some w → m.value? k = some w) : m'.Within ideal :=
  fun k w hw => hm k w (hkept k w hw)

/-- A model that changes the value of one key is within the map that changes it alike. -/
theorem Within.update {m' : CacheModel κ α} {x : Option α} (hm : m.Within ideal)
    (hkey : ∀ w, m'.value? key = some w → x = some w)
    (hkept : ∀ k w, k ≠ key → m'.value? k = some w → m.value? k = some w) :
    m'.Within (Function.update ideal key x) := by
  intro k w hw
  by_cases hk : k = key
  · subst hk
    rw [Function.update_self]
    exact hkey w hw
  · rw [Function.update_of_ne hk]
    exact hm k w (hkept k w hk hw)

theorem Within.hit (hm : m.Within ideal) (h : m.Sound) (key : κ) : (m.hit key).2.Within ideal :=
  hm.mono fun k w hw => by rwa [value?_hit h] at hw

theorem Within.put (hm : m.Within ideal) (h : m.Sound) (key : κ) (value : α) :
    (m.put key value).next.Within (Function.update ideal key (some value)) := by
  refine hm.update (fun w hw => ?_) fun k w hk hw => value?_put_of_ne h hk hw
  rwa [value?_put_self h] at hw

theorem Within.remove (hm : m.Within ideal) (h : m.Sound) (key : κ) :
    (m.remove key).next.Within (Function.update ideal key none) := by
  refine hm.update (fun w hw => ?_) fun k w hk hw => ?_
  · rwa [value?_remove_self h] at hw
  · rwa [value?_remove_of_ne h hk] at hw

/-- A write goes to the map if its key has a value to write to. -/
theorem Within.write (hm : m.Within ideal) (key : κ) (f : α → α) :
    (m.write key f).Within
      ((Operation.update key f).writeTo ideal (.value (m.value? key))) := by
  cases hv : m.value? key with
  | some before =>
    refine hm.update (fun w hw => ?_) fun k w hk hw => ?_
    · rw [value?_write, if_pos rfl, hv] at hw
      rw [hm key before hv, hw]
    · rwa [value?_write, if_neg hk] at hw
  | none =>
    rw [write_absent (value?_eq_none_iff.mp hv)]
    exact hm

/-- Every call keeps the model within the map that receives its writes. -/
theorem Within.step (hm : m.Within ideal) (h : m.Sound) (op : Operation κ α) :
    (m.step op).next.Within (op.writeTo ideal (m.step op).outcome.result) := by
  cases op with
  | get key => exact hm.hit h key
  | update key f =>
    have hwrite := (hm.hit h key).write key f
    rwa [value?_hit h] at hwrite
  | getLive key alive =>
    rw [CacheModel.step]
    rcases m.getLive_cases key alive with ⟨-, heq⟩ | ⟨value, -, -, heq⟩ | ⟨value, hv, -, heq⟩
    · rw [heq]
      exact hm
    · rw [heq]
      exact hm.hit h key
    · rw [heq]
      refine hm.mono fun k w hw => ?_
      rw [value?_erase h hv] at hw
      split at hw
      · cases hw
      · exact hw
  | peek key => exact hm
  | contains key => exact hm
  | generationOf key => exact hm
  | put key value => exact hm.put h key value
  | set key value =>
    cases value with
    | some value => exact hm.put h key value
    | none => exact hm.remove h key
  | remove key => exact hm.remove h key
  | clear =>
    rintro k w ⟨⟩

/-- A generation is told of keys that have a value. -/
theorem value?_isSome_of_generationOf (h : (m.generationOf key).isSome) :
    (m.value? key).isSome := by
  rw [value?_isSome_iff, keys_append, List.mem_append]
  by_contra hout
  rw [not_or] at hout
  rw [generationOf, itemOf_eq_none_iff.mpr hout.1, itemOf_eq_none_iff.mpr hout.2] at h
  cases h

/-- What a call answers about its key is the value of the key, or nothing. -/
theorem step_reports (m : CacheModel κ α) {op : Operation κ α} (hkey : op.subject = some key) :
    (m.step op).outcome.result.Reports (m.value? key) := by
  have hvalue : (Answer.value (m.value? key)).Reports (m.value? key) := fun _ hw => hw
  cases op with
  | get k =>
    cases hkey
    exact hvalue
  | update k f =>
    cases hkey
    exact hvalue
  | getLive k alive =>
    cases hkey
    rw [step, getLive_result]
    exact fun w hw => (Option.filter_eq_some_iff.mp hw).1
  | peek k =>
    cases hkey
    exact hvalue
  | contains k =>
    cases hkey
    exact fun hfound => hfound
  | generationOf k =>
    cases hkey
    exact value?_isSome_of_generationOf
  | put k value =>
    cases hkey
    rw [step, put_result]
    exact hvalue
  | set k value =>
    cases hkey
    cases value with
    | some value =>
      rw [step, put_result]
      exact hvalue
    | none =>
      rw [step, remove_result]
      exact hvalue
  | remove k =>
    cases hkey
    rw [step, remove_result]
    exact hvalue
  | clear => cases hkey

/-- A put loses the displaced key, if its own is new. -/
theorem put_loses_iff (h : m.Sound) (hcached : m.value? key ≠ none) :
    (m.put k value).next.value? key = none ↔
      m.value? k = none ∧ m.displaced.map (·.key) = some key := by
  cases hv : m.value? k with
  | some before =>
    refine iff_of_false ?_ (by simp)
    rw [put_known hv, value?_write]
    split_ifs
    · rwa [Option.map_eq_none_iff]
    · exact hcached
  | none =>
    have hk : key ≠ k := fun hk => hcached (hk ▸ hv)
    rw [put_new hv, value?_insert h hv, if_neg hk]
    split_ifs with hdisplaced
    · simp [hdisplaced]
    · simp [hdisplaced, hcached]

/-- A removal loses its own key. -/
theorem remove_loses_iff (h : m.Sound) (hcached : m.value? key ≠ none) :
    (m.remove k).next.value? key = none ↔ k = key := by
  constructor
  · intro hlost
    by_contra hk
    rw [value?_remove_of_ne h (Ne.symm hk)] at hlost
    exact hcached hlost
  · rintro rfl
    exact value?_remove_self h k

/-- A cached key is lost for these reasons only, and for each of them it is. -/
theorem step_loses_iff (h : m.Sound) (hcached : m.value? key ≠ none) (op : Operation κ α) :
    (m.step op).next.value? key = none ↔
      op.loses m.value? (m.displaced.map (·.key)) key := by
  cases op with
  | get k =>
    refine iff_of_false ?_ id
    rwa [CacheModel.step, value?_hit h]
  | update k f =>
    refine iff_of_false ?_ id
    rw [CacheModel.step, value?_write, value?_hit h]
    split_ifs
    · rwa [Option.map_eq_none_iff]
    · exact hcached
  | getLive k alive =>
    rw [CacheModel.step, Operation.loses]
    rcases m.getLive_cases k alive with
      ⟨hv, heq⟩ | ⟨value, hv, halive, heq⟩ | ⟨value, hv, hgone, heq⟩
    · rw [heq, hv]
      exact iff_of_false hcached (by simp)
    · rw [heq, hv, value?_hit h]
      exact iff_of_false hcached (by simp [halive])
    · rw [heq, hv, value?_erase h hv, Option.any_some, hgone]
      split_ifs with hk
      · exact iff_of_true rfl ⟨hk.symm, rfl⟩
      · exact iff_of_false hcached fun hlost => hk hlost.1.symm
  | peek k => exact iff_of_false hcached id
  | contains k => exact iff_of_false hcached id
  | generationOf k => exact iff_of_false hcached id
  | put k value => exact put_loses_iff h hcached
  | set k value =>
    cases value with
    | some value => exact put_loses_iff h hcached
    | none => exact remove_loses_iff h hcached
  | remove k => exact remove_loses_iff h hcached
  | clear => exact iff_of_true rfl trivial

/-- A hit evicts nothing. -/
theorem evictions_not_mem_hit (m : CacheModel κ α) (key : κ) :
    Counter.evictions ∉ (m.hit key).1 := by
  simp only [hit, promote]
  split
  · split
    · simp
    · split <;> simp
  · split <;> simp

/-- A lookup frees nothing and evicts nothing. -/
theorem step_lookup (m : CacheModel κ α) {op : Operation κ α} (hop : op.isLookup m.value?) :
    (m.step op).outcome.freed = [] ∧ Counter.evictions ∉ (m.step op).raised := by
  cases op with
  | get key => exact ⟨rfl, m.evictions_not_mem_hit key⟩
  | update key f => exact ⟨rfl, m.evictions_not_mem_hit key⟩
  | getLive key alive =>
    rw [Operation.isLookup] at hop
    rw [step]
    rcases m.getLive_cases key alive with ⟨-, heq⟩ | ⟨value, -, -, heq⟩ | ⟨value, hv, hgone, -⟩
    · rw [heq]
      exact ⟨rfl, by simp⟩
    · rw [heq]
      exact ⟨rfl, m.evictions_not_mem_hit key⟩
    · rw [hv, Option.all_some, hgone] at hop
      cases hop
  | _ => exact hop.elim

/-- The first model has no more items than the second one, and no more old ones. -/
def Fewer (m m' : CacheModel κ α) : Prop :=
  m.pairs.length ≤ m'.pairs.length ∧ m.old.length ≤ m'.old.length

omit [DecidableEq κ] in
theorem Fewer.refl (m : CacheModel κ α) : m.Fewer m := ⟨Nat.le_refl _, Nat.le_refl _⟩

omit [DecidableEq κ] in
theorem Fewer.trans {m' m'' : CacheModel κ α} (h : m.Fewer m') (h' : m'.Fewer m'') : m.Fewer m'' :=
  ⟨h.1.trans h'.1, h.2.trans h'.2⟩

/-- No old item is lost by a hit: what leaves old makes room for what entered it. -/
theorem fewer_hit (h : m.Sound) (key : κ) : m.Fewer (m.hit key).2 := by
  refine ⟨(pairs_hit h key).length_eq.ge, ?_⟩
  rcases h.hit_cases key with ⟨item, -, -, heq⟩ | ⟨item, -, -, heq⟩ |
    ⟨item, as, o, -, -, ho, heq⟩ | ⟨item, -, hitem, heq⟩ | ⟨-, heq⟩
  · rw [heq]
  · rw [heq]
    exact Nat.le_succ _
  · rw [heq, ho, List.length_append, List.length_singleton, List.length_cons]
  · rw [heq]
    exact (perm_without hitem).length_eq.le
  · rw [heq]

theorem fewer_write (m : CacheModel κ α) (key : κ) (f : α → α) : m.Fewer (m.write key f) := by
  simp [Fewer, pairs, write, revise]

theorem fewer_put (h : m.Sound) (key : κ) (value : α) : m.Fewer (m.put key value).next := by
  cases hv : m.value? key with
  | some before =>
    rw [put_known hv]
    exact fewer_write m key _
  | none =>
    rw [put_new hv]
    constructor
    · have hlength := (pairs_insert h key value).length_eq
      have hone : (m.displaced.toList.map fun i => (i.key, i.value)).length ≤ 1 := by
        cases m.displaced <;> simp
      rw [List.length_append, List.length_cons] at hlength
      omega
    · simp only [insert]
      split <;> exact Nat.le_refl _

/-- A call that retains what is cached leaves no less of it, and no less of the old part. -/
theorem fewer_step (h : m.Sound) {op : Operation κ α} (hop : op.retains m.value?) :
    m.Fewer (m.step op).next := by
  cases op with
  | get key => exact fewer_hit h key
  | update key f => exact (fewer_hit h key).trans (fewer_write _ key f)
  | getLive key alive =>
    rw [Operation.retains] at hop
    rw [step]
    rcases m.getLive_cases key alive with ⟨-, heq⟩ | ⟨value, -, -, heq⟩ | ⟨value, hv, hgone, -⟩
    · rw [heq]
      exact .refl m
    · rw [heq]
      exact fewer_hit h key
    · rw [hv, Option.all_some, hgone] at hop
      cases hop
  | peek key => exact .refl m
  | contains key => exact .refl m
  | generationOf key => exact .refl m
  | put key value => exact fewer_put h key value
  | set key value =>
    cases value with
    | some value => exact fewer_put h key value
    | none => exact hop.elim
  | remove key => exact hop.elim
  | clear => exact hop.elim

end CacheModel

namespace Cache

variable {κ α : Type} [DecidableEq κ] {c : Cache κ α} {m : CacheModel κ α} {key : κ}
  {op : Operation κ α} {o : Outcome (Answer α) α}

/-- The key that a new one pushes out: the last young one, once young is full. -/
def pushedOut (c : Cache κ α) : Option κ :=
  if c.young.isFull then (c.contents .young).getLast?.map (·.key) else none

/-- What a map that forgets nothing holds after a history, if it gets the writes, the removals and the
clears of the calls that answered. -/
def ideal (c : Cache κ α) (ops : List (Operation κ α)) : κ → Option α :=
  (c.transcript ops).foldl (fun ideal (op, outcome) =>
    match outcome with
    | .ok o => op.writeTo ideal o.result
    | .error _ => ideal) fun _ => none

/-- No call of the history removes a key, clears the cache, or finds a value gone. -/
def Retains (c : Cache κ α) : List (Operation κ α) → Prop
  | [] => True
  | op :: rest => op.retains c.peek ∧ (c.step op).2.Retains rest

theorem ideal_concat (c : Cache κ α) {ops : List (Operation κ α)}
    (ho : ((c.run ops).2.step op).1 = .ok o) :
    c.ideal (ops ++ [op]) = op.writeTo (c.ideal ops) o.result := by
  rw [ideal, transcript_concat, List.foldl_append, ho]
  rfl

omit [DecidableEq κ] in
theorem Shows.pushedOut_eq (h : c.Shows m) : c.pushedOut = m.displaced.map (·.key) := by
  rw [h.displaced_eq, pushedOut]
  split_ifs
  · rw [Option.map_map]
    rfl
  · rfl

omit [DecidableEq κ] in
theorem Shows.length_eq (h : c.Shows m) : c.length = m.pairs.length := by
  rw [length, h.young_length, h.old_length, CacheModel.pairs, List.length_map, List.length_append]

/-- A history that retains what is cached never shrinks the cache or its old generation. -/
theorem Shows.length_le_run (h : c.Shows m) {ops : List (Operation κ α)} (hanswers : c.Answers ops)
    (hretains : c.Retains ops) :
    c.length ≤ (c.run ops).2.length ∧ c.old.length ≤ (c.run ops).2.old.length := by
  induction ops generalizing c m with
  | nil => exact ⟨Nat.le_refl _, Nat.le_refl _⟩
  | cons op rest ih =>
    obtain ⟨⟨o, ho⟩, hrest⟩ := hanswers.cons
    obtain ⟨-, hnext, -⟩ := h.step ho
    obtain ⟨hlength, hold⟩ := ih hnext hrest hretains.2
    obtain ⟨hfirst, hfirstOld⟩ := CacheModel.fewer_step h.sound (h.lookup_eq ▸ hretains.1)
    rw [← h.length_eq, ← hnext.length_eq] at hfirst
    rw [← h.old_length, ← hnext.old_length] at hfirstOld
    exact ⟨hfirst.trans hlength, hfirstOld.trans hold⟩

/-- A cache and a map that forgets nothing agree on what the cache has, and the next call that
answers tells the truth and loses a key for the named reasons only. -/
structure Coherent (c : Cache κ α) (ideal : κ → Option α) : Prop where
  /-- What is cached for a key is its value in the map. -/
  cached : ∀ key value, c.peek key = some value → ideal key = some value
  /-- What a call reports about its key is what the map says. -/
  reports : ∀ op o key, (c.step op).1 = .ok o → op.subject = some key →
    o.result.Reports (ideal key)
  /-- A key leaves for one of the reasons, and for each of them it does. -/
  losses : ∀ op o key, (c.step op).1 = .ok o → c.contains key →
    ((c.step op).2.contains key = false ↔ op.loses c.peek c.pushedOut key)
  /-- A key that is given a value has it afterwards. -/
  assigned : ∀ op o key value, (c.step op).1 = .ok o → op.assigns = some (key, value) →
    (c.step op).2.peek key = some value
  /-- A new key that enters a full young generation costs the last young entry, and no other. -/
  displaced : ∀ op o key value, (c.step op).1 = .ok o → op.assigns = some (key, value) →
    c.contains key = false → c.young.isFull →
    ∃ e, (c.contents .young).getLast? = some e ∧ e.key ≠ key ∧ o.freed = [e.value] ∧
      ∀ k, c.contains k → ((c.step op).2.contains k = false ↔ k = e.key)
  /-- A lookup loses no key, frees nothing and evicts nothing. -/
  lookups : ∀ op o, (c.step op).1 = .ok o → op.isLookup c.peek →
    (∀ key, c.contains key → (c.step op).2.contains key) ∧ o.freed = [] ∧
      (c.step op).2.metrics.get .evictions = c.metrics.get .evictions

/-- A cache is coherent with a map that has what its model has. -/
theorem Shows.coherent (h : c.Shows m) {ideal : κ → Option α} (hm : m.Within ideal) :
    c.Coherent ideal := by
  have hlosses : ∀ op o key, (c.step op).1 = .ok o → c.contains key →
      ((c.step op).2.contains key = false ↔ op.loses c.peek c.pushedOut key) := by
    intro op o key ho hcontains
    obtain ⟨-, hnext, -⟩ := h.step ho
    rw [h.contains_eq, Option.isSome_iff_ne_none] at hcontains
    rw [hnext.contains_eq, Option.isSome_eq_false_iff, Option.isNone_iff_eq_none, h.lookup_eq,
      h.pushedOut_eq]
    exact CacheModel.step_loses_iff h.sound hcontains op
  constructor
  case cached =>
    intro key value hvalue
    exact hm key value (by rwa [← h.peek_eq])
  case reports =>
    intro op o key ho hsubject
    obtain ⟨rfl, -, -⟩ := h.step ho
    exact (m.step_reports hsubject).mono (hm key)
  case losses => exact hlosses
  case assigned =>
    intro op o key value ho hassigns
    obtain ⟨-, hnext, -⟩ := h.step ho
    rw [hnext.peek_eq, CacheModel.step_of_assigns hassigns, CacheModel.value?_put_self h.sound]
  case displaced =>
    intro op o key value ho hassigns habsent hfull
    obtain ⟨rfl, -, -⟩ := h.step ho
    rw [h.contains_eq, Option.isSome_eq_false_iff, Option.isNone_iff_eq_none] at habsent
    obtain ⟨e, he, hdisplaced⟩ := h.exists_displaced hfull
    have hne := CacheModel.key_ne_of_mem_young habsent (CacheModel.mem_of_displaced hdisplaced)
    refine ⟨e, he, hne, ?_, fun k hk => ?_⟩
    · rw [CacheModel.step_of_assigns hassigns, CacheModel.put_new habsent,
        CacheModel.insert_freed h.sound, hdisplaced]
      rfl
    · rw [hlosses op _ k ho hk, Operation.loses_of_assigns hassigns, h.peek_eq, h.pushedOut_eq,
        hdisplaced]
      simp [habsent, Entry.item, eq_comm]
  case lookups =>
    intro op o ho hlookup
    obtain ⟨rfl, -, hcounts⟩ := h.step ho
    obtain ⟨hfreed, hevictions⟩ := m.step_lookup (h.lookup_eq ▸ hlookup)
    refine ⟨fun key hkey => ?_, hfreed, UInt64.toNat_inj.mp ?_⟩
    · rw [← Bool.not_eq_false, hlosses op _ key ho hkey]
      exact Operation.not_loses_of_isLookup hlookup
    · rw [hcounts .evictions rfl, List.count_eq_zero.mpr hevictions, Nat.add_zero]

/-- Throughout every history, a cache is coherent with the map that received the same writes,
removals and clears; and where no key was removed, no value was found gone and the cache was not
cleared, neither the cache nor its old generation has shrunk. -/
theorem run_coherent (config : CacheConfig) (hasher : Hasher κ) (ops : List (Operation κ α)) :
    Throughout config hasher ops fun past =>
      ((ofConfig config hasher).run past).2.Coherent ((ofConfig config hasher).ideal past) ∧
        ∀ before later, past = before ++ later →
          ((ofConfig config hasher : Cache κ α).run before).2.Retains later →
          ((ofConfig config hasher : Cache κ α).run before).2.length ≤
              ((ofConfig config hasher : Cache κ α).run past).2.length ∧
            ((ofConfig config hasher : Cache κ α).run before).2.old.length ≤
              ((ofConfig config hasher : Cache κ α).run past).2.old.length := by
  refine throughout_of_answers (fun past hanswers => ⟨?_, ?_⟩) ops
  · have hstart : (CacheModel.ofConfig config).Within
        ((ofConfig config hasher : Cache κ α).ideal []) := by
      rintro key value ⟨⟩
    obtain ⟨m, hm, hwithin⟩ := hanswers.induction
      (P := fun past m => m.Within ((ofConfig config hasher).ideal past)) hstart
      fun past op o m hm ho hwithin => by
        rw [ideal_concat _ ho, (hm.step ho).1]
        exact hwithin.step hm.sound op
    exact hm.coherent hwithin
  · rintro before later rfl hretains
    obtain ⟨hbefore, hlater⟩ := answers_append_iff.mp hanswers
    obtain ⟨m, hm⟩ := hbefore.shows
    rw [run_append]
    exact hm.length_le_run hlater hretains

end Cache

end CachePool
