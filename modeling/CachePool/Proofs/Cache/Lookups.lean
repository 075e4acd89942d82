import CachePool.Proofs.Cache.Accounts

/-!
# Lookups of a reachable cache

A lookup of a reachable cache, which may change the value that it finds, is one
request. It answers the value that its key had, changes no other value, drops no key,
and counts a hit if the key was cached; if it was not, every entry stays as it was.
A lookup stops only when no further request can be counted: no other counter that it
raises is ever ahead of the requests.
-/

namespace CachePool

open Metrics

namespace CacheModel

variable {κ α : Type} [DecidableEq κ] {m : CacheModel κ α}

/-- A value that is replaced by itself changes nothing. -/
theorem write_id (m : CacheModel κ α) (key : κ) : m.write key id = m := by
  have hrevise : ∀ items : List (Item κ α), revise items key id = items := fun items => by
    simp only [revise, id_eq, ite_self, List.map_id']
  rw [write, hrevise, hrevise]

/-- A hit counts as one if its key is there. -/
theorem count_hit_cacheHits (h : m.Sound) (key : κ) :
    (m.hit key).1.count .cacheHits = if (m.value? key).isSome then 1 else 0 := by
  by_cases hkey : key ∈ keys (m.young ++ m.old)
  · rw [if_pos (value?_isSome_iff.mpr hkey)]
    rcases h.hit_cases key with ⟨item, -, -, heq⟩ | ⟨item, -, -, heq⟩ |
      ⟨item, as, o, -, -, -, heq⟩ | ⟨item, -, -, heq⟩ | ⟨habsent, heq⟩
    · simp [heq]
    · simp [heq]
    · simp [heq]
    · simp [heq]
    · exact absurd hkey habsent
  · rw [if_neg (fun hsome => hkey (value?_isSome_iff.mp hsome)), hit_absent hkey]
    rfl

end CacheModel

namespace Cache

variable {κ α : Type} [DecidableEq κ] {c : Cache κ α} {m : CacheModel κ α} {op : Operation κ α}
  {key : κ} {f : α → α}

/-- What a lookup may raise besides the requests is never ahead of them. -/
theorem Reachable.counted_le (h : c.Reachable) {counter : Counter}
    (hcounter : counter ∈ [.cacheHits, .youngHits, .oldHits, .promotions, .demotions, .expired]) :
    c.counted counter ≤ c.counted .requests := by
  obtain ⟨config, hasher, ops, hanswers, rfl⟩ := h
  have hgrows : counter.grows := by
    cases counter <;> simp [Counter.grows] at hcounter ⊢
  obtain ⟨-, -, hle⟩ := hanswers.induction (P := fun past _ =>
    ((ofConfig config hasher : Cache κ α).run past).2.counted counter ≤
      ((ofConfig config hasher : Cache κ α).run past).2.counted .requests)
    (by cases counter <;> first | exact Nat.le_refl 0 | simp at hcounter)
    fun past op o m hm ho hle => by
      rw [hm.counted_concat ho hgrows, hm.counted_concat ho rfl]
      exact Nat.add_le_add hle (CacheModel.count_le_requests hm.sound op hcounter)
  exact hle

/-- A lookup that overflows finds the requests full. -/
theorem Reachable.requests_full (h : c.Reachable) (hm : c.Shows m) (hover : c.Overflows op)
    (hraised : ∀ counter ∈ [Counter.insertions, .updates, .evictions, .removals],
      (m.step op).raised.count counter = 0) :
    c.counted .requests + 1 = UInt64.size := by
  obtain ⟨counter, hgrows, hone, hfull⟩ := hm.full_of_overflows hover
  have hkind : counter ∉ [.insertions, .updates, .evictions, .removals] := fun hmem => by
    rw [hraised counter hmem] at hone
    cases hone
  have hle : c.counted counter ≤ c.counted .requests := by
    by_cases hrequests : counter = .requests
    · rw [hrequests]
    · refine h.counted_le ?_
      cases counter <;> simp [Counter.grows] at hgrows hrequests hkind ⊢
  have hword := UInt64.toNat_lt (c.metrics.get .requests)
  have hsize : UInt64.size = 2 ^ 64 := rfl
  rw [counted] at hle ⊢
  rw [counted] at hle
  omega

/-- An operation that is performed by an action answers as the rules say, or it overflows. -/
theorem Shows.act (h : c.Shows m) (op : Operation κ α)
    {x : Action (Cache κ α) (Outcome (Option α) α)} {result : Option α} {freed : List α}
    (hperform : perform op = Outcome.map .value <$> x)
    (hstep : (m.step op).outcome = { result := .value result, freed }) :
    (∃ c', x c = .ok { result, freed } c' ∧ c.step op = (.ok (m.step op).outcome, c')) ∨
      ∃ c', x c = .error .additionOverflow c' ∧ c.Overflows op := by
  cases hx : x c with
  | ok a c' =>
    have hc : c.step op = (.ok (a.map .value), c') := by
      rw [Cache.step, hperform, Action.attempt_ok (Action.map_ok hx)]
    have ho : (c.step op).1 = .ok (a.map .value) := by rw [hc]
    obtain ⟨hanswer, -⟩ := h.step ho
    rw [← hanswer, hc]
    rw [hstep] at hanswer
    obtain ⟨result', freed'⟩ := a
    obtain ⟨hresult, rfl⟩ := Outcome.mk.inj hanswer
    obtain rfl := Answer.value.inj hresult
    exact .inl ⟨c', rfl, rfl⟩
  | error fault c' =>
    have hc : c.step op = (.error fault, c') := by
      rw [Cache.step, hperform, Action.attempt_error (Action.map_error hx)]
    rcases h.step_or_overflows op with ⟨o, ho⟩ | hover
    · rw [hc] at ho
      cases ho
    · have hfault := hover.1
      rw [hc] at hfault
      cases hfault
      exact .inr ⟨c', rfl, hover⟩

/-- The second cache is the first one after a lookup that changed what it found by the function. -/
structure LooksUp (c c' : Cache κ α) (key : κ) (f : α → α) : Prop where
  reachable : c'.Reachable
  peek : ∀ k, c'.peek k = if k = key then (c.peek k).map f else c.peek k
  length : c'.length = c.length
  requests : c'.counted .requests = c.counted .requests + 1
  cacheHits : c'.counted .cacheHits =
    c.counted .cacheHits + if (c.peek key).isSome then 1 else 0
  /-- Without a hit every entry stays as it was, in its place. -/
  absent : c.peek key = none → c'.model = c.model

/-- A lookup that answers does what the rules of a lookup say. -/
theorem Shows.looksUp (h : c.Shows m) (hreachable : c.Reachable) {o : Outcome (Answer α) α}
    (ho : (c.step op).1 = .ok o) (hraised : (m.step op).raised = (m.hit key).1)
    (hnext : (m.step op).next = (m.hit key).2.write key f) :
    c.LooksUp (c.step op).2 key f := by
  obtain ⟨-, hshows, hcounts⟩ := h.step ho
  rw [hnext] at hshows
  rw [hraised] at hcounts
  constructor
  case reachable => exact hreachable.step ho
  case peek =>
    intro k
    rw [hshows.peek_eq, h.peek_eq, CacheModel.value?_write, CacheModel.value?_hit h.sound]
  case length =>
    rw [hshows.length_eq, h.length_eq, CacheModel.length_pairs_write,
      (CacheModel.pairs_hit h.sound key).length_eq]
  case requests =>
    rw [counted, hcounts .requests rfl, (CacheModel.hit_counts h.sound key).1]
    rfl
  case cacheHits =>
    rw [counted, hcounts .cacheHits rfl, CacheModel.count_hit_cacheHits h.sound, h.peek_eq]
    rfl
  case absent =>
    intro hpeek
    have habsent := CacheModel.value?_eq_none_iff.mp ((h.peek_eq key).symm.trans hpeek)
    rw [hshows.model_eq, h.model_eq, CacheModel.hit_absent habsent,
      CacheModel.write_absent habsent]

/-- An operation with the rules of a lookup answers the value that its key had and frees nothing, or
it finds the requests full. -/
theorem Reachable.lookup (h : c.Reachable) (op : Operation κ α)
    {x : Action (Cache κ α) (Outcome (Option α) α)}
    (hperform : perform op = Outcome.map .value <$> x)
    (hstep : ∀ m : CacheModel κ α, m.step op =
      { outcome := { result := .value (m.value? key) }
        raised := (m.hit key).1
        next := (m.hit key).2.write key f }) :
    (∃ c', x c = .ok { result := c.peek key } c' ∧ c.LooksUp c' key f) ∨
      ∃ c', x c = .error .additionOverflow c' ∧ c.counted .requests + 1 = UInt64.size := by
  obtain ⟨m, hm⟩ := h.shows
  have hraised : (m.step op).raised = (m.hit key).1 := by rw [hstep]
  rw [hm.peek_eq]
  rcases hm.act op hperform (congrArg CacheModel.Step.outcome (hstep m)) with
    ⟨c', hx, hc⟩ | ⟨c', hx, hover⟩
  · have hlooks := hm.looksUp h (congrArg Prod.fst hc) hraised (by rw [hstep])
    rw [hc] at hlooks
    exact .inl ⟨c', hx, hlooks⟩
  · refine .inr ⟨c', hx, h.requests_full hm hover fun counter hmem => ?_⟩
    rw [hraised]
    apply CacheModel.count_hit_of_changes hm.sound key
    cases counter <;> simp at hmem ⊢

/-- A get is a lookup that changes nothing. -/
theorem Reachable.get (h : c.Reachable) (key : κ) :
    (∃ c', Cache.get key c = .ok { result := c.peek key } c' ∧ c.LooksUp c' key id) ∨
      ∃ c', Cache.get key c = .error .additionOverflow c' ∧
        c.counted .requests + 1 = UInt64.size := by
  refine h.lookup (.get key) rfl fun m => ?_
  rw [CacheModel.write_id]
  rfl

/-- An update is a lookup that changes what it finds. -/
theorem Reachable.update (h : c.Reachable) (key : κ) (f : α → α) :
    (∃ c', Cache.update key f c = .ok { result := c.peek key } c' ∧ c.LooksUp c' key f) ∨
      ∃ c', Cache.update key f c = .error .additionOverflow c' ∧
        c.counted .requests + 1 = UInt64.size :=
  h.lookup (.update key f) rfl fun _ => rfl

end Cache

end CachePool
