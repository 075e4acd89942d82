import CachePool.Cache.Referent
import CachePool.Proofs.Cache.Lookups

/-!
# Values that are gone

A live lookup of a key that is absent, or whose value is alive, is a get: the two end
alike, in the same state. A value that is gone is taken out as by a removal, and the
states after the two differ in what they count only: a live lookup counts a request and
an expiry. So a live lookup drops no entry whose value is alive.
-/

namespace CachePool

open Metrics

namespace CacheModel

variable {κ α : Type} [DecidableEq κ] {items : List (Item κ α)}

/-- A key that occurs once is taken out by a filter. -/
theorem without_eq_filter (h : (keys items).Nodup) (key : κ) :
    without items key = items.filter fun i => i.key ≠ key := by
  induction items with
  | nil => rfl
  | cons i items ih =>
    obtain ⟨hnot, hnodup⟩ := List.nodup_cons.mp h
    by_cases hi : i.key = key
    · rw [without, List.eraseP_cons_of_pos (by simpa using hi),
        List.filter_cons_of_neg (by simpa using hi), List.filter_eq_self.mpr]
      intro j hj
      have hout : i.key ∉ keys items := hnot
      exact decide_eq_true fun hjk => hout (hi.trans hjk.symm ▸ mem_keys_of_mem hj)
    · rw [without, List.eraseP_cons_of_neg (by simpa using hi),
        List.filter_cons_of_pos (by simpa using hi), ← ih hnodup, without]

/-- A live lookup takes out a key whose value is gone. -/
theorem getLive_gone {m : CacheModel κ α} {key : κ} {value : α} {alive : α → Bool}
    (h : m.value? key = some value) (hgone : alive value = false) :
    m.getLive key alive =
      { outcome := { result := .value none, freed := [value] }
        raised := [.requests, .expired]
        next := m.erase key } := by
  simp only [getLive, h, hgone, Bool.false_eq_true, if_false]

end CacheModel

namespace Cache

variable {κ α ρ : Type} [DecidableEq κ] {c c' after removed : Cache κ α} {m : CacheModel κ α}
  {key : κ} {value : α} {n : NodeId} {e : Entry κ α} {alive : α → Bool}

omit [DecidableEq κ] in
theorem entry_known (he : c.entries.get n = some e) : entry n c = .ok e c := by
  rw [entry, he]

theorem seek_known (hn : c.node? key = some n) : seek key c = .ok (some n) c := by
  rw [seek, Action.get_bind, hn]
  rfl

theorem seek_bind_absent (hn : c.node? key = none) (f : Option NodeId → Action (Cache κ α) ρ) :
    (seek key >>= f) c = (tally CacheMetrics.countMiss >>= fun _ => f none) c := by
  have hseek : seek key c = (tally CacheMetrics.countMiss >>= fun _ => pure none) c := by
    rw [seek, Action.get_bind, hn]
  cases hmiss : (tally CacheMetrics.countMiss : Action (Cache κ α) Unit) c with
  | ok a t =>
    rw [Action.bind_ok hmiss] at hseek ⊢
    exact Action.bind_ok hseek
  | error fault t =>
    rw [Action.bind_error hmiss] at hseek ⊢
    exact Action.bind_error hseek

/-- A live lookup is a get, unless it finds a value that is gone. -/
theorem Reachable.getLive_eq_get (h : c.Reachable) (key : κ)
    (halive : ∀ value, c.peek key = some value → alive value = true) :
    getLive key alive c = Cache.get key c := by
  obtain ⟨s, hc, hs⟩ := h.settled
  rw [getLive, Cache.get]
  rcases s.exists_node_or_not_mem key with ⟨n, hn, e, he, rfl⟩ | hkey
  · have hnode := hs.node?_eq_some hn he hc
    have hentry : c.entries.get n = some e := by rw [hc.entries, he]
    have hlive : alive e.value = true := by
      apply halive
      rw [hs.peek_eq hc, hs.value?_eq hn he]
    rw [Action.bind_ok (seek_known hnode), Action.bind_ok (seek_known hnode)]
    simp only [Action.bind_ok (entry_known hentry), hlive, if_true]
    -- The get reads the value after the hit, the live lookup before it.
    apply Action.bind_congr
    intro freed c' hhit
    obtain ⟨s', e', hcarries, -, -, he', -, hvalue⟩ := Sketch.carries_hit hs hn he
    have hfits : s'.Fits := by
      by_contra hfits
      obtain ⟨c'', hover⟩ := hcarries.overflow hfits c hc
      rw [hover] at hhit
      cases hhit
    obtain ⟨c'', hok, hc''⟩ := hcarries.ok hfits c hc
    rw [hok] at hhit
    cases hhit
    rw [Action.bind_ok (entry_known (hc''.entries ▸ he')), hvalue]
  · have hnode := hs.node?_eq_none hkey hc
    rw [seek_bind_absent hnode, seek_bind_absent hnode]

/-- The action answers as described, or it stops because the counter is full. -/
def AnswersUnlessFull (c : Cache κ α) (counter : Counter) (x : Action (Cache κ α) ρ)
    (P : ρ → Cache κ α → Prop) : Prop :=
  (∃ a c', x c = .ok a c' ∧ P a c') ∨
    ∃ c', x c = .error .additionOverflow c' ∧ c.counted counter + 1 = UInt64.size

omit [DecidableEq κ] in
theorem AnswersUnlessFull.mono {counter : Counter} {x : Action (Cache κ α) ρ}
    {P Q : ρ → Cache κ α → Prop} (h : c.AnswersUnlessFull counter x P)
    (hle : ∀ a after, P a after → Q a after) : c.AnswersUnlessFull counter x Q := by
  rcases h with ⟨a, after, hx, hP⟩ | hfull
  · exact .inl ⟨a, after, hx, hle a after hP⟩
  · exact .inr hfull

/-- A live lookup that finds no value gone answers what its key had, and changes no value. -/
theorem Reachable.getLive_alive (h : c.Reachable) (key : κ)
    (halive : ∀ value, c.peek key = some value → alive value = true) :
    c.AnswersUnlessFull .requests (getLive key alive) fun o after =>
      o = { result := c.peek key } ∧ c.LooksUp after key id := by
  rw [AnswersUnlessFull, h.getLive_eq_get key halive]
  rcases h.get key with ⟨c', hget, hlooks⟩ | hfull
  · exact .inl ⟨_, c', hget, rfl, hlooks⟩
  · exact .inr hfull

/-- What is done after a node was taken out: an event is counted, and the gauges are brought up to
date. -/
def conclude (event : Action CacheMetrics Unit) (a : ρ) : Action (Cache κ α) ρ := do
  tally event
  gaugeSizes
  return a

omit [DecidableEq κ] in
/-- Nothing but the metrics changes at the end. -/
theorem eq_of_conclude {event : Action CacheMetrics Unit} {a b : ρ}
    (h : conclude event a c = .ok b after) : after = { c with metrics := after.metrics } := by
  cases hevent : event c.metrics with
  | ok u metrics =>
    have htally : tally event c = .ok u { c with metrics } := Action.within_ok hevent
    rw [conclude, Action.bind_ok htally] at h
    cases h
    rfl
  | error fault metrics =>
    have htally : tally event c = .error fault { c with metrics } := Action.within_error hevent
    rw [conclude, Action.bind_error htally] at h
    cases h

/-- A removal counts one after its node was taken out. -/
theorem remove_eq_conclude (hn : c.node? key = some n) (hextract : extract n c = .ok e c') :
    remove key c = conclude (CacheMetrics.bump .removals) { result := some e.value } c' := by
  rw [remove, Action.get_bind, hn]
  exact Action.bind_ok hextract

/-- A live lookup of a value that is gone counts a miss and an expiry after its node was taken
out. -/
theorem getLive_eq_conclude (hn : c.node? key = some n) (he : c.entries.get n = some e)
    (hgone : alive e.value = false) (hextract : extract n c = .ok e c') :
    getLive key alive c =
      conclude (CacheMetrics.countMiss >>= fun _ => CacheMetrics.bump .expired)
        { result := none, freed := [e.value] } c' := by
  rw [getLive, Action.bind_ok (seek_known hn)]
  simp only [Action.bind_ok (entry_known he), hgone, Bool.false_eq_true, if_false,
    Action.bind_ok hextract, conclude, Sketch.tally_bind, bind_assoc]

/-- A removal and a live lookup that finds the value of its key gone end in states that differ in
their metrics only. -/
theorem Reachable.removes_alike (h : c.Reachable) (hpeek : c.peek key = some value)
    (hgone : alive value = false) {o o' : Outcome (Option α) α}
    (hlive : getLive key alive c = .ok o after) (hremove : remove key c = .ok o' removed) :
    after = { removed with metrics := after.metrics } := by
  obtain ⟨s, hc, hs⟩ := h.settled
  rcases s.exists_node_or_not_mem key with ⟨n, hn, e, he, rfl⟩ | hkey
  · have hnode := hs.node?_eq_some hn he hc
    rw [hs.peek_eq hc, hs.value?_eq hn he] at hpeek
    obtain rfl := Option.some.inj hpeek
    obtain ⟨order, ho, -⟩ := hs.indexed
    obtain ⟨c', hextract, -⟩ := (hs.carries_extract hn he ho).ok hc.fits c hc
    rw [getLive_eq_conclude hnode (hc.entries ▸ he) hgone hextract] at hlive
    rw [remove_eq_conclude hnode hextract] at hremove
    refine (eq_of_conclude hlive).trans ?_
    rw [eq_of_conclude hremove]
  · rw [hs.peek_eq hc, CacheModel.value?_eq_none_iff.mpr hkey] at hpeek
    cases hpeek

omit [DecidableEq κ] in
/-- Caches with the same generations have the same gauges while no operation is under way. -/
theorem Shows.gauge_eq {m' : CacheModel κ α} (h : c.Shows m) (h' : c'.Shows m')
    (hyoung : c.young = c'.young) (hold : c.old = c'.old) {counter : Counter}
    (hgauge : counter.grows = false) : c.counted counter = c'.counted counter := by
  cases counter with
  | youngSize => exact h.youngSize.trans (hyoung ▸ h'.youngSize.symm)
  | oldSize => exact h.oldSize.trans (hold ▸ h'.oldSize.symm)
  | oldCapacity => exact h.oldSlots.trans (hold ▸ h'.oldSlots.symm)
  | _ => cases hgauge

/-- The second cache is the first one after a live lookup that found the value of its key gone. -/
structure Expires (c after : Cache κ α) (key : κ) (value : α) : Prop where
  reachable : after.Reachable
  /-- The key is dropped, and no other value changes. -/
  peek : ∀ k, after.peek k = if k = key then none else c.peek k
  /-- The other keys keep their generations, their order and their hits. -/
  contents : ∀ g, (after.contents g).map Entry.item =
    ((c.contents g).map Entry.item).filter fun i => i.key ≠ key
  /-- A request and an expiry are counted, and nothing else. -/
  counted : ∀ counter : Counter, counter.grows →
    after.counted counter = c.counted counter + [.requests, .expired].count counter
  youngSize : after.counted .youngSize = after.young.length
  oldSize : after.counted .oldSize = after.old.length
  /-- A removal ends in the same state, up to the counters of requests, expiries and removals. -/
  removal : c.AnswersUnlessFull .removals (remove key) fun o removed =>
    o = { result := some value } ∧ after = { removed with metrics := after.metrics } ∧
      removed.counted .removals = c.counted .removals + 1 ∧
      ∀ counter : Counter, counter ∉ [.requests, .expired, .removals] →
        after.counted counter = removed.counted counter

/-- The removal of a key that is cached answers its value, unless the removals are full. -/
theorem Reachable.remove_cached (h : c.Reachable) (hpeek : c.peek key = some value) :
    c.AnswersUnlessFull .removals (remove key) fun o removed =>
      o = { result := some value } ∧ (∃ m', removed.Shows m') ∧
        ∀ counter : Counter, counter.grows →
          removed.counted counter = c.counted counter + [.removals].count counter := by
  obtain ⟨m, hm⟩ := h.shows
  have hremove : m.step (.remove key) = _ :=
    CacheModel.remove_known ((hm.peek_eq key).symm.trans hpeek)
  rcases hm.act (.remove key) rfl (congrArg CacheModel.Step.outcome hremove) with
    ⟨removed, hx, hc⟩ | ⟨c', hx, hover⟩
  · obtain ⟨-, hshows, hcounts⟩ := hm.step (congrArg Prod.fst hc)
    rw [hc] at hshows hcounts
    rw [hremove] at hcounts
    exact .inl ⟨_, removed, hx, rfl, ⟨_, hshows⟩, hcounts⟩
  · obtain ⟨counter, -, hone, hfull⟩ := hm.full_of_overflows hover
    rw [hremove] at hone
    obtain rfl : Counter.removals = counter := by simpa [List.count_singleton] using hone
    exact .inr ⟨c', hx, hfull⟩

/-- A live lookup that finds the value of its key gone drops it as a removal does. -/
theorem Reachable.expires (h : c.Reachable) (hpeek : c.peek key = some value)
    (hgone : alive value = false) :
    c.AnswersUnlessFull .requests (getLive key alive) fun o after =>
      o = { result := none, freed := [value] } ∧ c.Expires after key value := by
  obtain ⟨m, hm⟩ := h.shows
  have hvalue := (hm.peek_eq key).symm.trans hpeek
  have hlive : m.step (.getLive key alive) = _ := CacheModel.getLive_gone hvalue hgone
  rcases hm.act (.getLive key alive) rfl (congrArg CacheModel.Step.outcome hlive) with
    ⟨after, hx, hc⟩ | ⟨c', hx, hover⟩
  · have ho := congrArg Prod.fst hc
    have hreachable := h.step ho
    obtain ⟨-, hshows, hcounts⟩ := hm.step ho
    rw [hc] at hreachable hshows hcounts
    rw [hlive] at hshows hcounts
    refine .inl ⟨_, after, hx, rfl, ?_⟩
    constructor
    case reachable => exact hreachable
    case peek =>
      intro k
      rw [hshows.peek_eq, hm.peek_eq, CacheModel.value?_erase hm.sound hvalue]
    case contents =>
      have hnodup := hm.sound.distinct
      rw [CacheModel.keys_append, List.nodup_append] at hnodup
      rintro (_ | _)
      · rw [hshows.young_eq, hm.young_eq]
        exact CacheModel.without_eq_filter hnodup.1 key
      · rw [hshows.old_eq, hm.old_eq]
        exact CacheModel.without_eq_filter hnodup.2.1 key
    case counted => exact hcounts
    case youngSize => exact hshows.youngSize
    case oldSize => exact hshows.oldSize
    case removal =>
      rcases h.remove_cached hpeek with ⟨o, removed, hx', ho', ⟨m', hshows'⟩, hcounts'⟩ | hfull
      · have halike := h.removes_alike hpeek hgone hx hx'
        have hyoung : after.young = removed.young := by rw [halike]
        have hold : after.old = removed.old := by rw [halike]
        refine .inl ⟨o, removed, hx', ho', halike, hcounts' .removals rfl, fun counter hnot => ?_⟩
        cases hgrows : counter.grows with
        | true =>
          obtain ⟨hrequest, hexpiry, hremoval⟩ :
              counter ≠ .requests ∧ counter ≠ .expired ∧ counter ≠ .removals := by
            simpa using hnot
          have hraised : counter ∉ [Counter.requests, .expired] := by simp [hrequest, hexpiry]
          have hremovals : counter ∉ [Counter.removals] := by simp [hremoval]
          rw [hcounts' counter hgrows, List.count_eq_zero.mpr hremovals, Cache.counted,
            hcounts counter hgrows, List.count_eq_zero.mpr hraised]
          rfl
        | false => exact hshows.gauge_eq hshows' hyoung hold hgrows
      · exact .inr hfull
  · refine .inr ⟨c', hx, h.requests_full hm hover fun counter hmem => ?_⟩
    rw [hlive]
    cases counter <;> simp at hmem ⊢

/-- A live lookup drops no entry whose value is alive. -/
theorem Reachable.getLive_keeps (h : c.Reachable) {o : Outcome (Option α) α} {other : κ}
    (hlookup : getLive key alive c = .ok o after) (hpeek : c.peek other = some value)
    (halive : alive value = true) : after.peek other = some value := by
  by_cases hkey : ∀ value, c.peek key = some value → alive value = true
  · rcases h.getLive_alive key hkey with ⟨o', after', hx, -, hlooks⟩ | ⟨after', hx, -⟩
    · rw [hx] at hlookup
      cases hlookup
      rw [hlooks.peek, Option.map_id, id_eq, ite_self, hpeek]
    · rw [hx] at hlookup
      cases hlookup
  · push Not at hkey
    obtain ⟨gone, hgone, hdead⟩ := hkey
    have hne : other ≠ key := by
      rintro rfl
      obtain rfl := Option.some.inj (hgone.symm.trans hpeek)
      exact hdead halive
    rcases h.expires hgone (eq_false_of_ne_true hdead) with
      ⟨o', after', hx, -, hexpires⟩ | ⟨after', hx, -⟩
    · rw [hx] at hlookup
      cases hlookup
      rw [hexpires.peek, if_neg hne, hpeek]
    · rw [hx] at hlookup
      cases hlookup

/-- A live lookup of a cache of weak references agrees with a get, unless it finds that the referent
of its key is gone. Then it agrees with a removal, up to what the two count. In no case does it drop
an entry whose referent is alive. -/
theorem getLive_agrees {ν : Type} (c : Cache κ WeakRef) (hreachable : c.Reachable)
    (r : Referents ν) (key : κ) :
    let lookup := getLive key fun w => (r.upgrade w).isSome
    (c.peek key = none → lookup c = get key c ∧
      c.AnswersUnlessFull .requests lookup fun o after =>
        o = { result := none } ∧ c.LooksUp after key id) ∧
    (∀ w value, c.peek key = some w → r.upgrade w = some value → lookup c = get key c ∧
      c.AnswersUnlessFull .requests lookup fun o after =>
        o = { result := some w } ∧ o.result.bind r.upgrade = some value ∧
          c.LooksUp after key id) ∧
    (∀ w, c.peek key = some w → r.upgrade w = none →
      c.AnswersUnlessFull .requests lookup fun o after =>
        o = { result := none, freed := [w] } ∧ c.Expires after key w) ∧
    ∀ o after, lookup c = .ok o after → ∀ other w, c.peek other = some w →
      r.upgrade w ≠ none → after.peek other = some w := by
  intro lookup
  refine ⟨fun hpeek => ?_, fun w value hpeek hw => ?_, fun w hpeek hw => ?_, ?_⟩
  · have halive : ∀ w, c.peek key = some w → (r.upgrade w).isSome = true := by
      simp [hpeek]
    have hanswers := hreachable.getLive_alive key halive
    rw [hpeek] at hanswers
    exact ⟨hreachable.getLive_eq_get key halive, hanswers⟩
  · have halive : ∀ w, c.peek key = some w → (r.upgrade w).isSome = true := by
      simp [hpeek, hw]
    have hanswers := hreachable.getLive_alive key halive
    rw [hpeek] at hanswers
    refine ⟨hreachable.getLive_eq_get key halive, hanswers.mono ?_⟩
    rintro _ after ⟨rfl, hlooks⟩
    exact ⟨rfl, hw, hlooks⟩
  · exact hreachable.expires hpeek (by rw [hw]; rfl)
  · intro o after hlookup other w hpeek hw
    exact hreachable.getLive_keeps hlookup hpeek (Option.isSome_iff_ne_none.mpr hw)

/-- A cache of five slots that holds references to the referents 0 in old and 1 in young. -/
def weakSlots : Cache Nat WeakRef :=
  ((ofConfig { capacity := ⟨5, by decide, by decide⟩, promotionThreshold := 1 }
    (Hasher.constant 0)).run [.put 1 (some 0), .get 1, .put 2 (some 1)]).2

/-- Of two referents the first one alone has an owner: its entry is found, the other one expires. -/
theorem getLive_agrees_weakSlots :
    let r : Referents Nat := { owners := [⟨"a", 0, 7⟩], unused := 2 }
    let lookup := fun key => getLive key fun w => (r.upgrade w).isSome
    weakSlots.Reachable ∧ lookup 1 weakSlots = get 1 weakSlots ∧
      ∃ after, lookup 2 weakSlots = .ok { result := none, freed := [some 1] } after ∧
        weakSlots.Expires after 2 (some 1) := by
  intro r lookup
  have hreachable : weakSlots.Reachable :=
    ⟨_, _, _, answers_of_length _ _ _ (by decide), rfl⟩
  have hroom : weakSlots.counted .requests + 1 ≠ UInt64.size := by decide +kernel
  obtain ⟨-, halive, -, -⟩ := getLive_agrees weakSlots hreachable r 1
  obtain ⟨-, -, hgone, -⟩ := getLive_agrees weakSlots hreachable r 2
  refine ⟨hreachable, (halive (some 0) 7 (by decide +kernel) rfl).1, ?_⟩
  rcases hgone (some 1) (by decide +kernel) rfl with ⟨_, after, hx, rfl, hexpires⟩ | ⟨_, -, hfull⟩
  · exact ⟨after, hx, hexpires⟩
  · exact absurd hfull hroom

end Cache

end CachePool
