import CachePool.Proofs.Cache.Portrait
import Mathlib.Data.List.Induction

/-!
# Transfers between the generations along sketches

The transfers of a cache are composed of its steps, and so are their sketches. A
node that is promoted makes room in young, so that the node which is demoted for it
never pushes a third one out of the cache. A cache that is emptied frees its nodes
while the index still names them; the sketch has no index until that is cleared.
-/

namespace CachePool

open Metrics

namespace Sketch

variable {κ α : Type} {s s' : Sketch κ α} {n o : NodeId} {d e : Entry κ α} {g : Generation}
  {ns order : List NodeId}

namespace Carries

variable {ρ : Type} {a : ρ} {y : Action (Cache κ α) ρ} {f : Cache κ α → Action (Cache κ α) ρ}

/-- An action that first reads the cache, and does the same on every cache of the sketch. -/
theorem read (hf : ∀ c, s.Depicts c → f c = y) (h : Carries y s a s') :
    Carries (MonadState.get >>= f) s a s' where
  le := h.le
  ok := by
    intro hfits c hc
    rw [Action.get_bind, hf c hc]
    exact h.ok hfits c hc
  overflow := by
    intro hfits c hc
    rw [Action.get_bind, hf c hc]
    exact h.overflow hfits c hc

end Carries

/-- An evicted node is struck from the index and freed, and counted. -/
theorem carries_evict (ho : s.order = some order) (hn : n ∈ order) (hnodup : order.Nodup)
    (hloose : s.Loose n) (he : s.entries n = some e) :
    Carries (Cache.evict n) s e.value
      (({ s with order := some (order.erase n) }.write n none).raise [.evictions]) := by
  have hfree : Carries (Cache.free n) { s with order := some (order.erase n) } e
      ({ s with order := some (order.erase n) }.write n none) := by
    refine carries_free he hloose ?_
    rintro order' ho'
    obtain rfl : order.erase n = order' := Option.some.inj ho'
    exact hnodup.not_mem_erase
  exact (carries_strike ho hn).bind (hfree.bind ((carries_bump _ rfl).bind (.pure _ _)))

/-- A young generation with room takes a node and frees nothing. -/
theorem carries_enterYoung_room (hloose : s.Loose n) (he : s.entries n = some e)
    (hroom : s.young.length < s.slots .young) :
    Carries (Cache.enterYoung n) s [] (s.withSide .young (n :: s.young)) :=
  (carries_enlist_room (g := .young) hloose he hroom).bind (.pure _ _)

/-- A full young generation takes a node and frees its last one. -/
theorem carries_enterYoung_full (hloose : s.Loose n) (he : s.entries n = some e)
    (hs : s.young = ns ++ [o]) (hfull : s.slots .young ≤ s.young.length)
    (ho : s.order = some order) (hmem : o ∈ order) (hnodup : order.Nodup)
    (hout : o ∉ n :: ns) (hold : o ∉ s.old) (hd : s.entries o = some d) :
    Carries (Cache.enterYoung n) s [d.value]
      (({ s.withSide .young (n :: ns) with order := some (order.erase o) }.write o none).raise
        [.evictions]) := by
  have hevict : Carries (Cache.evict o) (s.withSide .young (n :: ns)) d.value _ :=
    carries_evict ho hmem hnodup ⟨hout, hold⟩ hd
  exact (carries_enlist_full (g := .young) hloose he hs hfull).bind (hevict.bind (.pure _ _))

/-- The sketch of a promoted node before it enters old. -/
def lifted (s : Sketch κ α) (n : NodeId) (e : Entry κ α) : Sketch κ α :=
  ((s.withSide .young (s.young.erase n)).write n (some (e.enter .old))).raise [.promotions]

/-- A node that left young is in no generation. -/
theorem loose_lifted (hnodup : (s.young ++ s.old).Nodup) (hn : n ∈ s.young) (e : Entry κ α) :
    (s.lifted n e).Loose n := by
  obtain ⟨hyoung, -, hdisjoint⟩ := List.nodup_append.mp hnodup
  exact ⟨hyoung.not_mem_erase, fun hold => hdisjoint n hn n hold rfl⟩

/-- A promotion into an old generation with room moves its node there. -/
theorem carries_promote_room (hnodup : (s.young ++ s.old).Nodup) (hn : n ∈ s.young)
    (he : s.entries n = some e) (hroom : s.old.length < s.slots .old) :
    Carries (Cache.promote n) s [] ((s.lifted n e).withSide .old (n :: s.old)).gauge := by
  have he' : (s.withSide .young (s.young.erase n)).entries n = some e := he
  have hstore : Carries (Cache.store n (e.enter .old)) _ () _ := carries_store he' rfl rfl
  have henlist : Carries (Cache.enlist .old n) (s.lifted n e) none _ :=
    carries_enlist_room (loose_lifted hnodup hn e) (if_pos rfl) hroom
  refine (carries_delist (g := .young) hn).bind ((carries_entry he').bind (hstore.bind ?_))
  refine (carries_bump _ rfl).bind (henlist.bind ?_)
  exact (Carries.pure _ _).bind ((carries_gauge _).bind (.pure _ _))

/-- A demotion into a young generation with room moves its node there. -/
theorem carries_demote (hloose : s.Loose o) (hd : s.entries o = some d)
    (hroom : s.young.length < s.slots .young) :
    Carries (Cache.demote o) s []
      (((s.write o (some (d.enter .young))).raise [.demotions]).withSide .young
        (o :: s.young)) := by
  have henter : Carries (Cache.enterYoung o)
      ((s.write o (some (d.enter .young))).raise [.demotions]) [] _ :=
    carries_enterYoung_room hloose (if_pos rfl) hroom
  have hstore : Carries (Cache.store o (d.enter .young)) s () _ := carries_store hd rfl rfl
  exact (carries_entry hd).bind (hstore.bind ((carries_bump _ rfl).bind henter))

/-- The sketch after a promotion that pushes the last old node back to young. -/
def exchanged (s : Sketch κ α) (n : NodeId) (e : Entry κ α) (o : NodeId) (d : Entry κ α)
    (ns : List NodeId) : Sketch κ α :=
  ((((s.lifted n e).withSide .old (n :: ns)).write o (some (d.enter .young))).raise
    [.demotions]).withSide .young (o :: s.young.erase n)

/-- A promotion into a full old generation exchanges its node for the last old one, and frees
nothing: the promoted node made room in young. -/
theorem carries_promote_full (hnodup : (s.young ++ s.old).Nodup) (hn : n ∈ s.young)
    (he : s.entries n = some e) (hs : s.old = ns ++ [o]) (hd : s.entries o = some d)
    (hfull : s.slots .old ≤ s.old.length) (hroom : s.young.length ≤ s.slots .young) :
    Carries (Cache.promote n) s [] (s.exchanged n e o d ns).gauge := by
  have he' : (s.withSide .young (s.young.erase n)).entries n = some e := he
  have hstore : Carries (Cache.store n (e.enter .old)) _ () _ := carries_store he' rfl rfl
  obtain ⟨-, hold, hdisjoint⟩ := List.nodup_append.mp hnodup
  have homem : o ∈ s.old := by
    rw [hs]
    exact List.mem_append_right _ (List.mem_singleton_self o)
  have hon : o ≠ n := fun hon => hdisjoint n hn o homem hon.symm
  rw [hs] at hold
  have hns : o ∉ ns := fun hmem =>
    (List.nodup_append.mp hold).2.2 o hmem o (List.mem_singleton_self o) rfl
  have henlist : Carries (Cache.enlist .old n) (s.lifted n e) (some o) _ :=
    carries_enlist_full (loose_lifted hnodup hn e) (if_pos rfl) hs hfull
  have hloose : ((s.lifted n e).withSide .old (n :: ns)).Loose o := by
    refine ⟨fun hyoung => hdisjoint o (List.mem_of_mem_erase hyoung) o homem rfl, ?_⟩
    exact List.not_mem_cons_of_ne_of_not_mem hon hns
  have hlength : (s.young.erase n).length < s.slots .young := by
    have hpos := List.length_pos_of_mem hn
    rw [List.length_erase_of_mem hn]
    omega
  have hdemote : Carries (Cache.demote o) ((s.lifted n e).withSide .old (n :: ns)) [] _ :=
    carries_demote hloose ((if_neg hon).trans hd) hlength
  refine (carries_delist (g := .young) hn).bind ((carries_entry he').bind (hstore.bind ?_))
  refine (carries_bump _ rfl).bind (henlist.bind ?_)
  exact hdemote.bind ((carries_gauge _).bind (.pure _ _))

/-- The sketch in which a hit was counted, on an entry and by the counters. -/
def counted (s : Sketch κ α) (n : NodeId) (e : Entry κ α) (raised : List Counter) : Sketch κ α :=
  (s.write n (some e.countHit)).raise raised

/-- A young hit that does not reach the threshold brings its node to the front. -/
theorem carries_hit_young (hn : n ∈ s.young) (he : s.entries n = some e)
    (hyoung : e.generation = .young) (hlt : ¬ s.config.promotionThreshold ≤ e.countHit.hits) :
    Carries (Cache.hit n) s []
      ((s.counted n e [.requests, .cacheHits, .youngHits]).withSide .young
        (n :: s.young.erase n)) := by
  have hstore : Carries (Cache.store n e.countHit) s () _ := carries_store he rfl rfl
  have hgeneration : e.countHit.generation = .young := hyoung
  refine (carries_entry he).bind (hstore.bind ?_)
  rw [hgeneration]
  refine (carries_countYoungHit _).bind (.read (fun c hc => if_neg ?_) ?_)
  · rw [hc.config]
    exact hlt
  · have hrefresh : Carries (Cache.refresh .young n)
        (s.counted n e [.requests, .cacheHits, .youngHits]) () _ := carries_refresh hn
    exact hrefresh.bind (.pure _ _)

/-- A young hit that reaches the threshold promotes its node. -/
theorem carries_hit_ripe (he : s.entries n = some e) (hyoung : e.generation = .young)
    (hle : s.config.promotionThreshold ≤ e.countHit.hits)
    (hpromote : Carries (Cache.promote n)
      (s.counted n e [.requests, .cacheHits, .youngHits]) [] s') :
    Carries (Cache.hit n) s [] s' := by
  have hstore : Carries (Cache.store n e.countHit) s () _ := carries_store he rfl rfl
  have hgeneration : e.countHit.generation = .young := hyoung
  refine (carries_entry he).bind (hstore.bind ?_)
  rw [hgeneration]
  refine (carries_countYoungHit _).bind (.read (fun c hc => if_pos ?_) hpromote)
  rw [hc.config]
  exact hle

/-- An old hit brings its node to the front. -/
theorem carries_hit_old (hn : n ∈ s.old) (he : s.entries n = some e)
    (hold : e.generation = .old) :
    Carries (Cache.hit n) s []
      ((s.counted n e [.requests, .cacheHits, .oldHits]).withSide .old
        (n :: s.old.erase n)) := by
  have hstore : Carries (Cache.store n e.countHit) s () _ := carries_store he rfl rfl
  have hgeneration : e.countHit.generation = .old := hold
  have hrefresh : Carries (Cache.refresh .old n)
      (s.counted n e [.requests, .cacheHits, .oldHits]) () _ := carries_refresh hn
  refine (carries_entry he).bind (hstore.bind ?_)
  rw [hgeneration]
  exact (carries_countOldHit _).bind (hrefresh.bind (.pure _ _))

/-- The sketch without a node. -/
def dropped (s : Sketch κ α) (order : List NodeId) (n : NodeId) : Sketch κ α :=
  { s with
    young := s.young.erase n
    old := s.old.erase n
    order := some (order.erase n) }.write n none

/-- An extracted node is struck from the index, taken out of its generation and freed. -/
theorem carries_extract (hs : (s.young ++ s.old).Nodup) (he : s.entries n = some e)
    (hn : n ∈ s.side e.generation) (ho : s.order = some order) (hmem : n ∈ order)
    (hnodup : order.Nodup) :
    Carries (Cache.extract n) s e (s.dropped order n) := by
  obtain ⟨hyoung, hold, hdisjoint⟩ := List.nodup_append.mp hs
  let struck : Sketch κ α := { s with order := some (order.erase n) }
  have hdelist : Carries (Cache.delist e.generation n) struck ()
      { struck with young := s.young.erase n, old := s.old.erase n } := by
    cases hg : e.generation with
    | young =>
      rw [hg] at hn
      rw [List.erase_of_not_mem fun hmo => hdisjoint n hn n hmo rfl]
      exact carries_delist hn
    | old =>
      rw [hg] at hn
      rw [List.erase_of_not_mem fun hmy => hdisjoint n hmy n hn rfl]
      exact carries_delist hn
  have hfree : Carries (Cache.free n)
      { struck with young := s.young.erase n, old := s.old.erase n } e (s.dropped order n) := by
    refine carries_free he ⟨hyoung.not_mem_erase, hold.not_mem_erase⟩ ?_
    rintro order' ho'
    obtain rfl : order.erase n = order' := Option.some.inj ho'
    exact hnodup.not_mem_erase
  have hentry : Carries (Cache.entry n) struck e struck := carries_entry he
  exact (carries_strike ho hmem).bind (hentry.bind (hdelist.bind hfree))

/-- What is known of the index may be forgotten. -/
theorem Depicts.forget {c : Cache κ α} (hc : s.Depicts c) :
    Depicts { s with order := none } c :=
  { hc with index := by rintro order ⟨⟩ }

/-- What an action does without the index, it does with it. -/
theorem Carries.forget {ρ : Type} {x : Action (Cache κ α) ρ} {a : ρ}
    (h : Carries x { s with order := none } a s') : Carries x s a s' where
  le := h.le
  ok := fun hfits c hc => h.ok hfits c hc.forget
  overflow := fun hfits c hc => h.overflow hfits c hc.forget

/-- The sketch without the nodes of a generation. -/
def emptied (s : Sketch κ α) (g : Generation) : Sketch κ α :=
  { s.withSide g [] with entries := fun m => if m ∈ s.side g then none else s.entries m }

/-- The values of nodes, the last one first. -/
def valuesUp (s : Sketch κ α) (ns : List NodeId) : List α :=
  (ns.reverse.filterMap s.entries).map (·.value)

theorem emptied_of_side_nil (hs : s.side g = []) : s.emptied g = s := by
  rcases s with ⟨config, hasher, young, old, order, entries, unused, counts, youngSize, oldSize⟩
  cases g with
  | young =>
    obtain rfl : young = [] := hs
    simp [emptied, withSide, side]
  | old =>
    obtain rfl : old = [] := hs
    simp [emptied, withSide, side]

theorem side_withSide (s : Sketch κ α) (g : Generation) (ns : List NodeId) :
    (s.withSide g ns).side g = ns := by
  cases g <;> rfl

theorem side_withSide_ne {g' : Generation} (h : g' ≠ g) (s : Sketch κ α) (ns : List NodeId) :
    (s.withSide g ns).side g' = s.side g' := by
  cases g <;> cases g' <;> first | rfl | exact (h rfl).elim

/-- A node is loose if no side has it. -/
theorem loose_of_not_mem_side (h : ∀ g, n ∉ s.side g) : s.Loose n := ⟨h .young, h .old⟩

/-- Values depend on the entries of their own nodes only. -/
theorem valuesUp_congr (h : ∀ m ∈ ns, s'.entries m = s.entries m) :
    s'.valuesUp ns = s.valuesUp ns := by
  rw [valuesUp, valuesUp, List.filterMap_congr fun m hm => h m (List.mem_reverse.mp hm)]

/-- A generation is freed from its last node on. -/
theorem carries_freeGeneration (ho : s.order = none) (hside : s.side g = ns) (hnodup : ns.Nodup)
    (hother : ∀ g', g' ≠ g → ∀ m ∈ ns, m ∉ s.side g')
    (hfilled : ∀ m ∈ ns, ∃ e, s.entries m = some e) :
    Carries (Cache.freeGeneration g ns.length) s (s.valuesUp ns) (s.emptied g) := by
  induction ns using List.reverseRecOn generalizing s with
  | nil =>
    rw [emptied_of_side_nil hside]
    exact .pure _ _
  | append_singleton ns n ih =>
    obtain ⟨hns, -, hdisjoint⟩ := List.nodup_append.mp hnodup
    have hlast : n ∈ ns ++ [n] := List.mem_append_right ns (List.mem_singleton_self n)
    have hmem : ∀ m ∈ ns, m ∈ ns ++ [n] := fun m hm => List.mem_append_left [n] hm
    have hnot : n ∉ ns := fun h => hdisjoint n h n (List.mem_singleton_self n) rfl
    obtain ⟨e, he⟩ := hfilled n hlast
    have hentries : (s.withSide g ns).entries = s.entries := by
      cases g <;> rfl
    let rest := (s.withSide g ns).write n none
    have helse : ∀ m ∈ ns, rest.entries m = s.entries m := fun m hm =>
      (if_neg (ne_of_mem_of_not_mem hm hnot)).trans (congrFun hentries m)
    have hfree : Carries (Cache.free n) (s.withSide g ns) e rest := by
      refine carries_free (hentries ▸ he) (loose_of_not_mem_side fun g' => ?_) ?_
      · by_cases hg : g' = g
        · rwa [hg, side_withSide]
        · rw [side_withSide_ne hg]
          exact hother g' hg n hlast
      · rw [withSide_order, ho]
        rintro order ⟨⟩
    have hrest : Carries (Cache.freeGeneration g ns.length) rest (rest.valuesUp ns)
        (rest.emptied g) := by
      have hsides : rest.side = (s.withSide g ns).side := by
        funext g'
        cases g' <;> rfl
      refine ih ?_ ?_ hns ?_ fun m hm => ?_
      · rw [write_order, withSide_order, ho]
      · rw [hsides, side_withSide]
      · intro g' hg m hm
        rw [hsides, side_withSide_ne hg]
        exact hother g' hg m (hmem m hm)
      · rw [helse m hm]
        exact hfilled m (hmem m hm)
    have hvalues : e.value :: rest.valuesUp ns = s.valuesUp (ns ++ [n]) := by
      rw [valuesUp_congr helse, valuesUp, valuesUp, List.reverse_concat, List.filterMap_cons, he]
      rfl
    have hemptied : rest.emptied g = s.emptied g := by
      have hfreed : (fun m => if m ∈ ns then none else if m = n then none else s.entries m) =
          fun m => if m ∈ s.side g then none else s.entries m := by
        funext m
        rw [hside]
        by_cases hm : m ∈ ns <;> by_cases hmn : m = n <;> simp [hm, hmn]
      cases g with
      | young =>
        exact congrArg (fun f => ({ s with young := [], entries := f } : Sketch κ α)) hfreed
      | old =>
        exact congrArg (fun f => ({ s with old := [], entries := f } : Sketch κ α)) hfreed
    rw [List.length_append, List.length_singleton, ← hemptied, ← hvalues]
    exact (carries_popLeast hside).bind (hfree.bind (hrest.bind (.pure _ _)))

/-- A cache is freed young before old, each from its last node on. -/
theorem carries_freeContents (hnodup : (s.young ++ s.old).Nodup)
    (hfilled : ∀ m ∈ s.young ++ s.old, ∃ e, s.entries m = some e) :
    Carries Cache.freeContents s (s.valuesUp s.young ++ s.valuesUp s.old)
      ((Sketch.emptied { s with order := none } .young).emptied .old) := by
  obtain ⟨hyoung, hold, hdisjoint⟩ := List.nodup_append.mp hnodup
  let bare : Sketch κ α := { s with order := none }
  have hfirst : Carries (Cache.freeGeneration .young s.young.length) bare (s.valuesUp s.young)
      (bare.emptied .young) := by
    refine carries_freeGeneration (s := bare) (g := .young) rfl rfl hyoung ?_ ?_
    · rintro (_ | _) hg m hm hmo
      · exact hg rfl
      · exact hdisjoint m hm m hmo rfl
    · exact fun m hm => hfilled m (List.mem_append_left _ hm)
  have helse : ∀ m ∈ s.old, (bare.emptied .young).entries m = s.entries m := fun m hm =>
    if_neg fun hmy => hdisjoint m hmy m hm rfl
  have hsecond : Carries (Cache.freeGeneration .old s.old.length) (bare.emptied .young)
      (s.valuesUp s.old) ((bare.emptied .young).emptied .old) := by
    rw [← valuesUp_congr helse]
    refine carries_freeGeneration (s := bare.emptied .young) (g := .old) rfl rfl hold ?_ ?_
    · rintro (_ | _) hg m hm hmo
      · cases hmo
      · exact hg rfl
    · intro m hm
      rw [helse m hm]
      exact hfilled m (List.mem_append_right _ hm)
  have hrest : Carries
      (Cache.freeGeneration .old s.old.length >>= fun old => pure (s.valuesUp s.young ++ old))
      (bare.emptied .young) (s.valuesUp s.young ++ s.valuesUp s.old)
      ((bare.emptied .young).emptied .old) := hsecond.bind (.pure _ _)
  refine Carries.forget (.read (fun c hc => by rw [hc.young.length]) (hfirst.bind ?_))
  refine .read (fun c hc => ?_) hrest
  rw [hc.old.length]
  rfl

/-- A cache is cleared: it is freed, its index is emptied, and the gauges are brought up. -/
theorem carries_clear [DecidableEq κ] (hnodup : (s.young ++ s.old).Nodup)
    (hfilled : ∀ m ∈ s.young ++ s.old, ∃ e, s.entries m = some e) :
    Carries Cache.clear s { result := (), freed := s.valuesUp s.young ++ s.valuesUp s.old }
      (Sketch.gauge { (Sketch.emptied { s with order := none } .young).emptied .old with
        order := some [] }) := by
  let bare := (Sketch.emptied { s with order := none } .young).emptied .old
  have hindex : Carries (modify fun c => { c with index := c.index.clear }) bare ()
      { bare with order := some [] } := by
    refine .of_ok rfl fun c hc => ⟨_, rfl, { hc with index := ?_, hasher := hc.hasher }⟩
    rintro order ho
    obtain rfl : [] = order := Option.some.inj ho
    exact KeyIndex.indexes_clear c.index c.chain _
  refine (carries_freeContents hnodup hfilled).bind (hindex.bind ?_)
  exact (carries_gauge _).bind (.pure _ _)

end Sketch

end CachePool
