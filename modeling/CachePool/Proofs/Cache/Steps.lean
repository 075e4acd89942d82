import CachePool.Proofs.Cache.Sketch

/-!
# Sketches along the steps of a cache

Every step on a part of a cache carries a sketch: a counted event raises its
counters, an entry is read, written, made or freed at its node, a node is linked
into a generation or out of it, and indexed or struck from the index. Each lemma
asks for what keeps the drawing whole and says how it changes.
-/

namespace CachePool

open Metrics

namespace CacheMetrics

/-- A counter with room goes up by one. -/
theorem bump_ok {m : CacheMetrics} {counter : Counter}
    (h : (m.get counter).toNat + 1 < UInt64.size) :
    bump counter m = .ok () (m.set (m.get counter + 1) counter) := by
  have hone : (1 : UInt64).toNat = 1 := rfl
  rw [bump, Counter.add, hone, if_pos h]

/-- A counter without room stops at the overflow and stays. -/
theorem bump_error {m : CacheMetrics} {counter : Counter}
    (h : ¬ (m.get counter).toNat + 1 < UInt64.size) :
    bump counter m = .error .additionOverflow m := by
  have hone : (1 : UInt64).toNat = 1 := rfl
  rw [bump, Counter.add, hone, if_neg h]

end CacheMetrics

namespace Sketch

variable {κ α : Type} {s : Sketch κ α} {c : Cache κ α} {n o : NodeId} {e d : Entry κ α}
  {g : Generation} {ns order : List NodeId}

/-- A counted event raises its counter. -/
theorem carries_bump (s : Sketch κ α) {counter : Counter} (hgrows : counter.grows = true) :
    Carries (Cache.tally (CacheMetrics.bump counter)) s () (s.raise [counter]) where
  le := fun _ => Nat.le_add_right _ _
  ok := by
    intro hfits c hc
    have hroom := hfits counter hgrows
    simp only [raise, List.count_singleton_self, ← hc.counts counter hgrows] at hroom
    refine ⟨_, Action.within_ok (CacheMetrics.bump_ok hroom), ?_⟩
    have hset := CacheMetrics.get_set c.metrics (c.metrics.get counter + 1) counter
    have hkeep : ∀ d : Counter, d.grows = false →
        (c.metrics.set (c.metrics.get counter + 1) counter).get d = c.metrics.get d := by
      intro d hd
      rw [hset, if_neg]
      rintro rfl
      rw [hgrows] at hd
      cases hd
    refine { hc with counts := ?_, youngSize := ?_, oldSize := ?_, oldSlots := ?_ }
    · intro d hd
      change ((c.metrics.set _ counter).get d).toNat = s.counts d + [counter].count d
      rw [hset, ← hc.counts d hd]
      by_cases hdc : d = counter
      · subst hdc
        rw [if_pos rfl, UInt64.toNat_add, List.count_singleton_self]
        exact Nat.mod_eq_of_lt hroom
      · rw [if_neg hdc, List.count_singleton, if_neg (by simpa using fun h => hdc h.symm)]
        rfl
    · exact (congrArg UInt64.toNat (hkeep .youngSize rfl)).trans hc.youngSize
    · exact (congrArg UInt64.toNat (hkeep .oldSize rfl)).trans hc.oldSize
    · exact (hkeep .oldCapacity rfl).trans hc.oldSlots
  overflow := by
    intro hfits c hc
    refine ⟨_, Action.within_error (CacheMetrics.bump_error fun hroom => hfits fun d hd => ?_)⟩
    change s.counts d + [counter].count d < _
    by_cases hdc : d = counter
    · subst hdc
      rwa [List.count_singleton_self, ← hc.counts d hd]
    · rw [List.count_singleton, if_neg (by simpa using fun h => hdc h.symm)]
      exact hc.fits d hd

/-- Counting one event after the other. -/
theorem tally_bind (x : Action CacheMetrics Unit) (f : Unit → Action CacheMetrics Unit) :
    (Cache.tally (x >>= f) : Action (Cache κ α) Unit) =
      Cache.tally x >>= fun a => Cache.tally (f a) := by
  refine Action.within_bind ?_ ?_ x f
  · exact fun _ _ => rfl
  · exact fun _ _ _ => rfl

/-- Counters raised one list after the other. -/
theorem raise_raise (s : Sketch κ α) (as bs : List Counter) :
    (s.raise as).raise bs = s.raise (as ++ bs) := by
  simp only [raise, List.count_append, Nat.add_assoc]

/-- A hit raises the requests and the hits. -/
theorem carries_countHit (s : Sketch κ α) :
    Carries (Cache.tally CacheMetrics.countHit) s () (s.raise [.requests, .cacheHits]) := by
  have hsplit := raise_raise s [.requests] [.cacheHits]
  rw [CacheMetrics.countHit, tally_bind, ← show _ = s.raise [.requests, .cacheHits] from hsplit]
  exact (carries_bump s rfl).bind (carries_bump _ rfl)

/-- A young hit raises the young hits as well. -/
theorem carries_countYoungHit (s : Sketch κ α) :
    Carries (Cache.tally CacheMetrics.countYoungHit) s ()
      (s.raise [.requests, .cacheHits, .youngHits]) := by
  have hsplit := raise_raise s [.requests, .cacheHits] [.youngHits]
  rw [CacheMetrics.countYoungHit, tally_bind,
    ← show _ = s.raise [.requests, .cacheHits, .youngHits] from hsplit]
  exact (carries_countHit s).bind (carries_bump _ rfl)

/-- An old hit raises the old hits as well. -/
theorem carries_countOldHit (s : Sketch κ α) :
    Carries (Cache.tally CacheMetrics.countOldHit) s ()
      (s.raise [.requests, .cacheHits, .oldHits]) := by
  have hsplit := raise_raise s [.requests, .cacheHits] [.oldHits]
  rw [CacheMetrics.countOldHit, tally_bind,
    ← show _ = s.raise [.requests, .cacheHits, .oldHits] from hsplit]
  exact (carries_countHit s).bind (carries_bump _ rfl)

/-- The gauges are brought up to the sizes of the generations. -/
theorem carries_gauge (s : Sketch κ α) : Carries Cache.gaugeSizes s () s.gauge := by
  refine .of_ok rfl fun c hc => ⟨_, rfl, ?_⟩
  have hyoung : (UInt64.ofNat c.young.length).toNat = s.young.length := by
    have hlt := c.young.capacity.lt
    have hb := hc.young.bounded
    rw [hc.young.length, UInt64.toNat_ofNat']
    exact Nat.mod_eq_of_lt (by simp only [UInt64.size] at hlt; omega)
  have hold : (UInt64.ofNat c.old.length).toNat = s.old.length := by
    have hlt := c.old.capacity.lt
    have hb := hc.old.bounded
    rw [hc.old.length, UInt64.toNat_ofNat']
    exact Nat.mod_eq_of_lt (by simp only [UInt64.size] at hlt; omega)
  refine { hc with counts := ?_, youngSize := hyoung, oldSize := hold }
  intro counter hgrows
  refine Eq.trans ?_ (hc.counts counter hgrows)
  cases counter <;> first | rfl | cases hgrows

/-- The entry of a node is read. -/
theorem carries_entry (he : s.entries n = some e) : Carries (Cache.entry n) s e s := by
  refine .of_eq fun c hc => ?_
  rw [← hc.entries] at he
  rw [Cache.entry, he]

/-- The entries after one was written are those of the sketch. -/
theorem Depicts.entries_set (hc : s.Depicts c) (n : NodeId) (e : Option (Entry κ α)) :
    (c.entries.set n e).get = (s.write n e).entries := by
  funext m
  rw [Table.get_set, hc.entries]
  rfl

/-- A node gets a new entry with the hash and the key that it had. -/
theorem carries_store (hd : s.entries n = some d) (hhash : e.hash = d.hash)
    (hkey : e.key = d.key) : Carries (Cache.store n e) s () (s.write n (some e)) := by
  refine .of_ok rfl fun c hc => ⟨_, rfl, ?_⟩
  have hset := hc.entries_set n (some e)
  refine { hc with index := ?_, entries := hset, fresh := ?_, filled := ?_ }
  · intro order ho
    refine (hc.index order ho).congr fun m hm e' he' => ?_
    change ∃ e'', (c.entries.set n (some e)).get m = some e'' ∧ _
    rw [Table.get_set]
    rw [hc.entries] at he'
    by_cases hmn : m = n
    · subst hmn
      obtain rfl : d = e' := Option.some.inj (hd.symm.trans he')
      exact ⟨e, if_pos rfl, hhash, hkey⟩
    · exact ⟨e', by rw [if_neg hmn, hc.entries, he'], rfl, rfl⟩
  · intro m hm
    have hmn : m ≠ n := by
      rintro rfl
      rw [hc.fresh m hm] at hd
      cases hd
    exact (if_neg hmn).trans (hc.fresh m hm)
  · intro m hm
    by_cases hmn : m = n
    · exact ⟨e, if_pos hmn⟩
    · obtain ⟨e', he'⟩ := hc.filled m hm
      exact ⟨e', (if_neg hmn).trans he'⟩

/-- A node that is in no generation and not indexed loses its entry. -/
theorem carries_free (he : s.entries n = some e) (hloose : s.Loose n)
    (hout : ∀ order, s.order = some order → n ∉ order) :
    Carries (Cache.free n) s e (s.write n none) := by
  refine (carries_entry he).bind (.of_ok rfl fun c hc => ⟨_, rfl, ?_⟩)
  have hset := hc.entries_set n none
  refine { hc with index := ?_, entries := hset, fresh := ?_, filled := ?_ }
  · intro order ho
    refine (hc.index order ho).congr fun m hm e' he' => ⟨e', ?_, rfl, rfl⟩
    have hmn : m ≠ n := fun hmn => hout order ho (hmn ▸ hm)
    exact (Table.get_set_ne c.entries none hmn).trans he'
  · intro m hm
    change (if m = n then none else s.entries m) = none
    rw [hc.fresh m hm]
    split <;> rfl
  · intro m hm
    obtain ⟨e', he'⟩ := hc.filled m hm
    have hmn : m ≠ n := by
      rintro rfl
      exact hm.elim hloose.1 hloose.2
    exact ⟨e', (if_neg hmn).trans he'⟩

/-- A node that was never used gets an entry. -/
theorem carries_allocate (s : Sketch κ α) (e : Entry κ α) :
    Carries (Cache.allocate e) s s.unused
      { s.write s.unused (some e) with unused := s.unused + 1 } := by
  refine .of_ok rfl fun c hc => ?_
  refine ⟨_, by rw [Cache.allocate, hc.unused], ?_⟩
  have hset := hc.entries_set s.unused (some e)
  have hnone : s.entries s.unused = none := hc.fresh _ (Nat.le_refl _)
  refine { hc with index := ?_, entries := hset, unused := rfl, fresh := ?_, filled := ?_ }
  · intro order ho
    refine (hc.index order ho).congr fun m hm e' he' => ⟨e', ?_, rfl, rfl⟩
    have hmn : m ≠ s.unused := by
      rintro rfl
      rw [hc.entries, hnone] at he'
      cases he'
    exact (Table.get_set_ne c.entries _ hmn).trans he'
  · intro m hm
    have hlt : s.unused < m := hm
    exact (if_neg (Nat.ne_of_gt hlt)).trans (hc.fresh m (Nat.le_of_lt hlt))
  · intro m hm
    obtain ⟨e', he'⟩ := hc.filled m hm
    have hmn : m ≠ s.unused := by
      rintro rfl
      rw [hnone] at he'
      cases he'
    exact ⟨e', (if_neg hmn).trans he'⟩

/-- The list of a generation holds the sequence of that generation. -/
theorem Depicts.holds (hc : s.Depicts c) (g : Generation) :
    (c.generation g).Holds c.links (s.side g) := by
  cases g
  · exact hc.young
  · exact hc.old

/-- The list of a generation has the slots of that generation. -/
theorem Depicts.capacity (hc : s.Depicts c) (g : Generation) :
    (c.generation g).capacity.val = s.slots g := by
  cases g
  · exact congrArg Size.val hc.youngCapacity
  · exact congrArg Size.val hc.oldCapacity

/-- An action on the list of a generation replaces that list and the links. -/
theorem onGeneration_ok {ρ : Type} {action : Action ThreadedList ρ} {a : ρ} {after : ThreadedList}
    (h : action (c.generation g, c.links) = .ok a after) :
    Cache.onGeneration g action c = .ok a (c.withGeneration g after.1 after.2) := by
  rw [Cache.onGeneration, Action.within, h]

/-- No node is in both generations. -/
theorem Depicts.not_mem_side (hc : s.Depicts c) {g' : Generation} (hg : g' ≠ g)
    (hn : n ∈ s.side g') : n ∉ s.side g := by
  cases g <;> cases g'
  · exact (hg rfl).elim
  · exact fun hy => hc.apart n hy hn
  · exact hc.apart n hn
  · exact (hg rfl).elim

/-- Every node of a generation has an entry. -/
theorem Depicts.filled_side (hc : s.Depicts c) (hn : n ∈ s.side g) : ∃ e, s.entries n = some e := by
  cases g
  · exact hc.filled n (Or.inl hn)
  · exact hc.filled n (Or.inr hn)

/-- A change of one list, among nodes that the other one does not hold, is a change of one
sequence. -/
theorem Depicts.relink (hc : s.Depicts c) {after : ThreadedList} {touched : List NodeId}
    (h : RecencyList.Rethreaded (c.generation g, c.links) after touched ns)
    (hother : ∀ g', g' ≠ g → ∀ m ∈ s.side g', m ∉ touched ∧ m ∉ ns)
    (hfilled : ∀ m ∈ ns, ∃ e, s.entries m = some e) :
    (s.withSide g ns).Depicts (c.withGeneration g after.1 after.2) := by
  cases g with
  | young =>
    have hold := hother .old (by simp)
    refine { hc with
      young := h.holds
      youngCapacity := h.capacity.trans hc.youngCapacity
      old := hc.old.congr fun m hm => h.elsewhere m (hold m hm).1
      apart := fun m hm hmo => (hold m hmo).2 hm
      filled := ?_ }
    rintro m (hm | hm)
    · exact hfilled m hm
    · exact hc.filled m (Or.inr hm)
  | old =>
    have hyoung := hother .young (by simp)
    refine { hc with
      young := hc.young.congr fun m hm => h.elsewhere m (hyoung m hm).1
      old := h.holds
      oldCapacity := h.capacity.trans hc.oldCapacity
      apart := fun m hm => (hyoung m hm).2
      filled := ?_ }
    rintro m (hm | hm)
    · exact hc.filled m (Or.inl hm)
    · exact hfilled m hm

/-- A change of the order of a generation, or a node that leaves it. -/
theorem carries_rearrange {ρ : Type} {action : Action ThreadedList ρ} {a : ρ}
    (hsub : ∀ m ∈ ns, m ∈ s.side g)
    (h : ∀ c : Cache κ α, s.Depicts c → ∃ after, action (c.generation g, c.links) = .ok a after ∧
      RecencyList.Rethreaded (c.generation g, c.links) after (s.side g) ns) :
    Carries (Cache.onGeneration g action) s a (s.withSide g ns) := by
  refine .of_ok (by cases g <;> rfl) fun c hc => ?_
  obtain ⟨after, hrun, hafter⟩ := h c hc
  refine ⟨_, onGeneration_ok hrun, hc.relink hafter ?_ fun m hm => hc.filled_side (hsub m hm)⟩
  intro g' hg m hm
  have hnot := hc.not_mem_side hg hm
  exact ⟨hnot, fun hmns => hnot (hsub m hmns)⟩

/-- A node leaves its generation. -/
theorem carries_delist (hn : n ∈ s.side g) :
    Carries (Cache.delist g n) s () (s.withSide g ((s.side g).erase n)) := by
  refine carries_rearrange (fun m hm => List.mem_of_mem_erase hm) fun c hc => ?_
  obtain ⟨as, bs, -, hs, herase⟩ := List.exists_erase_eq hn
  have hholds := hc.holds g
  rw [herase]
  rw [hs] at hholds ⊢
  obtain ⟨after, hrun, hafter, -⟩ := hholds.erase
  exact ⟨after, hrun, hafter⟩

/-- A node comes to the front of its generation. -/
theorem carries_refresh (hn : n ∈ s.side g) :
    Carries (Cache.refresh g n) s () (s.withSide g (n :: (s.side g).erase n)) := by
  refine carries_rearrange (fun m hm => (List.perm_cons_erase hn).mem_iff.mpr hm) fun c hc => ?_
  obtain ⟨as, bs, -, hs, herase⟩ := List.exists_erase_eq hn
  have hholds := hc.holds g
  rw [herase]
  rw [hs] at hholds ⊢
  exact hholds.refresh

/-- The last node of a generation leaves it. -/
theorem carries_popLeast (hs : s.side g = ns ++ [n]) :
    Carries (Cache.popLeast g) s (some n) (s.withSide g ns) := by
  refine carries_rearrange ?_ fun c hc => ?_
  · intro m hm
    rw [hs]
    exact List.mem_append_left _ hm
  · have hholds := hc.holds g
    rw [hs] at hholds ⊢
    obtain ⟨after, hrun, hafter, -⟩ := hholds.popLeast
    exact ⟨after, hrun, hafter⟩

/-- A loose node comes to the front of a generation, of which the named nodes stay. -/
theorem carries_enlist {answer : Option NodeId} (hloose : s.Loose n) (he : s.entries n = some e)
    (hsub : ∀ m ∈ ns, m ∈ s.side g)
    (h : ∀ c : Cache κ α, s.Depicts c →
      ∃ after, RecencyList.insert n (c.generation g, c.links) = .ok answer after ∧
        RecencyList.Rethreaded (c.generation g, c.links) after (n :: s.side g) (n :: ns)) :
    Carries (Cache.enlist g n) s answer (s.withSide g (n :: ns)) := by
  refine .of_ok (by cases g <;> rfl) fun c hc => ?_
  obtain ⟨after, hrun, hafter⟩ := h c hc
  refine ⟨_, onGeneration_ok hrun, hc.relink hafter ?_ ?_⟩
  · intro g' hg m hm
    have hnot := hc.not_mem_side hg hm
    have hmn : m ≠ n := by
      rintro rfl
      cases g'
      · exact hloose.1 hm
      · exact hloose.2 hm
    simp only [List.mem_cons, not_or]
    exact ⟨⟨hmn, hnot⟩, hmn, fun hmns => hnot (hsub m hmns)⟩
  · intro m hm
    rcases List.mem_cons.mp hm with rfl | hm
    · exact ⟨e, he⟩
    · exact hc.filled_side (hsub m hm)

theorem Loose.not_mem_side (h : s.Loose n) (g : Generation) : n ∉ s.side g := by
  cases g
  · exact h.1
  · exact h.2

theorem loose_iff : s.Loose n ↔ n ∉ s.young ++ s.old := by
  rw [List.mem_append, not_or]
  rfl

/-- A generation with room takes a loose node and gives up nothing. -/
theorem carries_enlist_room (hloose : s.Loose n) (he : s.entries n = some e)
    (hroom : (s.side g).length < s.slots g) :
    Carries (Cache.enlist g n) s none (s.withSide g (n :: s.side g)) := by
  refine carries_enlist hloose he (fun m hm => hm) fun c hc => ?_
  exact (hc.holds g).insert_room (hloose.not_mem_side g) (by rwa [hc.capacity g])

/-- A full generation takes a loose node and gives up its last one. -/
theorem carries_enlist_full (hloose : s.Loose n) (he : s.entries n = some e)
    (hs : s.side g = ns ++ [o]) (hfull : s.slots g ≤ (s.side g).length) :
    Carries (Cache.enlist g n) s (some o) (s.withSide g (n :: ns)) := by
  refine carries_enlist hloose he (fun m hm => hs ▸ List.mem_append_left _ hm) fun c hc => ?_
  have hholds := hc.holds g
  have hnot := hloose.not_mem_side g
  rw [← hc.capacity g] at hfull
  rw [hs] at hholds hnot hfull ⊢
  obtain ⟨after, hrun, hafter, -⟩ := hholds.insert_full hnot hfull
  exact ⟨after, hrun, hafter⟩

/-- An indexed node is struck from the index. -/
theorem carries_strike (ho : s.order = some order) (hn : n ∈ order) :
    Carries (Cache.strike n) s true { s with order := some (order.erase n) } := by
  refine .of_ok rfl fun c hc => ?_
  obtain ⟨as, bs, -, hs, herase⟩ := List.exists_erase_eq hn
  have hindexes := hc.index order ho
  rw [hs] at hindexes
  obtain ⟨after, chain, hrun, hafter⟩ := hindexes.erase_held
  refine ⟨_, by rw [Cache.strike, hrun], ?_⟩
  refine { hc with index := ?_, hasher := hafter.hasher.trans hc.hasher }
  rintro order' ho'
  obtain rfl : order.erase n = order' := Option.some.inj ho'
  rw [herase]
  exact hafter.indexes

variable [DecidableEq κ]

/-- A key is looked up among the indexed nodes. -/
theorem Depicts.node?_eq_some_iff (hc : s.Depicts c) (ho : s.order = some order) {key : κ} :
    c.node? key = some n ↔
      n ∈ order ∧ ∃ e, s.entries n = some e ∧ e.hash = s.hasher key ∧ e.key = key := by
  rw [Cache.node?, KeyIndex.get?, (hc.index order ho).find?_eq_some_iff, hc.hasher, hc.entries]

/-- A node with a new key is indexed. -/
theorem carries_enrol (ho : s.order = some order) (hn : n ∉ order) (he : s.entries n = some e)
    (hnew : ∀ m ∈ order, ∀ d, s.entries m = some d → d.hash = e.hash → d.key ≠ e.key) :
    Carries (Cache.enrol n) s true { s with order := some (n :: order) } := by
  refine .of_ok rfl fun c hc => ?_
  rw [← hc.entries] at he hnew
  obtain ⟨after, chain, hrun, hafter⟩ := (hc.index order ho).insert_new hn he hnew
  refine ⟨_, by rw [Cache.enrol, hrun], ?_⟩
  refine { hc with index := ?_, hasher := hafter.hasher.trans hc.hasher }
  rintro order' ho'
  obtain rfl : n :: order = order' := Option.some.inj ho'
  exact hafter.indexes

end Sketch

end CachePool
