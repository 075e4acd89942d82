import CachePool.Cache.Operation
import CachePool.Proofs.Index.Chains
import CachePool.Proofs.Lockstep

/-!
# The hash function is not observed

Two caches that differ in their hash functions alone are twins: they have the same
lists, links, counters and entries, up to the hashes of the entries, and their indices
hold the same sequence of nodes, in chains that may look nothing alike. A lookup finds
the first node of that sequence that carries the key, so it finds the same one in both.
Every step on twins answers alike or stops at the same fault, and leaves twins behind;
so does every call, and every history.
-/

namespace CachePool

/-- The entry as it is under a hash function. -/
def Entry.rehash {κ α : Type} (hasher : Hasher κ) (e : Entry κ α) : Entry κ α :=
  { e with hash := hasher e.key }

namespace Cache

variable {κ α : Type} {h₁ h₂ hasher : Hasher κ} {c d : Cache κ α} {n : NodeId}
  {e e' : Entry κ α} {order : List NodeId}

/-- The entries are hashed by their keys, and the chains of the index hold the sequence. A node
without an entry may still be in its chain, wherever it was indexed. -/
structure Filed (index : KeyIndex κ) (chain : ChainTable) (entries : EntryTable κ α)
    (unused : NodeId) (hasher : Hasher κ) (order : List NodeId) : Prop where
  hasher_eq : index.hasher = hasher
  hashed : ∀ n e, entries.get n = some e → e.hash = hasher e.key
  chained : ∃ hashOf, index.Chained chain hashOf order ∧
    ∀ n ∈ order, ∀ e, entries.get n = some e → e.hash = hashOf n
  used : ∀ n ∈ order, n < unused

/-- The index of the cache holds the sequence. -/
abbrev Files (c : Cache κ α) (hasher : Hasher κ) (order : List NodeId) : Prop :=
  Filed c.index c.chain c.entries c.unused hasher order

/-- The node carries the key. -/
def carriesKey [DecidableEq κ] (c : Cache κ α) (key : κ) (n : NodeId) : Bool :=
  (c.entries.get n).any fun e => e.key = key

/-- The node carries a key that is not indexed. -/
def carriesNewKey [DecidableEq κ] (c : Cache κ α) (n : NodeId) : Bool :=
  (c.entries.get n).any fun e => (c.node? e.key).isNone

namespace Filed

/-- A node gets an entry with the key and the hash of the one that it has. -/
theorem store (h : c.Files hasher order) (he : c.entries.get n = some e) (hkey : e'.key = e.key)
    (hhash : e'.hash = e.hash) :
    { c with entries := c.entries.set n (some e') }.Files hasher order where
  hasher_eq := h.hasher_eq
  hashed := by
    intro m d hd
    rw [Table.get_set] at hd
    split_ifs at hd with hmn
    · obtain rfl := Option.some.inj hd
      rw [hhash, hkey]
      exact h.hashed n e he
    · exact h.hashed m d hd
  chained := by
    obtain ⟨hashOf, hchained, hhashes⟩ := h.chained
    refine ⟨hashOf, hchained, fun m hm d hd => ?_⟩
    rw [Table.get_set] at hd
    split_ifs at hd with hmn
    · obtain rfl := Option.some.inj hd
      subst hmn
      rw [hhash]
      exact hhashes m hm e he
    · exact hhashes m hm d hd
  used := h.used

/-- A node loses its entry, and stays where it is indexed. -/
theorem free (h : c.Files hasher order) (n : NodeId) :
    { c with entries := c.entries.set n none }.Files hasher order where
  hasher_eq := h.hasher_eq
  hashed := by
    intro m d hd
    rw [Table.get_set] at hd
    split_ifs at hd
    exact h.hashed m d hd
  chained := by
    obtain ⟨hashOf, hchained, hhashes⟩ := h.chained
    refine ⟨hashOf, hchained, fun m hm d hd => ?_⟩
    rw [Table.get_set] at hd
    split_ifs at hd
    exact hhashes m hm d hd
  used := h.used

/-- A node that was never used gets an entry that is hashed by its key. -/
theorem allocate (h : c.Files hasher order) (hhash : e.hash = hasher e.key) :
    { c with
      entries := c.entries.set c.unused (some e)
      unused := c.unused + 1 }.Files hasher order where
  hasher_eq := h.hasher_eq
  hashed := by
    intro m d hd
    rw [Table.get_set] at hd
    split_ifs at hd
    · obtain rfl := Option.some.inj hd
      exact hhash
    · exact h.hashed m d hd
  chained := by
    obtain ⟨hashOf, hchained, hhashes⟩ := h.chained
    refine ⟨hashOf, hchained, fun m hm d hd => ?_⟩
    rw [Table.get_set_ne _ _ (Nat.ne_of_lt (h.used m hm))] at hd
    exact hhashes m hm d hd
  used := fun m hm => Nat.lt_succ_of_lt (h.used m hm)

/-- A node that is in its chain leaves it if it has an entry. -/
theorem strike (h : c.Files hasher order) (n : NodeId) :
    ∃ index chain, c.index.erase c.chain c.entries n =
        (decide (n ∈ order) && (c.entries.get n).isSome, index, chain) ∧
      { c with index, chain }.Files hasher
        (if (c.entries.get n).isSome then order.erase n else order) := by
  obtain ⟨hashOf, hchained, hhashes⟩ := h.chained
  cases he : c.entries.get n with
  | none =>
    refine ⟨c.index, c.chain, ?_, h⟩
    simp only [KeyIndex.erase, he, Option.isSome_none, Bool.and_false]
  | some e =>
    simp only [Option.isSome_some, Bool.and_true, if_true]
    by_cases hn : n ∈ order
    · obtain ⟨as, bs, -, hsplit, herase⟩ := List.exists_erase_eq hn
      rw [hsplit] at hchained
      obtain ⟨index, chain, hrun, hchained', hhasher, -⟩ :=
        hchained.erase_held he (hhashes n hn e he)
      refine ⟨index, chain, by rw [hrun, decide_eq_true hn], hhasher.trans h.hasher_eq, h.hashed,
        ⟨hashOf, herase ▸ hchained', fun m hm => hhashes m (List.mem_of_mem_erase hm)⟩,
        fun m hm => h.used m (List.mem_of_mem_erase hm)⟩
    · rw [List.erase_of_not_mem hn]
      exact ⟨c.index, c.chain, by rw [hchained.erase_absent hn, decide_eq_false hn], h⟩

/-- The index is emptied. -/
theorem clear (h : c.Files hasher order) :
    { c with index := c.index.clear }.Files hasher [] where
  hasher_eq := h.hasher_eq
  hashed := h.hashed
  chained := ⟨fun _ => 0,
    KeyIndex.chained_nil rfl (fun bucket => Table.get_empty bucket) c.chain _, by simp⟩
  used := by simp

variable [DecidableEq κ]

/-- A key is looked up at the first node of the sequence that carries it. -/
theorem node?_eq (h : c.Files hasher order) (key : κ) :
    c.node? key = order.find? (carriesKey c key) := by
  obtain ⟨hashOf, hchained, hhashes⟩ := h.chained
  rw [node?, KeyIndex.get?, KeyIndex.find?, hchained.bucketNodes_eq, h.hasher_eq,
    ← List.head?_filter, ← List.head?_filter, List.filter_filter]
  refine congrArg List.head? (List.filter_congr fun n hn => ?_)
  rw [carriesKey, KeyIndex.carries]
  cases he : c.entries.get n with
  | none => rfl
  | some e =>
    -- an entry with the key has its hash, and so its bucket
    by_cases hkey : e.key = key
    · subst hkey
      have hselects : c.index.selects hashOf (c.index.bucketOf (hasher e.key)) n := by
        rw [KeyIndex.selects_iff, ← hhashes n hn e he, h.hashed n e he]
      simp [hselects, h.hashed n e he]
    · simp [hkey]

/-- A node is indexed in front of the others, unless its key is indexed. -/
theorem enrol (h : c.Files hasher order) (hn : n < c.unused) :
    ∃ index chain, c.index.insert c.chain c.entries n = (c.carriesNewKey n, index, chain) ∧
      { c with index, chain }.Files hasher (if c.carriesNewKey n then n :: order else order) := by
  rw [carriesNewKey]
  cases he : c.entries.get n with
  | none => exact ⟨c.index, c.chain, by simp only [KeyIndex.insert, he, Option.any_none], h⟩
  | some e =>
    have hfind : c.index.find? c.chain c.entries e.hash e.key = c.node? e.key := by
      rw [node?, KeyIndex.get?, h.hashed n e he, h.hasher_eq]
    rw [Option.any_some]
    cases hnode : c.node? e.key with
    | some m =>
      rw [hnode] at hfind
      exact ⟨c.index, c.chain, by simp only [KeyIndex.insert, he, hfind, Option.isNone_some], h⟩
    | none =>
      rw [hnode] at hfind
      have hout : n ∉ order := by
        intro hmem
        rw [h.node?_eq, List.find?_eq_none] at hnode
        exact hnode n hmem (by simp [carriesKey, he])
      obtain ⟨hashOf, hchained, hhashes⟩ := h.chained
      have hkept : ∀ m ∈ order, Function.update hashOf n e.hash m = hashOf m := fun m hm =>
        Function.update_of_ne (ne_of_mem_of_not_mem hm hout) _ _
      have hcons := (hchained.congr hkept).cons hout
      rw [Function.update_self] at hcons
      refine ⟨_, _, KeyIndex.insert_of_find?_none he hfind, h.hasher_eq, h.hashed, ⟨_, hcons, ?_⟩, ?_⟩
      · intro m hm d hd
        rcases List.mem_cons.mp hm with rfl | hm
        · rw [Function.update_self, Option.some.inj (hd.symm.trans he)]
        · rw [hkept m hm]
          exact hhashes m hm d hd
      · intro m hm
        rcases List.mem_cons.mp hm with rfl | hm
        · exact hn
        · exact h.used m hm

end Filed

/-- Caches under two hash functions that differ in the hashes of their entries and in their indices
alone, which hold the same sequence of nodes. -/
structure Twins (h₁ h₂ : Hasher κ) (c d : Cache κ α) : Prop where
  config : d.config = c.config
  young : d.young = c.young
  old : d.old = c.old
  links : d.links = c.links
  unused : d.unused = c.unused
  metrics : d.metrics = c.metrics
  entries : ∀ n, d.entries.get n = (c.entries.get n).map (Entry.rehash h₂)
  files : ∃ order, c.Files h₁ order ∧ d.Files h₂ order

/-- The action does not observe the hash function: on twins it runs in lockstep. -/
def Oblivious (h₁ h₂ : Hasher κ) {ρ : Type} (x : Action (Cache κ α) ρ) : Prop :=
  ∀ c d, Twins h₁ h₂ c d → Lockstep (Twins h₁ h₂) (x c) (x d)

namespace Twins

theorem generation_eq (h : Twins h₁ h₂ c d) (g : Generation) : d.generation g = c.generation g := by
  cases g
  · exact h.young
  · exact h.old

theorem entry_eq_none (h : Twins h₁ h₂ c d) (he : c.entries.get n = none) :
    d.entries.get n = none := by
  rw [h.entries, he]
  rfl

theorem entry_eq_some (h : Twins h₁ h₂ c d) (he : c.entries.get n = some e) :
    d.entries.get n = some (e.rehash h₂) := by
  rw [h.entries, he]
  rfl

/-- Twins stay twins when their entries at a node are replaced by corresponding ones. -/
theorem entries_set (h : Twins h₁ h₂ c d) (n m : NodeId) (e : Option (Entry κ α)) :
    (d.entries.set n (e.map (Entry.rehash h₂))).get m =
      ((c.entries.set n e).get m).map (Entry.rehash h₂) := by
  rw [Table.get_set, Table.get_set]
  split_ifs
  · rfl
  · exact h.entries m

/-- Twins show the same generations, up to the hashes of the entries. -/
theorem contents_eq (h : Twins h₁ h₂ c d) (g : Generation) :
    d.contents g = (c.contents g).map (Entry.rehash h₂) := by
  rw [contents, contents, h.generation_eq, h.links, List.map_filterMap]
  exact List.filterMap_congr fun n _ => h.entries n

/-- Twins allocate the same node for a key, under the hash that each of them gives it. -/
theorem allocate (h : Twins h₁ h₂ c d) (key : κ) (value : α) :
    ∃ c' d', Cache.allocate { key, value, hash := c.index.hasher key } c = .ok c.unused c' ∧
      Cache.allocate { key, value, hash := d.index.hasher key } d = .ok c.unused d' ∧
      Twins h₁ h₂ c' d' ∧ c.unused < c'.unused := by
  obtain ⟨order, hc, hd⟩ := h.files
  let e : Entry κ α := { key, value, hash := c.index.hasher key }
  have he : ({ key, value, hash := d.index.hasher key } : Entry κ α) = e.rehash h₂ := by
    rw [hd.hasher_eq]
    rfl
  have hallocated := hd.allocate (e := e.rehash h₂) rfl
  rw [h.unused] at hallocated
  refine ⟨_, _, rfl, by rw [Cache.allocate, h.unused], ?_, Nat.lt_succ_self _⟩
  rw [he]
  exact { h with
    unused := rfl
    entries := fun m => h.entries_set c.unused m (some e)
    files := ⟨order, hc.allocate (congrFun hc.hasher_eq key), hallocated⟩ }

variable [DecidableEq κ]

/-- Twins look a key up at the same node. -/
theorem node?_eq (h : Twins h₁ h₂ c d) (key : κ) : d.node? key = c.node? key := by
  obtain ⟨order, hc, hd⟩ := h.files
  rw [hd.node?_eq, hc.node?_eq]
  refine congrArg (List.find? · order) (funext fun n => ?_)
  rw [carriesKey, carriesKey, h.entries, Option.any_map]
  rfl

theorem peek_eq (h : Twins h₁ h₂ c d) (key : κ) : d.peek key = c.peek key := by
  rw [peek, peek, h.node?_eq]
  refine congrArg (Option.bind _) (funext fun n => ?_)
  rw [h.entries, Option.map_map]
  rfl

theorem generationOf_eq (h : Twins h₁ h₂ c d) (key : κ) :
    d.generationOf key = c.generationOf key := by
  rw [generationOf, generationOf, h.node?_eq]
  refine congrArg (Option.bind _) (funext fun n => ?_)
  rw [h.entries, Option.map_map]
  rfl

end Twins

namespace Oblivious

variable {ρ σ : Type} {x : Action (Cache κ α) ρ} {g : Generation}

theorem pure (a : ρ) : Oblivious h₁ h₂ (Pure.pure a : Action (Cache κ α) ρ) :=
  fun _ _ h => .ok h

theorem throw (fault : Fault) :
    Oblivious h₁ h₂ (MonadExcept.throw fault : Action (Cache κ α) ρ) := fun _ _ h => .error h

/-- Actions in a row. -/
theorem bind {f : ρ → Action (Cache κ α) σ} (hx : Oblivious h₁ h₂ x)
    (hf : ∀ a, Oblivious h₁ h₂ (f a)) : Oblivious h₁ h₂ (x >>= f) :=
  fun c d h => (hx c d h).bind (fun _ _ h => h) fun a c d h => hf a c d h

/-- A function of the answer. -/
theorem map (hx : Oblivious h₁ h₂ x) (f : ρ → σ) : Oblivious h₁ h₂ (f <$> x) :=
  hx.bind fun a => pure (f a)

/-- An action that first reads the cache, and does the same on twins. -/
theorem read {f : Cache κ α → Action (Cache κ α) ρ}
    (hf : ∀ c d, Twins h₁ h₂ c d → f d = f c) (h : ∀ c, Oblivious h₁ h₂ (f c)) :
    Oblivious h₁ h₂ (MonadState.get >>= f) := by
  intro c d hcd
  rw [Action.get_bind, Action.get_bind, hf c d hcd]
  exact h c c d hcd

/-- A change that keeps twins. -/
theorem change {f : Cache κ α → Cache κ α}
    (hf : ∀ c d, Twins h₁ h₂ c d → Twins h₁ h₂ (f c) (f d)) :
    Oblivious h₁ h₂ (modify f) := fun c d h => .ok (hf c d h)

/-- An action on a part that twins share. -/
theorem within {τ : Type} {part : Cache κ α → τ} {replace : Cache κ α → τ → Cache κ α}
    (hpart : ∀ c d, Twins h₁ h₂ c d → part d = part c)
    (hreplace : ∀ c d t, Twins h₁ h₂ c d → Twins h₁ h₂ (replace c t) (replace d t))
    (y : Action τ ρ) : Oblivious h₁ h₂ (Action.within part replace y) := by
  intro c d h
  rw [Action.within, Action.within, hpart c d h]
  cases y (part c) with
  | ok a t => exact .ok (hreplace c d t h)
  | error fault t => exact .error (hreplace c d t h)

theorem tally (event : Action CacheMetrics Unit) :
    Oblivious h₁ h₂ (tally event : Action (Cache κ α) Unit) := by
  refine within (fun c d h => h.metrics) (fun c d metrics h => ?_) event
  exact { h with metrics := rfl }

theorem onGeneration (g : Generation) (action : Action ThreadedList ρ) :
    Oblivious h₁ h₂ (onGeneration g action : Action (Cache κ α) ρ) := by
  refine within (fun c d h => by rw [h.generation_eq, h.links]) (fun c d t h => ?_) action
  cases g
  · exact { h with young := rfl, links := rfl }
  · exact { h with old := rfl, links := rfl }

theorem gaugeSizes : Oblivious h₁ h₂ (gaugeSizes : Action (Cache κ α) Unit) :=
  change fun c d h => { h with metrics := by rw [h.metrics, h.young, h.old] }

/-- What follows the reading of an entry gets it under the hash function of the twin. -/
theorem entry_bind {f : Entry κ α → Action (Cache κ α) ρ}
    (hf : ∀ e c d, Twins h₁ h₂ c d → c.entries.get n = some e →
      Lockstep (Twins h₁ h₂) (f e c) (f (e.rehash h₂) d)) :
    Oblivious h₁ h₂ (entry n >>= f) := by
  intro c d h
  cases he : c.entries.get n with
  | none =>
    have hc : entry n c = .error .entryFreed c := by rw [entry, he]
    have hd : entry n d = .error .entryFreed d := by rw [entry, h.entry_eq_none he]
    exact .bind_error hc hd h
  | some e =>
    have hc : entry n c = .ok e c := by rw [entry, he]
    have hd : entry n d = .ok (e.rehash h₂) d := by rw [entry, h.entry_eq_some he]
    exact .bind_ok hc hd (hf e c d h he)

/-- What does not read the hash may follow the reading of an entry. -/
theorem entry_then {f : Entry κ α → Action (Cache κ α) ρ} (hsame : ∀ e, f (e.rehash h₂) = f e)
    (hf : ∀ e, Oblivious h₁ h₂ (f e)) : Oblivious h₁ h₂ (entry n >>= f) :=
  entry_bind fun e c d h _ => by
    rw [hsame]
    exact hf e c d h

/-- An entry is replaced by one with the same key and hash, and what follows does not read the
hash. -/
theorem entry_store {amend : Entry κ α → Entry κ α} {f : Entry κ α → Action (Cache κ α) ρ}
    (hkey : ∀ e, (amend e).key = e.key) (hhash : ∀ e, (amend e).hash = e.hash)
    (hamend : ∀ e, amend (e.rehash h₂) = (amend e).rehash h₂)
    (hsame : ∀ e, f (e.rehash h₂) = f e) (hf : ∀ e, Oblivious h₁ h₂ (f e)) :
    Oblivious h₁ h₂ (entry n >>= fun e => store n (amend e) >>= fun _ => f e) := by
  refine entry_bind fun e c d h he => ?_
  rw [hsame, hamend]
  refine hf e _ _ { h with entries := fun m => h.entries_set n m (some (amend e)), files := ?_ }
  obtain ⟨order, hc, hd⟩ := h.files
  refine ⟨order, hc.store he (hkey e) (hhash e), hd.store (h.entry_eq_some he) (hkey e) ?_⟩
  exact congrArg h₂ (hkey e)

/-- A node is freed, and what follows does not read the hash of its entry. -/
theorem free_then {f : Entry κ α → Action (Cache κ α) ρ} (hsame : ∀ e, f (e.rehash h₂) = f e)
    (hf : ∀ e, Oblivious h₁ h₂ (f e)) : Oblivious h₁ h₂ (free n >>= f) := by
  intro c d h
  cases he : c.entries.get n with
  | none =>
    have hc : entry n c = .error .entryFreed c := by rw [entry, he]
    have hd : entry n d = .error .entryFreed d := by rw [entry, h.entry_eq_none he]
    exact .bind_error (x := free n) (Action.bind_error hc) (Action.bind_error hd) h
  | some e =>
    have hc : entry n c = .ok e c := by rw [entry, he]
    have hd : entry n d = .ok (e.rehash h₂) d := by rw [entry, h.entry_eq_some he]
    refine .bind_ok (x := free n) (Action.bind_ok hc) (Action.bind_ok hd) ?_
    rw [hsame]
    refine hf e _ _ { h with entries := fun m => h.entries_set n m none, files := ?_ }
    obtain ⟨order, hc, hd⟩ := h.files
    exact ⟨order, hc.free n, hd.free n⟩

/-- A node leaves the index of both twins, or of none. -/
theorem strike (n : NodeId) : Oblivious h₁ h₂ (strike n : Action (Cache κ α) Bool) := by
  intro c d h
  obtain ⟨order, hc, hd⟩ := h.files
  obtain ⟨index, chain, hrun, hfiles⟩ := hc.strike n
  obtain ⟨index', chain', hrun', hfiles'⟩ := hd.strike n
  have hsome : (d.entries.get n).isSome = (c.entries.get n).isSome := by
    rw [h.entries, Option.isSome_map]
  rw [hsome] at hrun' hfiles'
  rw [Cache.strike, Cache.strike, hrun, hrun']
  exact .ok { h with files := ⟨_, hfiles, hfiles'⟩ }

theorem evict (n : NodeId) : Oblivious h₁ h₂ (evict n : Action (Cache κ α) α) := by
  refine (strike n).bind fun struck => ?_
  cases struck with
  | true =>
    refine free_then (fun _ => rfl) fun e => ?_
    exact (tally _).bind fun _ => pure e.value
  | false => exact throw _

theorem enterYoung (n : NodeId) : Oblivious h₁ h₂ (enterYoung n : Action (Cache κ α) (List α)) := by
  refine (onGeneration .young _).bind fun overflow => ?_
  cases overflow with
  | none => exact pure []
  | some o => exact (evict o).bind fun value => pure [value]

theorem demote (n : NodeId) : Oblivious h₁ h₂ (demote n : Action (Cache κ α) (List α)) := by
  refine entry_store (fun _ => rfl) (fun _ => rfl) (fun _ => rfl) (fun _ => rfl) fun e => ?_
  exact (tally _).bind fun _ => enterYoung n

theorem promote (n : NodeId) : Oblivious h₁ h₂ (promote n : Action (Cache κ α) (List α)) := by
  refine (onGeneration .young _).bind fun _ => ?_
  refine entry_store (fun _ => rfl) (fun _ => rfl) (fun _ => rfl) (fun _ => rfl) fun e => ?_
  refine (tally _).bind fun _ => (onGeneration .old _).bind fun overflow => ?_
  cases overflow with
  | none => exact (pure []).bind fun freed => gaugeSizes.bind fun _ => pure freed
  | some o => exact (demote o).bind fun freed => gaugeSizes.bind fun _ => pure freed

theorem hit (n : NodeId) : Oblivious h₁ h₂ (hit n : Action (Cache κ α) (List α)) := by
  refine entry_store (fun _ => rfl) (fun _ => rfl) (fun _ => rfl) (fun _ => rfl) fun e => ?_
  cases e.countHit.generation with
  | young =>
    refine (tally _).bind fun _ => read (fun c d h => ?_) fun c => ?_
    · rw [h.config]
    · split
      · exact promote n
      · exact (onGeneration .young _).bind fun _ => pure []
  | old => exact (tally _).bind fun _ => (onGeneration .old _).bind fun _ => pure []

/-- A node is extracted, and what follows does not read the hash of its entry. -/
theorem extract_then {f : Entry κ α → Action (Cache κ α) ρ} (hsame : ∀ e, f (e.rehash h₂) = f e)
    (hf : ∀ e, Oblivious h₁ h₂ (f e)) : Oblivious h₁ h₂ (extract n >>= f) := by
  rw [extract, bind_assoc]
  refine (strike n).bind fun struck => ?_
  cases struck with
  | true =>
    change Oblivious h₁ h₂
      ((entry n >>= fun e => delist e.generation n >>= fun _ => free n) >>= f)
    rw [bind_assoc]
    refine entry_then (fun _ => rfl) fun e => ?_
    rw [bind_assoc]
    exact (onGeneration _ _).bind fun _ => free_then hsame hf
  | false => exact throw _

theorem freeGeneration (g : Generation) (fuel : Nat) :
    Oblivious h₁ h₂ (freeGeneration g fuel : Action (Cache κ α) (List α)) := by
  induction fuel with
  | zero => exact pure []
  | succ fuel ih =>
    refine (onGeneration g _).bind fun least => ?_
    cases least with
    | none => exact pure []
    | some n =>
      refine free_then (fun _ => rfl) fun e => ?_
      exact ih.bind fun rest => pure (e.value :: rest)

theorem freeContents : Oblivious h₁ h₂ (freeContents : Action (Cache κ α) (List α)) := by
  refine read (fun c d h => by rw [h.young]) fun c => (freeGeneration .young _).bind fun young => ?_
  refine read (fun c d h => by rw [h.old]) fun c => (freeGeneration .old _).bind fun old => ?_
  exact pure (young ++ old)

theorem clear : Oblivious h₁ h₂ (clear : Action (Cache κ α) (Outcome Unit α)) := by
  refine freeContents.bind fun freed => (change fun c d h => ?_).bind fun _ => ?_
  · obtain ⟨order, hc, hd⟩ := h.files
    exact { h with files := ⟨[], hc.clear, hd.clear⟩ }
  · exact gaugeSizes.bind fun _ => pure _

variable [DecidableEq κ]

/-- A node is indexed by both twins, or by none. -/
theorem enrol (h : Twins h₁ h₂ c d) (hn : n < c.unused) :
    Lockstep (Twins h₁ h₂) (enrol n c) (enrol n d) := by
  obtain ⟨order, hc, hd⟩ := h.files
  obtain ⟨index, chain, hrun, hfiles⟩ := hc.enrol hn
  obtain ⟨index', chain', hrun', hfiles'⟩ := hd.enrol (h.unused ▸ hn)
  have hnew : d.carriesNewKey n = c.carriesNewKey n := by
    rw [carriesNewKey, carriesNewKey, h.entries, Option.any_map]
    exact congrArg (Option.any · _) (funext fun e => congrArg Option.isNone (h.node?_eq e.key))
  rw [hnew] at hrun' hfiles'
  rw [Cache.enrol, Cache.enrol, hrun, hrun']
  exact .ok { h with files := ⟨_, hfiles, hfiles'⟩ }

theorem seek (key : κ) : Oblivious h₁ h₂ (seek key : Action (Cache κ α) (Option NodeId)) := by
  refine read (fun c d h => by rw [h.node?_eq]) fun c => ?_
  cases c.node? key with
  | none => exact (tally _).bind fun _ => pure none
  | some n => exact pure (some n)

theorem get (key : κ) :
    Oblivious h₁ h₂ (get key : Action (Cache κ α) (Outcome (Option α) α)) := by
  refine (seek key).bind fun found => ?_
  cases found with
  | none => exact pure _
  | some n =>
    refine (hit n).bind fun freed => entry_then (fun _ => rfl) fun e => ?_
    exact pure _

theorem update (key : κ) (f : α → α) :
    Oblivious h₁ h₂ (update key f : Action (Cache κ α) (Outcome (Option α) α)) := by
  refine (seek key).bind fun found => ?_
  cases found with
  | none => exact pure _
  | some n =>
    refine (hit n).bind fun freed => ?_
    refine entry_store (fun _ => rfl) (fun _ => rfl) (fun _ => rfl) (fun _ => rfl) fun e => ?_
    exact pure _

theorem remove (key : κ) :
    Oblivious h₁ h₂ (remove key : Action (Cache κ α) (Outcome (Option α) α)) := by
  refine read (fun c d h => by rw [h.node?_eq]) fun c => ?_
  cases c.node? key with
  | none => exact pure _
  | some n =>
    refine extract_then (fun _ => rfl) fun e => ?_
    exact (tally _).bind fun _ => gaugeSizes.bind fun _ => pure _

theorem getLive (key : κ) (alive : α → Bool) :
    Oblivious h₁ h₂ (getLive key alive : Action (Cache κ α) (Outcome (Option α) α)) := by
  refine (seek key).bind fun found => ?_
  cases found with
  | none => exact pure _
  | some n =>
    refine entry_then (fun _ => rfl) fun e => ?_
    split
    · exact (hit n).bind fun freed => pure _
    · refine extract_then (fun _ => rfl) fun e => ?_
      refine (tally _).bind fun _ => (tally _).bind fun _ => gaugeSizes.bind fun _ => ?_
      exact pure _

/-- A new key is hashed for a node that was never used, so the twins get corresponding entries. -/
theorem put (key : κ) (value : α) :
    Oblivious h₁ h₂ (put key value : Action (Cache κ α) (Outcome (Option α) α)) := by
  intro c d h
  rw [Cache.put, Action.get_bind, Action.get_bind, h.node?_eq]
  cases c.node? key with
  | some n =>
    refine (tally _).bind (fun _ => ?_) c d h
    refine entry_store (fun _ => rfl) (fun _ => rfl) (fun _ => rfl) (fun _ => rfl) fun e => ?_
    exact pure _
  | none =>
    obtain ⟨c', d', hc, hd, h', hn⟩ := h.allocate key value
    refine .bind_ok hc hd ((enrol h' hn).bind (fun _ _ h => h) fun added c d h => ?_)
    cases added with
    | true =>
      refine Oblivious.bind (enterYoung _) (fun freed => ?_) c d h
      exact (tally _).bind fun _ => gaugeSizes.bind fun _ => pure _
    | false => exact .error h

theorem set (key : κ) (value : Option α) :
    Oblivious h₁ h₂ (set key value : Action (Cache κ α) (Outcome (Option α) α)) := by
  cases value with
  | some value => exact put key value
  | none => exact remove key

/-- No call observes the hash function. -/
theorem perform (op : Operation κ α) : Oblivious h₁ h₂ (perform op) := by
  cases op with
  | get key => exact (get key).map _
  | update key f => exact (update key f).map _
  | getLive key alive => exact (getLive key alive).map _
  | peek key =>
    refine read (fun c d h => ?_) fun c => pure _
    rw [h.peek_eq]
  | contains key =>
    refine read (fun c d h => ?_) fun c => pure _
    rw [contains, contains, h.node?_eq]
  | generationOf key =>
    refine read (fun c d h => ?_) fun c => pure _
    rw [h.generationOf_eq]
  | put key value => exact (put key value).map _
  | set key value => exact (set key value).map _
  | remove key => exact (remove key).map _
  | clear => exact clear.map _

end Oblivious

/-- New caches of one configuration are twins. -/
theorem twins_ofConfig (config : CacheConfig) (h₁ h₂ : Hasher κ) :
    Twins h₁ h₂ (ofConfig config h₁ : Cache κ α) (ofConfig config h₂) where
  config := rfl
  young := rfl
  old := rfl
  links := rfl
  unused := rfl
  metrics := rfl
  entries := fun n => by
    change (Table.empty : EntryTable κ α).get n = ((Table.empty : EntryTable κ α).get n).map _
    rw [Table.get_empty]
    rfl
  files := by
    have hnew : ∀ hasher : Hasher κ, (ofConfig config hasher : Cache κ α).Files hasher [] := by
      intro hasher
      refine ⟨rfl, fun n e he => ?_, ⟨fun _ => 0, ?_, by simp⟩, by simp⟩
      · cases (Table.get_empty n).symm.trans he
      · exact KeyIndex.chained_nil rfl (fun bucket => Table.get_empty bucket) _ _
    exact ⟨[], hnew h₁, hnew h₂⟩

variable [DecidableEq κ]

/-- Twins go through every history with the same outcomes, and are twins after it. -/
theorem Twins.run (h : Twins h₁ h₂ c d) (ops : List (Operation κ α)) :
    (d.run ops).1 = (c.run ops).1 ∧ Twins h₁ h₂ (c.run ops).2 (d.run ops).2 := by
  induction ops generalizing c d with
  | nil => exact ⟨rfl, h⟩
  | cons op rest ih =>
    obtain ⟨houtcome, hnext⟩ := (Oblivious.perform op c d h).attempt
    obtain ⟨houtcomes, hlast⟩ := ih hnext
    exact ⟨congrArg₂ List.cons houtcome.symm houtcomes, hlast⟩

/-- Whatever two hash functions a cache of one configuration is run with, every call of a history has
the same outcome, be it an answer with what is freed or a fault. After the history the generations hold
the same entries in the same order, up to the hashes, the metrics are the same, and the end frees the
same values in the same order. -/
theorem run_independent_of_hasher (config : CacheConfig) (h₁ h₂ : Hasher κ)
    (ops : List (Operation κ α)) :
    ((ofConfig config h₂).run ops).1 = ((ofConfig config h₁).run ops).1 ∧
      (∀ g, ((ofConfig config h₂).run ops).2.contents g =
        (((ofConfig config h₁).run ops).2.contents g).map (Entry.rehash h₂)) ∧
      ((ofConfig config h₂ : Cache κ α).run ops).2.metrics =
        ((ofConfig config h₁ : Cache κ α).run ops).2.metrics ∧
      (freeContents.attempt ((ofConfig config h₂ : Cache κ α).run ops).2).1 =
        (freeContents.attempt ((ofConfig config h₁ : Cache κ α).run ops).2).1 := by
  obtain ⟨houtcomes, htwins⟩ := (twins_ofConfig config h₁ h₂).run ops
  exact ⟨houtcomes, htwins.contents_eq, htwins.metrics,
    (Oblivious.freeContents _ _ htwins).attempt.1.symm⟩

end Cache

end CachePool
