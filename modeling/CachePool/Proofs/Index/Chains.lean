import Mathlib.Data.List.Nodup
import Mathlib.Data.List.TakeWhile
import Mathlib.Tactic.SplitIfs
import CachePool.Index.Basic
import CachePool.Proofs.Walk

/-!
# Bucket chains as parts of one sequence

An index holds a sequence of nodes, the most recently added first, if the chain of
every bucket is the part of the sequence whose hashes select that bucket. An insertion
puts its node in front, and a removal takes its node out in the order of the rest. If
no two nodes carry the same key under the same hash, a lookup finds the one that
carries what is sought. Of an entry, the index reads the hash and the key only.
-/

namespace CachePool

namespace KeyIndex

variable {κ α : Type}

/-- The node carries a hash that selects the bucket. -/
def inBucket (index : KeyIndex κ) (entries : NodeId → Option (Entry κ α)) (bucket : Nat)
    (n : NodeId) : Bool :=
  (entries n).any fun e => index.bucketOf e.hash = bucket

/-- The chains of the index are the parts of the sequence that belong to their buckets, and no two
nodes of it carry the same key under the same hash. -/
structure Indexes (index : KeyIndex κ) (chain : ChainTable)
    (entries : NodeId → Option (Entry κ α)) (order : List NodeId) : Prop where
  nodup : order.Nodup
  length : index.length = order.length
  stored : ∀ n ∈ order, ∃ e, entries n = some e
  chains : ∀ bucket,
    Path chain.get (order.filter (index.inBucket entries bucket)) (index.heads.get bucket) none
  distinct : ∀ n ∈ order, ∀ m ∈ order, ∀ d e, entries n = some d → entries m = some e →
    d.hash = e.hash → d.key = e.key → n = m

/-- What an insertion or a removal does to an index and its chains: new nodes are held, in as many
buckets under the same hash function. -/
structure Reindexed (before after : KeyIndex κ) (chain : ChainTable)
    (entries : NodeId → Option (Entry κ α)) (order : List NodeId) : Prop where
  indexes : Indexes after chain entries order
  hasher : after.hasher = before.hasher
  bucketCount : after.bucketCount = before.bucketCount

variable {index : KeyIndex κ} {chain : ChainTable} {entries : EntryTable κ α}
  {order as bs : List NodeId} {n : NodeId} {e : Entry κ α}

/-- An index without nodes has empty chains, whatever the links of the nodes are. -/
theorem indexes_nil (h : index.length = 0) (hheads : ∀ bucket, index.heads.get bucket = none)
    (chain : ChainTable) (entries : NodeId → Option (Entry κ α)) :
    Indexes index chain entries [] where
  nodup := List.nodup_nil
  length := h
  stored := by simp
  chains := hheads
  distinct := by simp

/-! ## Chains under given hashes -/

/-- The hash of the node selects the bucket. -/
def selects (index : KeyIndex κ) (hashOf : NodeId → UInt64) (bucket : Nat) (n : NodeId) : Bool :=
  index.bucketOf (hashOf n) = bucket

theorem selects_iff {hashOf : NodeId → UInt64} {bucket : Nat} :
    index.selects hashOf bucket n = true ↔ index.bucketOf (hashOf n) = bucket := decide_eq_true_iff

/-- The chains of the index are the parts of the sequence whose hashes select their buckets. -/
structure Chained (index : KeyIndex κ) (chain : ChainTable) (hashOf : NodeId → UInt64)
    (order : List NodeId) : Prop where
  nodup : order.Nodup
  length : index.length = order.length
  chains : ∀ bucket,
    Path chain.get (order.filter (index.selects hashOf bucket)) (index.heads.get bucket) none

/-- The chains with a node unlinked after the nodes that a removal passed in its bucket. -/
def bypassed (chain : ChainTable) (passed : List NodeId) (n : NodeId) : ChainTable :=
  (match passed.getLast? with
    | none => chain
    | some p => chain.set p (chain.get n)).set n none

/-- Unlinking a node clears its link and hands it to the last node passed. -/
theorem get_bypassed (chain : ChainTable) (passed : List NodeId) (n m : NodeId) :
    (bypassed chain passed n).get m =
      if m = n then none else if passed.getLast? = some m then chain.get n else chain.get m := by
  rw [bypassed, Table.get_set]
  cases passed.getLast? with
  | none => simp
  | some p => simp only [Table.get_set, Option.some.injEq, eq_comm (a := m)]

/-- The heads of the buckets with a node unlinked after the nodes that a removal passed. -/
def headsWithout (index : KeyIndex κ) (chain : ChainTable) (bucket : Nat) (passed : List NodeId)
    (n : NodeId) : Table (Option NodeId) :=
  match passed.getLast? with
  | none => index.heads.set bucket (chain.get n)
  | some _ => index.heads

/-- Unlinking the first node of a bucket makes its successor the head. -/
theorem get_headsWithout (index : KeyIndex κ) (chain : ChainTable) (bucket b : Nat)
    (passed : List NodeId) (n : NodeId) :
    (index.headsWithout chain bucket passed n).get b =
      if b = bucket then Path.startWithout chain.get passed n (index.heads.get bucket)
      else index.heads.get b := by
  unfold headsWithout Path.startWithout
  cases passed.getLast? with
  | none => rw [Table.get_set]
  | some p =>
    by_cases hb : b = bucket
    · rw [if_pos hb, hb]
    · rw [if_neg hb]

/-- The part of a sequence in the bucket of one of its nodes is split by that node. -/
theorem filter_split (index : KeyIndex κ) (hashOf : NodeId → UInt64) (as bs : List NodeId)
    (n : NodeId) :
    (as ++ n :: bs).filter (index.selects hashOf (index.bucketOf (hashOf n))) =
      as.filter (index.selects hashOf (index.bucketOf (hashOf n))) ++
        n :: bs.filter (index.selects hashOf (index.bucketOf (hashOf n))) := by
  rw [List.filter_append, List.filter_cons_of_pos (selects_iff.mpr rfl)]

/-- An index without nodes has empty chains, whatever the links and the hashes of the nodes are. -/
theorem chained_nil (h : index.length = 0) (hheads : ∀ bucket, index.heads.get bucket = none)
    (chain : ChainTable) (hashOf : NodeId → UInt64) : Chained index chain hashOf [] where
  nodup := List.nodup_nil
  length := h
  chains := hheads

namespace Chained

variable {hashOf hashOf' : NodeId → UInt64}

/-- The chains depend on the hashes of their own nodes only. -/
theorem congr (h : Chained index chain hashOf order) (hs : ∀ n ∈ order, hashOf' n = hashOf n) :
    Chained index chain hashOf' order where
  nodup := h.nodup
  length := h.length
  chains := by
    intro bucket
    have hfilter : order.filter (index.selects hashOf' bucket) =
        order.filter (index.selects hashOf bucket) :=
      List.filter_congr fun n hn => by rw [selects, selects, hs n hn]
    rw [hfilter]
    exact h.chains bucket

/-- The walk along a bucket meets its part of the sequence. -/
theorem bucketNodes_eq (h : Chained index chain hashOf order) (bucket : Nat) :
    index.bucketNodes chain bucket = order.filter (index.selects hashOf bucket) := by
  refine (h.chains bucket).follow_eq ?_
  rw [h.length]
  exact List.length_filter_le _ _

/-- The order of the sequence matters within each bucket only, so the held nodes are its members. -/
theorem mem_bucketNodes_iff (h : Chained index chain hashOf order) :
    (∃ bucket, n ∈ index.bucketNodes chain bucket) ↔ n ∈ order := by
  constructor
  · rintro ⟨bucket, hn⟩
    rw [h.bucketNodes_eq] at hn
    exact List.mem_of_mem_filter hn
  · intro hn
    refine ⟨index.bucketOf (hashOf n), ?_⟩
    rw [h.bucketNodes_eq, List.mem_filter]
    exact ⟨hn, selects_iff.mpr rfl⟩

/-- A removal passes the nodes before its own in the bucket and relinks around it. -/
theorem erase_eq (h : Chained index chain hashOf (as ++ n :: bs)) (he : entries.get n = some e)
    (hhash : e.hash = hashOf n) :
    let bucket := index.bucketOf (hashOf n)
    let passed := as.filter (index.selects hashOf bucket)
    index.erase chain entries n = (true,
      { index with
        heads := index.headsWithout chain bucket passed n
        length := index.length - 1 },
      bypassed chain passed n) := by
  intro bucket passed
  have hnot : n ∉ as := by
    have hn := h.nodup
    rw [List.nodup_append] at hn
    exact fun hm => hn.2.2 n hm n List.mem_cons_self rfl
  have hpassed : (index.bucketNodes chain bucket).takeWhile (· ≠ n) = passed := by
    rw [h.bucketNodes_eq, filter_split, List.takeWhile_append_of_pos]
    · simp [passed, bucket]
    · intro m hm
      have hne : m ≠ n := fun hmn => hnot (hmn ▸ List.mem_of_mem_filter hm)
      simpa using hne
  have hlength : passed.length ≠ (index.bucketNodes chain bucket).length := by
    rw [h.bucketNodes_eq, filter_split, List.length_append, List.length_cons]
    exact Nat.ne_of_lt (Nat.lt_add_of_pos_right (Nat.succ_pos _))
  simp only [KeyIndex.erase, he, hhash]
  rw [hpassed, if_neg hlength]
  unfold bypassed headsWithout
  cases passed.getLast? <;> rfl

/-- Unlinking a node leaves the chain of every bucket with the rest of its part. -/
theorem chains_without (h : Chained index chain hashOf (as ++ n :: bs)) (bucket : Nat) :
    let passed := as.filter (index.selects hashOf (index.bucketOf (hashOf n)))
    Path (bypassed chain passed n).get ((as ++ bs).filter (index.selects hashOf bucket))
      ((index.headsWithout chain (index.bucketOf (hashOf n)) passed n).get bucket) none := by
  intro passed
  have hperm : (as ++ n :: bs).Perm (n :: (as ++ bs)) := List.perm_middle
  obtain ⟨hnot, hnodup⟩ := List.nodup_cons.mp (hperm.nodup_iff.mp h.nodup)
  have hne : ∀ m ∈ as ++ bs, m ≠ n := fun m hm hmn => hnot (hmn ▸ hm)
  have hpath := h.chains bucket
  rw [get_headsWithout]
  by_cases hb : bucket = index.bucketOf (hashOf n)
  · subst hb
    rw [filter_split] at hpath
    rw [if_pos rfl, List.filter_append]
    refine hpath.bypass ?_ ?_ ?_
    · intro p hp
      have hpa := List.mem_of_mem_filter (List.mem_of_getLast? hp)
      rw [get_bypassed, if_neg (hne p (List.mem_append_left _ hpa)), if_pos hp]
    · intro m hm hp
      rw [← List.filter_append] at hm
      rw [get_bypassed, if_neg (hne m (List.mem_of_mem_filter hm)), if_neg hp]
    · rw [← List.filter_append]
      exact hnodup.filter _
  · have hout : ¬ index.selects hashOf bucket n := fun hin => hb (selects_iff.mp hin).symm
    rw [List.filter_append, List.filter_cons_of_neg hout, ← List.filter_append] at hpath
    rw [if_neg hb]
    refine hpath.congr fun m hm => ?_
    obtain ⟨hm, hin⟩ := List.mem_filter.mp hm
    rw [get_bypassed, if_neg (hne m hm), if_neg]
    intro hp
    have hin' := (List.mem_filter.mp (List.mem_of_getLast? hp)).2
    exact hb ((selects_iff.mp hin).symm.trans (selects_iff.mp hin'))

/-- A held node is taken out of its chain, in the order of the rest. -/
theorem erase_held (h : Chained index chain hashOf (as ++ n :: bs)) (he : entries.get n = some e)
    (hhash : e.hash = hashOf n) :
    ∃ after chain', index.erase chain entries n = (true, after, chain') ∧
      Chained after chain' hashOf (as ++ bs) ∧ after.hasher = index.hasher ∧
      after.bucketCount = index.bucketCount := by
  have hperm : (as ++ n :: bs).Perm (n :: (as ++ bs)) := List.perm_middle
  refine ⟨_, _, h.erase_eq he hhash,
    ⟨(List.nodup_cons.mp (hperm.nodup_iff.mp h.nodup)).2, ?_, h.chains_without⟩, rfl, rfl⟩
  change index.length - 1 = _
  rw [h.length, hperm.length_eq, List.length_cons]
  rfl

/-- A node that is not held is not taken out, and nothing changes. -/
theorem erase_absent (h : Chained index chain hashOf order) (hn : n ∉ order) :
    index.erase chain entries n = (false, index, chain) := by
  cases he : entries.get n with
  | none => simp only [KeyIndex.erase, he]
  | some e =>
    have hpassed : (index.bucketNodes chain (index.bucketOf e.hash)).takeWhile (· ≠ n) =
        index.bucketNodes chain (index.bucketOf e.hash) := by
      rw [List.takeWhile_eq_self_iff]
      intro m hm
      rw [h.bucketNodes_eq] at hm
      have hne : m ≠ n := fun hmn => hn (hmn ▸ List.mem_of_mem_filter hm)
      simpa using hne
    simp only [KeyIndex.erase, he]
    rw [hpassed, if_pos rfl]

/-- A node comes to the front of the bucket that its hash selects. -/
theorem cons (h : Chained index chain hashOf order) (hn : n ∉ order) :
    Chained
      { index with
        heads := index.heads.set (index.bucketOf (hashOf n)) (some n), length := index.length + 1 }
      (chain.set n (index.heads.get (index.bucketOf (hashOf n)))) hashOf (n :: order) where
  nodup := List.nodup_cons.mpr ⟨hn, h.nodup⟩
  length := by rw [h.length, List.length_cons]
  chains := by
    intro bucket
    have hkeep : Path (chain.set n (index.heads.get (index.bucketOf (hashOf n)))).get
        (order.filter (index.selects hashOf bucket)) (index.heads.get bucket) none := by
      refine (h.chains bucket).congr fun m hm => Table.get_set_ne _ _ ?_
      exact fun hmn => hn (hmn ▸ List.mem_of_mem_filter hm)
    change Path _ (List.filter (index.selects hashOf bucket) (n :: order)) _ _
    by_cases hb : index.bucketOf (hashOf n) = bucket
    · subst hb
      rw [List.filter_cons_of_pos (selects_iff.mpr rfl)]
      simp only [Path.cons_iff, Table.get_set_self, true_and]
      exact hkeep
    · rw [List.filter_cons_of_neg (fun hin => hb (selects_iff.mp hin)), Table.get_set,
        if_neg (fun hb' => hb hb'.symm)]
      exact hkeep

end Chained

/-! ## Chains of the entries -/

/-- The hash of a node that has an entry. -/
def hashIn (entries : NodeId → Option (Entry κ α)) (n : NodeId) : UInt64 :=
  ((entries n).map (·.hash)).getD 0

theorem hashIn_of_get {stored : NodeId → Option (Entry κ α)} (he : stored n = some e) :
    hashIn stored n = e.hash := by
  rw [hashIn, he]
  rfl

/-- Among nodes with entries, the hashes of these decide on the bucket. -/
theorem filter_inBucket {stored : NodeId → Option (Entry κ α)}
    (h : ∀ n ∈ order, ∃ e, stored n = some e) (bucket : Nat) :
    order.filter (index.inBucket stored bucket) =
      order.filter (index.selects (hashIn stored) bucket) := by
  refine List.filter_congr fun n hn => ?_
  obtain ⟨e, he⟩ := h n hn
  rw [inBucket, selects, hashIn_of_get he, he]
  rfl

/-- An index holds a sequence if it is chained by the hashes of the entries, and these are distinct. -/
theorem Chained.indexes {stored : NodeId → Option (Entry κ α)}
    (h : Chained index chain (hashIn stored) order) (hstored : ∀ n ∈ order, ∃ e, stored n = some e)
    (hdistinct : ∀ n ∈ order, ∀ m ∈ order, ∀ d e, stored n = some d → stored m = some e →
      d.hash = e.hash → d.key = e.key → n = m) : Indexes index chain stored order where
  nodup := h.nodup
  length := h.length
  stored := hstored
  chains := fun bucket => by
    rw [filter_inBucket hstored]
    exact h.chains bucket
  distinct := hdistinct

/-- A node whose key is not found becomes the head of its bucket. -/
theorem insert_of_find?_none [DecidableEq κ] (he : entries.get n = some e)
    (h : index.find? chain entries e.hash e.key = none) :
    index.insert chain entries n = (true,
      { index with
        heads := index.heads.set (index.bucketOf e.hash) (some n), length := index.length + 1 },
      chain.set n (index.heads.get (index.bucketOf e.hash))) := by
  simp only [KeyIndex.insert, he, h]

namespace Indexes

/-- An index that holds a sequence is chained by the hashes of the entries. -/
theorem chained {stored : NodeId → Option (Entry κ α)} (h : Indexes index chain stored order) :
    Chained index chain (hashIn stored) order where
  nodup := h.nodup
  length := h.length
  chains := fun bucket => by
    rw [← filter_inBucket h.stored]
    exact h.chains bucket

/-- What an index holds depends on the hashes and the keys of its own nodes only. -/
theorem congr {stored stored' : NodeId → Option (Entry κ α)}
    (h : Indexes index chain stored order)
    (hs : ∀ n ∈ order, ∀ e, stored n = some e →
      ∃ e', stored' n = some e' ∧ e'.hash = e.hash ∧ e'.key = e.key) :
    Indexes index chain stored' order := by
  refine (h.chained.congr fun n hn => ?_).indexes ?_ ?_
  · obtain ⟨e, he⟩ := h.stored n hn
    obtain ⟨e', he', hhash, -⟩ := hs n hn e he
    rw [hashIn_of_get he, hashIn_of_get he', hhash]
  · intro n hn
    obtain ⟨e, he⟩ := h.stored n hn
    obtain ⟨e', he', -⟩ := hs n hn e he
    exact ⟨e', he'⟩
  · intro n hn m hm d' e' hd' he' hhash hkey
    obtain ⟨d, hd⟩ := h.stored n hn
    obtain ⟨e, he⟩ := h.stored m hm
    obtain ⟨d₁, hd₁, hdh, hdk⟩ := hs n hn d hd
    obtain ⟨e₁, he₁, heh, hek⟩ := hs m hm e he
    obtain rfl : d₁ = d' := Option.some.inj (hd₁.symm.trans hd')
    obtain rfl : e₁ = e' := Option.some.inj (he₁.symm.trans he')
    exact h.distinct n hn m hm d e hd he (by rw [← hdh, ← heh, hhash]) (by rw [← hdk, ← hek, hkey])

/-- The held nodes are the members of the sequence. -/
theorem mem_bucketNodes_iff {stored : NodeId → Option (Entry κ α)}
    (h : Indexes index chain stored order) :
    (∃ bucket, n ∈ index.bucketNodes chain bucket) ↔ n ∈ order := h.chained.mem_bucketNodes_iff

/-- A held node is taken out of its chain, in the order of the rest. -/
theorem erase_held (h : Indexes index chain entries.get (as ++ n :: bs)) :
    ∃ after chain', index.erase chain entries n = (true, after, chain') ∧
      Reindexed index after chain' entries.get (as ++ bs) := by
  obtain ⟨e, he⟩ := h.stored n (by simp)
  have hsub : ∀ m ∈ as ++ bs, m ∈ as ++ n :: bs := fun m hm =>
    List.perm_middle.mem_iff.mpr (List.mem_cons_of_mem n hm)
  obtain ⟨after, chain', hrun, hchained, hhasher, hcount⟩ :=
    h.chained.erase_held he (hashIn_of_get he).symm
  refine ⟨after, chain', hrun, hchained.indexes (fun m hm => h.stored m (hsub m hm)) ?_, hhasher,
    hcount⟩
  exact fun m hm k hk d d' hd hd' => h.distinct m (hsub m hm) k (hsub k hk) d d' hd hd'

/-- A node that is not held is not taken out, and nothing changes. -/
theorem erase_absent (h : Indexes index chain entries.get order) (hn : n ∉ order) :
    index.erase chain entries n = (false, index, chain) := h.chained.erase_absent hn

variable [DecidableEq κ]

/-- A lookup finds exactly the held node that carries the key under the hash. -/
theorem find?_eq_some_iff (h : Indexes index chain entries.get order) {hash : UInt64} {key : κ} :
    index.find? chain entries hash key = some n ↔
      n ∈ order ∧ ∃ e, entries.get n = some e ∧ e.hash = hash ∧ e.key = key := by
  rw [find?, h.chained.bucketNodes_eq]
  constructor
  · intro hf
    refine ⟨List.mem_of_mem_filter (List.mem_of_find?_eq_some hf), ?_⟩
    have hc := List.find?_some hf
    unfold carries at hc
    cases he : entries.get n with
    | none => simp [he] at hc
    | some e => exact ⟨e, rfl, by simpa [he] using hc⟩
  · rintro ⟨hn, e, he, rfl, rfl⟩
    have hcarries : carries entries e.hash e.key n = true := by simp [carries, he]
    have hmem : n ∈ order.filter
        (index.selects (hashIn entries.get) (index.bucketOf e.hash)) := by
      rw [List.mem_filter, selects_iff, hashIn_of_get he]
      exact ⟨hn, rfl⟩
    obtain ⟨m, hm⟩ := Option.isSome_iff_exists.mp (List.find?_isSome.mpr ⟨n, hmem, hcarries⟩)
    have hc := List.find?_some hm
    have hmo := List.mem_of_mem_filter (List.mem_of_find?_eq_some hm)
    unfold carries at hc
    obtain ⟨d, hd⟩ := h.stored m hmo
    rw [hd] at hc
    simp only [decide_eq_true_eq] at hc
    rw [hm, h.distinct m hmo n hn d e hd he hc.1 hc.2]

/-- A lookup finds nothing exactly if no held node carries the key under the hash. -/
theorem find?_eq_none_iff (h : Indexes index chain entries.get order) {hash : UInt64} {key : κ} :
    index.find? chain entries hash key = none ↔
      ∀ n ∈ order, ∀ e, entries.get n = some e → e.hash = hash → e.key ≠ key := by
  rw [Option.eq_none_iff_forall_ne_some]
  constructor
  · intro hf n hn e he hhash hkey
    exact hf n (h.find?_eq_some_iff.mpr ⟨hn, e, he, hhash, hkey⟩)
  · intro hf n hs
    obtain ⟨hn, e, he, hhash, hkey⟩ := h.find?_eq_some_iff.mp hs
    exact hf n hn e he hhash hkey

/-- A node with a new key is indexed in front of the others. -/
theorem insert_new (h : Indexes index chain entries.get order) (hn : n ∉ order)
    (he : entries.get n = some e)
    (hnew : ∀ m ∈ order, ∀ d, entries.get m = some d → d.hash = e.hash → d.key ≠ e.key) :
    ∃ after chain', index.insert chain entries n = (true, after, chain') ∧
      Reindexed index after chain' entries.get (n :: order) := by
  have hinsert := insert_of_find?_none he (h.find?_eq_none_iff.mpr hnew)
  have hchained := h.chained.cons hn
  rw [hashIn_of_get he] at hchained
  refine ⟨_, _, hinsert, hchained.indexes ?_ ?_, rfl, rfl⟩
  · intro m hm
    rcases List.mem_cons.mp hm with rfl | hm
    · exact ⟨e, he⟩
    · exact h.stored m hm
  · have hcross : ∀ m ∈ order, ∀ d, entries.get m = some d → d.hash = e.hash → d.key = e.key →
        False := fun m hm d hd hhash hkey => hnew m hm d hd hhash hkey
    intro m hm k hk d d' hd hd' hhash hkey
    by_cases hmn : m = n <;> by_cases hkn : k = n
    · rw [hmn, hkn]
    · subst hmn
      obtain rfl : e = d := Option.some.inj (he.symm.trans hd)
      exact (hcross k (List.mem_of_ne_of_mem hkn hk) d' hd' hhash.symm hkey.symm).elim
    · subst hkn
      obtain rfl : e = d' := Option.some.inj (he.symm.trans hd')
      exact (hcross m (List.mem_of_ne_of_mem hmn hm) d hd hhash hkey).elim
    · exact h.distinct m (List.mem_of_ne_of_mem hmn hm) k (List.mem_of_ne_of_mem hkn hk) d d' hd
        hd' hhash hkey

/-- A node whose key is indexed under its hash is refused, and nothing changes. -/
theorem insert_known (h : Indexes index chain entries.get order) (he : entries.get n = some e)
    {m : NodeId} (hm : m ∈ order) {d : Entry κ α} (hd : entries.get m = some d)
    (hhash : d.hash = e.hash) (hkey : d.key = e.key) :
    index.insert chain entries n = (false, index, chain) := by
  have hfound := h.find?_eq_some_iff.mpr ⟨hm, d, hd, hhash, hkey⟩
  simp only [KeyIndex.insert, he, hfound]

end Indexes

/-- An insertion writes the link of its own node only. -/
theorem get_insert_of_ne [DecidableEq κ] (index : KeyIndex κ) (chain : ChainTable)
    (entries : EntryTable κ α) {m : NodeId} (hm : m ≠ n) :
    (index.insert chain entries n).2.2.get m = chain.get m := by
  cases he : entries.get n with
  | none => simp only [insert, he]
  | some e =>
    cases hfound : index.find? chain entries e.hash e.key with
    | none =>
      rw [insert_of_find?_none he hfound]
      exact Table.get_set_ne _ _ hm
    | some _ => simp only [insert, he, hfound]

/-- A removal writes the links of its own node and of one that it passes in a bucket. -/
theorem get_erase_of_ne (index : KeyIndex κ) (chain : ChainTable) (entries : EntryTable κ α)
    {m : NodeId} (hm : m ≠ n) (hpassed : ∀ bucket, m ∉ index.bucketNodes chain bucket) :
    (index.erase chain entries n).2.2.get m = chain.get m := by
  unfold erase
  cases entries.get n with
  | none => rfl
  | some e =>
    simp only
    split
    · rfl
    · cases hlast :
          ((index.bucketNodes chain (index.bucketOf e.hash)).takeWhile (· ≠ n)).getLast? with
      | none => exact Table.get_set_ne _ _ hm
      | some p =>
        have hp : m ≠ p := by
          rintro rfl
          have hmem := List.mem_of_getLast? hlast
          exact hpassed _ ((List.takeWhile_sublist _).mem hmem)
        simp only
        rw [Table.get_set_ne _ _ hm, Table.get_set_ne _ _ hp]

/-- A node that is taken out is left without a link. -/
theorem get_erase_self (index : KeyIndex κ) (chain : ChainTable) (entries : EntryTable κ α)
    (h : (index.erase chain entries n).1 = true) :
    (index.erase chain entries n).2.2.get n = none := by
  unfold erase at h ⊢
  cases he : entries.get n with
  | none =>
    rw [he] at h
    cases h
  | some e =>
    rw [he] at h
    simp only at h ⊢
    split at h
    · cases h
    · next hfound =>
      rw [if_neg hfound]
      exact Table.get_set_self _ _ _

/-- A cleared index holds nothing, although the links of its nodes stay. -/
theorem indexes_clear (index : KeyIndex κ) (chain : ChainTable)
    (entries : NodeId → Option (Entry κ α)) : Indexes index.clear chain entries [] :=
  indexes_nil rfl (fun bucket => Table.get_empty bucket) chain entries

end KeyIndex

end CachePool
