import CachePool.Proofs.Index.Shape

/-!
# Buckets in range

An index looks at the bucket of a hash and at no other, and the low bits of a hash are
always below the number of buckets. So the heads beyond the last bucket are neither
written nor read: they stay empty in every history, and if they were not, every call
would be answered alike.
-/

namespace CachePool

variable {κ α : Type}

namespace KeyIndex

variable {index index' : KeyIndex κ} {chain : ChainTable} {entries : EntryTable κ α}

/-- Two indexes are alike but for heads beyond the last bucket. -/
structure SameInRange (index index' : KeyIndex κ) : Prop where
  pos : 0 < index.bucketCount
  hasher : index'.hasher = index.hasher
  bucketCount : index'.bucketCount = index.bucketCount
  length : index'.length = index.length
  heads : ∀ bucket < index.bucketCount, index'.heads.get bucket = index.heads.get bucket

namespace SameInRange

/-- A hash selects the same bucket. -/
theorem bucketOf_eq (h : SameInRange index index') (hash : UInt64) :
    index'.bucketOf hash = index.bucketOf hash := by
  rw [bucketOf, bucketOf, h.bucketCount]

/-- The bucket of a hash has the same head. -/
theorem head_eq (h : SameInRange index index') (hash : UInt64) :
    index'.heads.get (index.bucketOf hash) = index.heads.get (index.bucketOf hash) :=
  h.heads _ (bucketOf_lt h.pos hash)

/-- A walk along the bucket of a hash meets the same nodes. -/
theorem bucketNodes_eq (h : SameInRange index index') (chain : ChainTable) (hash : UInt64) :
    index'.bucketNodes chain (index.bucketOf hash) =
      index.bucketNodes chain (index.bucketOf hash) := by
  rw [bucketNodes, bucketNodes, h.length, h.head_eq]

/-- After the same write to a bucket, and with the same new length, the indexes are still alike. -/
theorem set (h : SameInRange index index') (bucket : Nat) (head : Option NodeId) (length : Nat) :
    SameInRange { index with heads := index.heads.set bucket head, length }
      { index' with heads := index'.heads.set bucket head, length } where
  pos := h.pos
  hasher := h.hasher
  bucketCount := h.bucketCount
  length := rfl
  heads := by
    intro other hother
    rw [Table.get_set, Table.get_set]
    split
    · rfl
    · exact h.heads other hother

/-- With the same new length, the indexes are still alike. -/
theorem resize (h : SameInRange index index') (length : Nat) :
    SameInRange { index with length } { index' with length } :=
  ⟨h.pos, h.hasher, h.bucketCount, rfl, h.heads⟩

theorem clear (h : SameInRange index index') : SameInRange index.clear index'.clear :=
  ⟨h.pos, h.hasher, h.bucketCount, rfl, fun _ _ => rfl⟩

/-- The same node is taken out, or refused. -/
theorem erase (h : SameInRange index index') (chain : ChainTable) (entries : EntryTable κ α)
    (n : NodeId) : ∃ answer after after' chain',
      index.erase chain entries n = (answer, after, chain') ∧
        index'.erase chain entries n = (answer, after', chain') ∧ SameInRange after after' := by
  simp only [KeyIndex.erase]
  cases entries.get n with
  | none => exact ⟨_, _, _, _, rfl, rfl, h⟩
  | some e =>
    simp only [h.bucketOf_eq, h.bucketNodes_eq, h.length]
    split
    · exact ⟨_, _, _, _, rfl, rfl, h⟩
    · split
      · exact ⟨_, _, _, _, rfl, rfl, h.set _ _ _⟩
      · exact ⟨_, _, _, _, rfl, rfl, h.resize _⟩

variable [DecidableEq κ]

/-- The same node is found. -/
theorem find?_eq (h : SameInRange index index') (chain : ChainTable) (entries : EntryTable κ α)
    (hash : UInt64) (key : κ) :
    index'.find? chain entries hash key = index.find? chain entries hash key := by
  rw [KeyIndex.find?, KeyIndex.find?, h.bucketOf_eq, h.bucketNodes_eq]

/-- The same node is added, or refused. -/
theorem insert (h : SameInRange index index') (chain : ChainTable) (entries : EntryTable κ α)
    (n : NodeId) : ∃ answer after after' chain',
      index.insert chain entries n = (answer, after, chain') ∧
        index'.insert chain entries n = (answer, after', chain') ∧ SameInRange after after' := by
  simp only [KeyIndex.insert]
  cases entries.get n with
  | none => exact ⟨_, _, _, _, rfl, rfl, h⟩
  | some e =>
    simp only [h.find?_eq]
    split
    · exact ⟨_, _, _, _, rfl, rfl, h⟩
    · simp only [h.bucketOf_eq, h.head_eq, h.length]
      exact ⟨_, _, _, _, rfl, rfl, h.set _ _ _⟩

end SameInRange

end KeyIndex

namespace Arena

variable [DecidableEq κ] {a b : Arena κ α}

/-- Two arenas whose indexes read the same, but for heads beyond the last bucket. -/
structure SameBuckets (a b : Arena κ α) : Prop where
  index : a.index.SameInRange b.index
  chain : b.chain = a.chain
  entries : b.entries = a.entries

/-- A call on the index is answered alike, and leaves it alike. -/
theorem SameBuckets.callIndex (h : SameBuckets a b) (request : IndexCall κ) :
    Lockstep SameBuckets (callIndex request a) (callIndex request b) := by
  obtain ⟨hindex, hchain, hentries⟩ := h
  cases request with
  | enrol n =>
    obtain ⟨answer, after, after', chain, ha, hb, hafter⟩ := hindex.insert a.chain a.entries n
    simp only [Arena.callIndex, IndexCall.toArena, call, hchain, hentries, ha, hb]
    exact .ok ⟨hafter, rfl, rfl⟩
  | strike n =>
    obtain ⟨answer, after, after', chain, ha, hb, hafter⟩ := hindex.erase a.chain a.entries n
    simp only [Arena.callIndex, IndexCall.toArena, call, hchain, hentries, ha, hb]
    exact .ok ⟨hafter, rfl, rfl⟩
  | lookup key =>
    have hget : b.index.get? b.chain b.entries key = a.index.get? a.chain a.entries key := by
      rw [KeyIndex.get?, KeyIndex.get?, hindex.hasher, hchain, hentries, hindex.find?_eq]
    simp only [Arena.callIndex, IndexCall.toArena, call, hget]
    exact .ok ⟨hindex, hchain, hentries⟩
  | clear => exact .ok ⟨hindex.clear, hchain, hentries⟩

omit [DecidableEq κ] in
/-- Where an index has chains for its buckets, there are no heads beyond the last one. -/
theorem Ordered.heads_eq_none {hasher : Hasher κ} {labelOf : NodeId → Option (UInt64 × κ)}
    {buckets bucket : Nat} {order : List NodeId} (h : a.Ordered hasher labelOf buckets order)
    (hpos : 0 < buckets) (hbucket : buckets ≤ bucket) : a.index.heads.get bucket = none := by
  have hnone : order.filter (a.index.inBucket a.entries.get bucket) = [] := by
    refine List.filter_eq_nil_iff.mpr fun n _ hin => ?_
    obtain ⟨e, -, he⟩ := (Option.any_eq_true _ _).mp hin
    have hlt := KeyIndex.bucketOf_lt (h.buckets ▸ hpos) e.hash
    rw [of_decide_eq_true he, h.buckets] at hlt
    omega
  have hpath := h.indexes.chains bucket
  rwa [hnone] at hpath

/-- The index has the buckets, a mask selects them, and the heads beyond the last bucket are neither
written nor read. -/
structure StaysInRange (a : Arena κ α) (count : UInt64) : Prop where
  bucketCount : a.index.bucketCount = count.toNat
  selects : a.index.SelectsByMask count
  untouched : ∀ bucket, count.toNat ≤ bucket → a.index.heads.get bucket = none
  /-- Whatever stands beyond the last bucket, all calls from here on are answered alike. -/
  blind : ∀ heads : Table (Option NodeId),
    (∀ bucket < count.toNat, heads.get bucket = a.index.heads.get bucket) → ∀ requests,
      (Action.attemptAll callIndex requests { a with index := { a.index with heads } }).1 =
        (Action.attemptAll callIndex requests a).1

/-- An index that holds a sequence in the buckets of a request stays in range. -/
theorem Ordered.staysInRange {hasher : Hasher κ} {labelOf : NodeId → Option (UInt64 × κ)}
    {requested : Size} {order : List NodeId}
    (h : a.Ordered hasher labelOf (bucketsFor requested) order) :
    a.StaysInRange (bucketsWord requested) := by
  have hpos := bucketsFor_pos requested
  have hcount := (meetsRequest_bucketsWord requested).buckets
  refine ⟨h.buckets.trans hcount, KeyIndex.selectsByMask h.buckets, ?_, ?_⟩
  · intro bucket hbucket
    exact h.heads_eq_none hpos (hcount ▸ hbucket)
  · intro heads hheads requests
    rw [← hcount, ← h.buckets] at hheads
    have hsame : SameBuckets a { a with index := { a.index with heads } } :=
      ⟨⟨h.buckets ▸ hpos, rfl, rfl, rfl, hheads⟩, rfl, rfl⟩
    have hlockstep := Lockstep.attemptAll (fun request _ _ h => SameBuckets.callIndex h request)
      requests hsame
    exact hlockstep.1.symm

/-- Every request for buckets is met exactly, over the whole range of words; and in every history of
an index that is made for the request, a hash selects its bucket by a mask, as the rest of the hash
modulo the number of buckets, and no other bucket is ever looked at. -/
theorem run_stays_in_range (lists : List RecencyList) (requested : Size) (hasher : Hasher κ)
    (entries : List (Entry κ α)) (calls : List (IndexCall κ)) :
    MeetsRequest requested (bucketsWord requested) ∧
      (afterCalls (.ofNodes lists (.ofBuckets requested hasher) entries) calls).StaysInRange
        (bucketsWord requested) := by
  have hstart := ordered_ofNodes lists requested hasher entries
  exact ⟨meetsRequest_bucketsWord requested, (hstart.afterCalls calls).staysInRange⟩

/-- The largest request is cut to half of the words, and a hash of all ones goes to the last
bucket. -/
example :
    let largest : Size := ⟨UInt64.size - 1, by decide, by decide⟩
    bucketsWord largest = 0x8000000000000000 ∧
      bucketWord (bucketsWord largest) 0xffffffffffffffff = .ok 0x7fffffffffffffff :=
  ⟨by decide, rfl⟩

end Arena

end CachePool
