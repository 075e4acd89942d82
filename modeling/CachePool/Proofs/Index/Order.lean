import CachePool.Arena
import CachePool.Proofs.Index.Chains
import CachePool.Proofs.Lockstep

/-!
# The index as a sequence of nodes

The label of a node is the hash and the key that its entry carries; the hash need not
be the one that the index computes for the key. An index answers as the plain sequence
of its nodes does, the most recently added first: a node with a label that no other one
has is added in front, a node of the sequence is taken out in the order of the rest, and
a key is looked up under the label that the index computes. The links that a clear
leaves behind in the nodes are not part of the sequence, and are never followed again.
-/

namespace CachePool

variable {κ α : Type}

/-- What a node with the entry is indexed by. -/
def Entry.label (e : Entry κ α) : UInt64 × κ := (e.hash, e.key)

/-- The label of a node, if it has an entry. -/
def Arena.labelOf (a : Arena κ α) (n : NodeId) : Option (UInt64 × κ) :=
  (a.entries.get n).map Entry.label

/-- A call on the index of an arena. -/
inductive IndexCall (κ : Type) where
  | enrol (n : NodeId)
  | strike (n : NodeId)
  | lookup (key : κ)
  | clear

namespace IndexCall

/-- The call on the arena. -/
def toArena : IndexCall κ → ArenaCall κ
  | .enrol n => .enrol n
  | .strike n => .strike n
  | .lookup key => .lookup key
  | .clear => .clear

/-- The answer to a call on a sequence of nodes with labels, the most recently added first, and the
sequence after it. -/
def onOrder [DecidableEq κ] (hasher : Hasher κ) (labelOf : NodeId → Option (UInt64 × κ)) :
    IndexCall κ → List NodeId → ArenaAnswer × List NodeId
  | .enrol n, order =>
    match labelOf n with
    | none => (.flag false, order)
    | some label =>
      if ∃ m ∈ order, labelOf m = some label then (.flag false, order) else (.flag true, n :: order)
  | .strike n, order =>
    if n ∈ order then (.flag true, order.erase n) else (.flag false, order)
  | .lookup key, order => (.node (order.find? fun n => labelOf n = some (hasher key, key)), order)
  | .clear, _ => (.done, [])

end IndexCall

variable [DecidableEq κ]

namespace KeyIndex

variable {index : KeyIndex κ} {chain : ChainTable} {entries : EntryTable κ α} {n : NodeId}

/-- A refused insertion changes nothing. -/
theorem insert_refused (h : (index.insert chain entries n).1 = false) :
    index.insert chain entries n = (false, index, chain) := by
  unfold insert at h ⊢
  split at h
  · rfl
  · split at h
    · rfl
    · cases h

omit [DecidableEq κ] in
/-- A refused removal changes nothing. -/
theorem erase_refused (h : (index.erase chain entries n).1 = false) :
    index.erase chain entries n = (false, index, chain) := by
  unfold erase at h ⊢
  split at h
  · rfl
  · simp only at h ⊢
    split at h
    · next hpassed => rw [if_pos hpassed]
    · cases h

end KeyIndex

namespace Arena

variable {a : Arena κ α} {order : List NodeId} {hasher : Hasher κ} {buckets : Nat}
  {labelOf : NodeId → Option (UInt64 × κ)} {n : NodeId} {e : Entry κ α} {request : IndexCall κ}

/-- Perform a call on the index. -/
def callIndex (request : IndexCall κ) : Action (Arena κ α) ArenaAnswer := call request.toArena

/-- A node that the index refuses leaves the arena as it was. -/
theorem eq_of_refused (h : ((callIndex request).attempt a).1 = .ok (.flag false)) :
    ((callIndex request).attempt a).2 = a := by
  cases request with
  | enrol n =>
    have hrefused : (a.index.insert a.chain a.entries n).1 = false :=
      ArenaAnswer.flag.inj (Except.ok.inj h)
    simp only [callIndex, IndexCall.toArena, call, Action.attempt,
      KeyIndex.insert_refused hrefused]
  | strike n =>
    have hrefused : (a.index.erase a.chain a.entries n).1 = false :=
      ArenaAnswer.flag.inj (Except.ok.inj h)
    simp only [callIndex, IndexCall.toArena, call, Action.attempt,
      KeyIndex.erase_refused hrefused]
  | lookup key => rfl
  | clear => cases h

omit [DecidableEq κ] in
/-- The label of a node with an entry. -/
theorem labelOf_eq (he : a.entries.get n = some e) : a.labelOf n = some e.label := by
  rw [labelOf, he, Option.map_some]

omit [DecidableEq κ] in
/-- A node has the label of an entry if it has an entry with the same hash and key. -/
theorem labelOf_eq_some_iff {hash : UInt64} {key : κ} :
    a.labelOf n = some (hash, key) ↔
      ∃ e, a.entries.get n = some e ∧ e.hash = hash ∧ e.key = key := by
  simp only [labelOf, Option.map_eq_some_iff, Entry.label, Prod.mk.injEq]

/-- The chains of the arena hold the sequence, under the given hasher, labels and number of
buckets. -/
structure Ordered (hasher : Hasher κ) (labelOf : NodeId → Option (UInt64 × κ)) (buckets : Nat)
    (a : Arena κ α) (order : List NodeId) : Prop where
  hasher : a.index.hasher = hasher
  labels : a.labelOf = labelOf
  buckets : a.index.bucketCount = buckets
  indexes : a.index.Indexes a.chain a.entries.get order

/-- The call answers as the sequence does, and leaves the chains with the sequence after it. -/
def OrderFollows (hasher : Hasher κ) (labelOf : NodeId → Option (UInt64 × κ)) (buckets : Nat)
    (a : Arena κ α) (order : List NodeId) (request : IndexCall κ) : Prop :=
  ∃ a', callIndex request a = .ok (request.onOrder hasher labelOf order).1 a' ∧
    a'.Ordered hasher labelOf buckets (request.onOrder hasher labelOf order).2

/-- A node whose label is free comes in front, and any other is refused. -/
theorem Ordered.enrol (h : a.Ordered hasher labelOf buckets order) (n : NodeId) :
    OrderFollows hasher labelOf buckets a order (.enrol n) := by
  obtain ⟨hhasher, rfl, hbuckets, hindex⟩ := h
  rw [OrderFollows]
  cases he : a.entries.get n with
  | none =>
    have hlabel : a.labelOf n = none := by rw [labelOf, he, Option.map_none]
    have hinsert : a.index.insert a.chain a.entries n = (false, a.index, a.chain) := by
      simp only [KeyIndex.insert, he]
    simp only [callIndex, IndexCall.toArena, call, hinsert, IndexCall.onOrder, hlabel]
    exact ⟨a, rfl, hhasher, rfl, hbuckets, hindex⟩
  | some e =>
    simp only [IndexCall.onOrder, labelOf_eq he]
    split
    · next htaken =>
      obtain ⟨m, hm, hlabel⟩ := htaken
      obtain ⟨d, hd, hhash, hkey⟩ := labelOf_eq_some_iff.mp hlabel
      simp only [callIndex, IndexCall.toArena, call, hindex.insert_known he hm hd hhash hkey]
      exact ⟨a, rfl, hhasher, rfl, hbuckets, hindex⟩
    · next hfree =>
      have hnew : ∀ m ∈ order, ∀ d, a.entries.get m = some d → d.hash = e.hash →
          d.key ≠ e.key := by
        intro m hm d hd hhash hkey
        exact hfree ⟨m, hm, labelOf_eq_some_iff.mpr ⟨d, hd, hhash, hkey⟩⟩
      have hn : n ∉ order := fun hn => hnew n hn e he rfl rfl
      obtain ⟨after, chain, hinsert, hafter⟩ := hindex.insert_new hn he hnew
      simp only [callIndex, IndexCall.toArena, call, hinsert]
      exact ⟨_, rfl, hafter.hasher.trans hhasher, rfl, hafter.bucketCount.trans hbuckets,
        hafter.indexes⟩

/-- A node of the sequence is taken out, and any other is refused. -/
theorem Ordered.strike (h : a.Ordered hasher labelOf buckets order) (n : NodeId) :
    OrderFollows hasher labelOf buckets a order (.strike n) := by
  obtain ⟨hhasher, rfl, hbuckets, hindex⟩ := h
  simp only [OrderFollows, IndexCall.onOrder]
  split
  · next hn =>
    obtain ⟨as, bs, -, rfl, herase⟩ := List.exists_erase_eq hn
    obtain ⟨after, chain, hrun, hafter⟩ := hindex.erase_held
    simp only [callIndex, IndexCall.toArena, call, hrun, herase]
    exact ⟨_, rfl, hafter.hasher.trans hhasher, rfl, hafter.bucketCount.trans hbuckets,
      hafter.indexes⟩
  · next hn =>
    simp only [callIndex, IndexCall.toArena, call, hindex.erase_absent hn]
    exact ⟨a, rfl, hhasher, rfl, hbuckets, hindex⟩

/-- The node of the sequence that has the label which the index computes is found. -/
theorem Ordered.lookup (h : a.Ordered hasher labelOf buckets order) (key : κ) :
    OrderFollows hasher labelOf buckets a order (.lookup key) := by
  obtain ⟨rfl, rfl, hbuckets, hindex⟩ := h
  have hfind : a.index.get? a.chain a.entries key =
      order.find? fun n => a.labelOf n = some (a.index.hasher key, key) := by
    cases hlist : order.find? fun n => a.labelOf n = some (a.index.hasher key, key) with
    | none =>
      rw [List.find?_eq_none] at hlist
      refine hindex.find?_eq_none_iff.mpr fun n hn e he hhash hkey => ?_
      exact hlist n hn (decide_eq_true (labelOf_eq_some_iff.mpr ⟨e, he, hhash, hkey⟩))
    | some n =>
      have hlabel : a.labelOf n = some (a.index.hasher key, key) := by
        simpa using List.find?_some hlist
      exact hindex.find?_eq_some_iff.mpr
        ⟨List.mem_of_find?_eq_some hlist, labelOf_eq_some_iff.mp hlabel⟩
  refine ⟨a, ?_, rfl, rfl, hbuckets, hindex⟩
  simp only [callIndex, IndexCall.toArena, call, IndexCall.onOrder, hfind]

/-- Every call on the index answers as the sequence does. -/
theorem Ordered.follows (h : a.Ordered hasher labelOf buckets order) (request : IndexCall κ) :
    OrderFollows hasher labelOf buckets a order request := by
  cases request with
  | enrol n => exact h.enrol n
  | strike n => exact h.strike n
  | lookup key => exact h.lookup key
  | clear =>
    exact ⟨_, rfl, h.hasher, h.labels, h.buckets, KeyIndex.indexes_clear a.index a.chain _⟩

omit [DecidableEq κ] in
/-- A new index holds nothing. -/
theorem ordered_ofNodes (lists : List RecencyList) (requested : Size) (hasher : Hasher κ)
    (entries : List (Entry κ α)) :
    let start : Arena κ α := .ofNodes lists (.ofBuckets requested hasher) entries
    start.Ordered hasher start.labelOf (bucketsFor requested) [] :=
  ⟨rfl, rfl, rfl, KeyIndex.indexes_nil rfl (fun bucket => Table.get_empty bucket) _ _⟩

/-- Over any number of calls the index answers as the sequence does. -/
theorem Ordered.attemptAll (h : a.Ordered hasher labelOf buckets order)
    (requests : List (IndexCall κ)) :
    let answers := answerAll (IndexCall.onOrder hasher labelOf) requests order
    (Action.attemptAll callIndex requests a).1 = answers.1.map .ok ∧
      (Action.attemptAll callIndex requests a).2.Ordered hasher labelOf buckets answers.2 :=
  attemptAll_eq_answerAll (P := fun _ _ => True) (fun request _ _ h _ => h.follows request) requests
    h (permitted_of_forall (fun _ _ => trivial) requests order)

end Arena

end CachePool
