import Mathlib.Algebra.BigOperators.Group.Finset.Piecewise
import Mathlib.Data.List.Induction
import Mathlib.Data.Nat.ModEq
import CachePool.Proofs.Index.Buckets
import CachePool.Proofs.Index.Order

/-!
# The links of the nodes

The history of an index fixes the link of every node. The nodes that are indexed are
chained, each bucket on its own, from the most to the least recently added. A node that
is not indexed keeps the link with which it left: none if it was taken out, and the one
that it had if the index was cleared. Such a link may lead to a node that is indexed
again by now, in another place; but only links of indexed nodes are ever followed, so
what the others hold makes no difference to any answer.
-/

namespace CachePool

variable {κ α : Type} {labelOf : NodeId → Option (UInt64 × κ)} {order : List NodeId} {n : NodeId}
  {buckets bucket : Nat}

/-- The node carries a hash that is congruent to the bucket, modulo the number of buckets. -/
def congruentTo (labelOf : NodeId → Option (UInt64 × κ)) (buckets bucket : Nat) (n : NodeId) :
    Bool :=
  (labelOf n).any fun label => label.1.toNat ≡ bucket [MOD buckets]

/-- The hash of a node is congruent to its rest only. -/
theorem congruentTo_iff {label : UInt64 × κ} (hlabel : labelOf n = some label)
    (hbucket : bucket < buckets) :
    congruentTo labelOf buckets bucket n = true ↔ label.1.toNat % buckets = bucket := by
  rw [congruentTo, hlabel, Option.any_some, decide_eq_true_eq, Nat.ModEq, Nat.mod_eq_of_lt hbucket]

/-- The parts of a sequence in the buckets add up to the whole. -/
theorem sum_length_filter_congruentTo (h : ∀ n ∈ order, ∃ label, labelOf n = some label)
    (hpos : 0 < buckets) :
    ∑ bucket ∈ Finset.range buckets, (order.filter (congruentTo labelOf buckets bucket)).length =
      order.length := by
  induction order with
  | nil => simp
  | cons n order ih =>
    obtain ⟨label, hlabel⟩ := h n List.mem_cons_self
    have hcons : ∀ bucket ∈ Finset.range buckets,
        ((n :: order).filter (congruentTo labelOf buckets bucket)).length =
          (order.filter (congruentTo labelOf buckets bucket)).length +
            if label.1.toNat % buckets = bucket then 1 else 0 := by
      intro bucket hbucket
      have hiff := congruentTo_iff hlabel (Finset.mem_range.mp hbucket)
      by_cases hin : label.1.toNat % buckets = bucket
      · rw [List.filter_cons_of_pos (hiff.mpr hin), if_pos hin, List.length_cons]
      · rw [List.filter_cons_of_neg (mt hiff.mp hin), if_neg hin, Nat.add_zero]
    rw [Finset.sum_congr rfl hcons, Finset.sum_add_distrib,
      ih fun m hm => h m (List.mem_cons_of_mem n hm), Finset.sum_ite_eq,
      if_pos (Finset.mem_range.mpr (Nat.mod_lt _ hpos)), List.length_cons]

variable [DecidableEq κ]

namespace IndexCall

variable {hasher : Hasher κ} {request : IndexCall κ}

/-- A node that is added comes in front of the others. -/
theorem onOrder_enrol (h : (onOrder hasher labelOf (.enrol n) order).1 = .flag true) :
    (onOrder hasher labelOf (.enrol n) order).2 = n :: order := by
  simp only [onOrder] at h ⊢
  split at h
  · simp at h
  · split at h
    · simp at h
    · next hfree => rw [if_neg hfree]

/-- A node that is not in the sequence after it was to be added was refused. -/
theorem onOrder_enrol_refused (h : n ∉ (onOrder hasher labelOf (.enrol n) order).2) :
    (onOrder hasher labelOf (.enrol n) order).1 = .flag false := by
  simp only [onOrder] at h ⊢
  split
  · rfl
  · split
    · rfl
    · next hlabel hfree =>
      rw [hlabel] at h
      simp [hfree] at h

/-- The sequence after a node was to be taken out is without it, and in the same order. -/
theorem onOrder_strike (hasher : Hasher κ) (labelOf : NodeId → Option (UInt64 × κ)) (n : NodeId)
    (order : List NodeId) : (onOrder hasher labelOf (.strike n) order).2 = order.erase n := by
  simp only [onOrder]
  split
  · rfl
  · next hn => exact (List.erase_of_not_mem hn).symm

/-- A node leaves the sequence when it is taken out, or together with all others. -/
theorem eq_strike_or_clear (hn : n ∈ order) (hout : n ∉ (request.onOrder hasher labelOf order).2) :
    request = .strike n ∨ request = .clear := by
  cases request with
  | enrol m =>
    refine absurd ?_ hout
    simp only [onOrder]
    split
    · exact hn
    · split
      · exact hn
      · exact List.mem_cons_of_mem m hn
  | strike m =>
    rw [onOrder_strike] at hout
    by_cases hm : n = m
    · exact Or.inl (hm ▸ rfl)
    · exact absurd ((List.mem_erase_of_ne hm).mpr hn) hout
  | lookup key => exact absurd hn hout
  | clear => exact Or.inr rfl

end IndexCall

namespace Arena

variable {a : Arena κ α} {hasher : Hasher κ} {request : IndexCall κ} {requested : Size}

/-- The nodes that a walk along a bucket visits. -/
def chainOf (a : Arena κ α) (bucket : Nat) : List NodeId := a.index.bucketNodes a.chain bucket

/-- The chains of the arena show the sequence, the most recently added node first. -/
structure ShowsOrder (labelOf : NodeId → Option (UInt64 × κ)) (buckets : Nat) (a : Arena κ α)
    (order : List NodeId) : Prop where
  labels : a.labelOf = labelOf
  bucketCount : a.index.bucketCount = buckets
  once : order.Nodup
  length : a.index.length = order.length
  /-- From the head of a bucket, the links lead along the nodes whose hashes are congruent to it,
  and come to an end. -/
  links : ∀ bucket < buckets, Path a.chain.get (order.filter (congruentTo labelOf buckets bucket))
    (a.index.heads.get bucket) none
  /-- A walk visits these nodes and no others. -/
  visits : ∀ bucket < buckets, a.chainOf bucket = order.filter (congruentTo labelOf buckets bucket)
  apart : ∀ bucket < buckets, ∀ bucket' < buckets, bucket ≠ bucket' →
    (a.chainOf bucket).Disjoint (a.chainOf bucket')
  total : ∑ bucket ∈ Finset.range buckets, (a.chainOf bucket).length = a.index.length
  /-- A node that is added next comes in front of the chain of its bucket. -/
  added : ∀ n, ((callIndex (.enrol n)).attempt a).1 = .ok (.flag true) → ∀ bucket < buckets,
    ((callIndex (.enrol n)).attempt a).2.chainOf bucket =
      if congruentTo labelOf buckets bucket n then n :: a.chainOf bucket else a.chainOf bucket
  /-- A node that is taken out next leaves the others in order. -/
  removed : ∀ n, ∀ bucket < buckets,
    ((callIndex (.strike n)).attempt a).2.chainOf bucket = (a.chainOf bucket).erase n
  /-- Whatever the links of the other nodes are, all calls from here on are answered alike. -/
  blind : ∀ chain : ChainTable, (∀ n ∈ order, chain.get n = a.chain.get n) → ∀ requests,
    (Action.attemptAll callIndex requests { a with chain }).1 =
      (Action.attemptAll callIndex requests a).1

namespace Ordered

/-- The arena after a call holds the sequence after it. -/
theorem attempt (h : a.Ordered hasher labelOf buckets order) (request : IndexCall κ) :
    ((callIndex request).attempt a).1 = .ok (request.onOrder hasher labelOf order).1 ∧
      ((callIndex request).attempt a).2.Ordered hasher labelOf buckets
        (request.onOrder hasher labelOf order).2 := by
  obtain ⟨a', hcall, hafter⟩ := h.follows request
  rw [Action.attempt_ok hcall]
  exact ⟨rfl, hafter⟩

omit [DecidableEq κ]

/-- The nodes of a sequence have labels. -/
theorem stored (h : a.Ordered hasher labelOf buckets order) :
    ∀ n ∈ order, ∃ label, labelOf n = some label := by
  intro n hn
  obtain ⟨e, he⟩ := h.indexes.stored n hn
  exact ⟨e.label, h.labels ▸ labelOf_eq he⟩

/-- A bucket is selected by the hashes that are congruent to it. -/
theorem inBucket_eq (h : a.Ordered hasher labelOf (bucketsFor requested) order)
    (hbucket : bucket < bucketsFor requested) :
    a.index.inBucket a.entries.get bucket = congruentTo labelOf (bucketsFor requested) bucket := by
  funext n
  rw [← h.labels, KeyIndex.inBucket, congruentTo, Arena.labelOf, Option.any_map]
  refine congrArg (fun p => (a.entries.get n).any p) (funext fun e => ?_)
  refine decide_eq_decide.mpr ?_
  rw [KeyIndex.bucketOf_eq_mod h.buckets, h.buckets, Nat.ModEq, Nat.mod_eq_of_lt hbucket]
  rfl

theorem links (h : a.Ordered hasher labelOf (bucketsFor requested) order)
    (hbucket : bucket < bucketsFor requested) :
    Path a.chain.get (order.filter (congruentTo labelOf (bucketsFor requested) bucket))
      (a.index.heads.get bucket) none := by
  rw [← h.inBucket_eq hbucket]
  exact h.indexes.chains bucket

theorem chainOf_eq (h : a.Ordered hasher labelOf (bucketsFor requested) order)
    (hbucket : bucket < bucketsFor requested) :
    a.chainOf bucket = order.filter (congruentTo labelOf (bucketsFor requested) bucket) := by
  refine (h.links hbucket).follow_eq ?_
  rw [h.indexes.length]
  exact List.length_filter_le _ _

/-- The chains are the same whatever the links of the nodes are that are not indexed. -/
theorem relink (h : a.Ordered hasher labelOf buckets order) {chain : ChainTable}
    (hchain : ∀ n ∈ order, chain.get n = a.chain.get n) :
    Ordered hasher labelOf buckets { a with chain } order where
  hasher := h.hasher
  labels := h.labels
  buckets := h.buckets
  indexes := {
    nodup := h.indexes.nodup
    length := h.indexes.length
    stored := h.indexes.stored
    chains := fun bucket =>
      (h.indexes.chains bucket).congr fun n hn => hchain n (List.mem_of_mem_filter hn)
    distinct := h.indexes.distinct }

end Ordered

/-- An arena that holds a sequence in its index shows it. -/
theorem Ordered.showsOrder (h : a.Ordered hasher labelOf (bucketsFor requested) order) :
    a.ShowsOrder labelOf (bucketsFor requested) order := by
  constructor
  case labels => exact h.labels
  case bucketCount => exact h.buckets
  case once => exact h.indexes.nodup
  case length => exact h.indexes.length
  case links => exact fun bucket => h.links
  case visits => exact fun bucket => h.chainOf_eq
  case apart =>
    intro bucket hbucket bucket' hbucket' hne
    rw [h.chainOf_eq hbucket, h.chainOf_eq hbucket']
    intro n hn hn'
    obtain ⟨hmem, hin⟩ := List.mem_filter.mp hn
    obtain ⟨-, hin'⟩ := List.mem_filter.mp hn'
    obtain ⟨label, hlabel⟩ := h.stored n hmem
    rw [congruentTo_iff hlabel hbucket] at hin
    rw [congruentTo_iff hlabel hbucket'] at hin'
    exact hne (hin.symm.trans hin')
  case total =>
    have hparts : ∀ bucket ∈ Finset.range (bucketsFor requested), (a.chainOf bucket).length =
        (order.filter (congruentTo labelOf (bucketsFor requested) bucket)).length :=
      fun bucket hbucket => congrArg List.length (h.chainOf_eq (Finset.mem_range.mp hbucket))
    rw [Finset.sum_congr rfl hparts,
      sum_length_filter_congruentTo h.stored (bucketsFor_pos requested), h.indexes.length]
  case added =>
    intro n hadded bucket hbucket
    obtain ⟨hanswer, hafter⟩ := h.attempt (.enrol n)
    have hfront := IndexCall.onOrder_enrol (Except.ok.inj (hanswer.symm.trans hadded))
    rw [hafter.chainOf_eq hbucket, h.chainOf_eq hbucket, hfront, List.filter_cons]
  case removed =>
    intro n bucket hbucket
    obtain ⟨-, hafter⟩ := h.attempt (.strike n)
    rw [hafter.chainOf_eq hbucket, h.chainOf_eq hbucket, IndexCall.onOrder_strike,
      h.indexes.nodup.erase_eq_filter, (h.indexes.nodup.filter _).erase_eq_filter,
      List.filter_comm]
  case blind =>
    intro chain hchain requests
    rw [((h.relink hchain).attemptAll requests).1, (h.attemptAll requests).1]

/-- A call keeps the link of a node that is not indexed before it nor after it. -/
theorem Ordered.chain_attempt (h : a.Ordered hasher labelOf buckets order) (hn : n ∉ order)
    (hout : n ∉ (request.onOrder hasher labelOf order).2) :
    ((callIndex request).attempt a).2.chain.get n = a.chain.get n := by
  obtain ⟨hanswer, -⟩ := h.attempt request
  cases request with
  | enrol m =>
    by_cases hm : n = m
    · subst hm
      rw [IndexCall.onOrder_enrol_refused hout] at hanswer
      rw [eq_of_refused hanswer]
    · exact KeyIndex.get_insert_of_ne a.index a.chain a.entries hm
  | strike m =>
    by_cases hm : n = m
    · subst hm
      simp only [IndexCall.onOrder, if_neg hn] at hanswer
      rw [eq_of_refused hanswer]
    · refine KeyIndex.get_erase_of_ne a.index a.chain a.entries hm fun bucket hmem => ?_
      exact hn (h.indexes.mem_bucketNodes_iff.mp ⟨bucket, hmem⟩)
  | lookup key => rfl
  | clear => rfl

/-- A node that is taken out is left without a link. -/
theorem Ordered.chain_strike (h : a.Ordered hasher labelOf buckets order) (hn : n ∈ order) :
    ((callIndex (.strike n)).attempt a).2.chain.get n = none := by
  obtain ⟨hanswer, -⟩ := h.attempt (.strike n)
  simp only [IndexCall.onOrder, if_pos hn] at hanswer
  exact KeyIndex.get_erase_self a.index a.chain a.entries
    (ArenaAnswer.flag.inj (Except.ok.inj hanswer))

variable {start : Arena κ α} {calls past later : List (IndexCall κ)} {call : IndexCall κ}

/-- The arena after calls on its index. -/
def afterCalls (start : Arena κ α) (calls : List (IndexCall κ)) : Arena κ α :=
  (Action.attemptAll callIndex calls start).2

/-- The nodes that calls on a new index leave in it, the most recently added first. -/
def indexedAfter (start : Arena κ α) (calls : List (IndexCall κ)) : List NodeId :=
  (answerAll (IndexCall.onOrder start.index.hasher start.labelOf) calls []).2

theorem afterCalls_concat (start : Arena κ α) (calls : List (IndexCall κ)) (call : IndexCall κ) :
    start.afterCalls (calls ++ [call]) = ((callIndex call).attempt (start.afterCalls calls)).2 := by
  rw [afterCalls, Action.attemptAll_concat]
  rfl

theorem indexedAfter_concat (start : Arena κ α) (calls : List (IndexCall κ)) (call : IndexCall κ) :
    start.indexedAfter (calls ++ [call]) =
      (call.onOrder start.index.hasher start.labelOf (start.indexedAfter calls)).2 := by
  rw [indexedAfter, answerAll_append]
  rfl

/-- The node is not indexed from the end of the past calls on. -/
def StaysOut (start : Arena κ α) (past later : List (IndexCall κ)) (n : NodeId) : Prop :=
  ∀ first, first <+: later → n ∉ start.indexedAfter (past ++ first)

theorem staysOut_nil (h : n ∉ start.indexedAfter past) : StaysOut start past [] n := by
  intro first hfirst
  rw [List.prefix_nil.mp hfirst, List.append_nil]
  exact h

theorem StaysOut.concat (h : StaysOut start past later n)
    (hout : n ∉ start.indexedAfter (past ++ (later ++ [call]))) :
    StaysOut start past (later ++ [call]) n := by
  intro first hfirst
  rcases List.prefix_concat_iff.mp hfirst with rfl | hfirst
  · exact hout
  · exact h first hfirst

/-- How a node that is not indexed after calls on a new index comes to its link. -/
inductive LinkLeft (start : Arena κ α) (calls : List (IndexCall κ)) (n : NodeId) : Prop
  /-- It was never indexed, and has none. -/
  | never (out : StaysOut start [] calls n) (link : (start.afterCalls calls).chain.get n = none)
  /-- It was taken out at last, and has none. -/
  | removed (past later : List (IndexCall κ)) (split : calls = past ++ .strike n :: later)
    (held : n ∈ start.indexedAfter past) (out : StaysOut start (past ++ [.strike n]) later n)
    (link : (start.afterCalls calls).chain.get n = none)
  /-- It left with all others at last, and has the link that it had then. -/
  | cleared (past later : List (IndexCall κ)) (split : calls = past ++ .clear :: later)
    (held : n ∈ start.indexedAfter past) (out : StaysOut start (past ++ [.clear]) later n)
    (link : (start.afterCalls calls).chain.get n = (start.afterCalls past).chain.get n)

/-- A call that keeps the link of a node that is not indexed keeps how it came to it. -/
theorem LinkLeft.concat (h : LinkLeft start calls n)
    (hout : n ∉ start.indexedAfter (calls ++ [call]))
    (hkept : (start.afterCalls (calls ++ [call])).chain.get n =
      (start.afterCalls calls).chain.get n) : LinkLeft start (calls ++ [call]) n := by
  have hrest : ∀ past last later, calls = past ++ last :: later →
      calls ++ [call] = past ++ [last] ++ (later ++ [call]) := by
    rintro past last later rfl
    simp
  cases h with
  | never out link => exact .never (out.concat hout) (hkept.trans link)
  | removed past later split held out link =>
    rw [hrest past _ later split] at hout
    exact .removed past (later ++ [call]) (by simp [split]) held (out.concat hout)
      (hkept.trans link)
  | cleared past later split held out link =>
    rw [hrest past _ later split] at hout
    exact .cleared past (later ++ [call]) (by simp [split]) held (out.concat hout)
      (hkept.trans link)

/-- Calls on a new index leave the sequence in it. -/
theorem Ordered.afterCalls (h : start.Ordered start.index.hasher start.labelOf buckets [])
    (calls : List (IndexCall κ)) :
    (start.afterCalls calls).Ordered start.index.hasher start.labelOf buckets
      (start.indexedAfter calls) := (h.attemptAll calls).2

/-- Where no node had a link, each of those that are not indexed has the one with which it left. -/
theorem Ordered.linkLeft (h : start.Ordered start.index.hasher start.labelOf buckets [])
    (hnew : ∀ n, start.chain.get n = none) (calls : List (IndexCall κ))
    (hn : n ∉ start.indexedAfter calls) : LinkLeft start calls n := by
  induction calls using List.reverseRecOn with
  | nil => exact .never (staysOut_nil hn) (hnew n)
  | append_singleton calls call ih =>
    have hbefore := h.afterCalls calls
    have hout := hn
    rw [indexedAfter_concat] at hout
    by_cases hheld : n ∈ start.indexedAfter calls
    · obtain rfl | rfl := IndexCall.eq_strike_or_clear hheld hout
      · refine .removed calls [] rfl hheld (staysOut_nil hn) ?_
        rw [afterCalls_concat]
        exact hbefore.chain_strike hheld
      · refine .cleared calls [] rfl hheld (staysOut_nil hn) ?_
        rw [afterCalls_concat]
        rfl
    · refine (ih hheld).concat hn ?_
      rw [afterCalls_concat]
      exact hbefore.chain_attempt hheld hout

/-- After calls on a new index, they were answered as by the sequence of indexed nodes, the chains
show this sequence, and every other node has the link with which it left. -/
structure FixesLinks (start : Arena κ α) (buckets : Nat) (calls : List (IndexCall κ)) : Prop where
  answers : (Action.attemptAll callIndex calls start).1 =
    (answerAll (IndexCall.onOrder start.index.hasher start.labelOf) calls []).1.map .ok
  indexed : (start.afterCalls calls).ShowsOrder start.labelOf buckets (start.indexedAfter calls)
  others : ∀ n, n ∉ start.indexedAfter calls → LinkLeft start calls n

/-- Over any number of buckets, with any hasher and any hashes at the nodes, every history of an
index fixes the link of every node. -/
theorem run_fixes_links (lists : List RecencyList) (buckets : Size) (hasher : Hasher κ)
    (entries : List (Entry κ α)) (calls : List (IndexCall κ)) :
    FixesLinks (.ofNodes lists (.ofBuckets buckets hasher) entries) (bucketsFor buckets) calls := by
  have hstart := ordered_ofNodes lists buckets hasher entries
  constructor
  case answers => exact (hstart.attemptAll calls).1
  case indexed => exact (hstart.afterCalls calls).showsOrder
  case others => exact fun n hn => hstart.linkLeft (fun m => Table.get_empty m) calls hn

/-- The link that a clear left in a node leads to one that was added again, and is not followed. -/
example :
    let start : Arena Nat Nat := .ofNodes [] (.ofBuckets .one (Hasher.constant 0))
      [{ key := 7, value := 0, hash := 0 }, { key := 8, value := 0, hash := 0 }]
    let final := start.afterCalls [.enrol 0, .enrol 1, .clear, .enrol 0]
    final.chain.get 1 = some 0 ∧ final.chainOf 0 = [0] := by
  decide

end Arena

end CachePool
