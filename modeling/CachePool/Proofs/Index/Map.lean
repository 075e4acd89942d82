import Mathlib.Data.Finmap
import CachePool.Proofs.Index.Order

/-!
# The index as a finite map

Over any number of buckets, an index is a finite map from labels to nodes: a node is
added if its label is free, it is taken out if the map has it at its label, and a key is
looked up under the label that the index computes. The map has the nodes of the sequence
that the index holds, each at its label.
-/

namespace CachePool

variable {κ α : Type}

/-- A finite map from labels to nodes. -/
abbrev LabelMap (κ : Type) : Type := Finmap fun _ : UInt64 × κ => NodeId

variable [DecidableEq κ]

namespace LabelMap

/-- Add a node, unless its label is taken. -/
def enrol (label : UInt64 × κ) (n : NodeId) (map : LabelMap κ) : ArenaAnswer × LabelMap κ :=
  if label ∈ map then (.flag false, map) else (.flag true, map.insert label n)

/-- Take a node out, if the map has it at its label. -/
def strike (label : UInt64 × κ) (n : NodeId) (map : LabelMap κ) : ArenaAnswer × LabelMap κ :=
  if map.lookup label = some n then (.flag true, map.erase label) else (.flag false, map)

/-- The answer to a call, and the map after it. -/
def step (hasher : Hasher κ) (labelOf : NodeId → Option (UInt64 × κ)) :
    IndexCall κ → LabelMap κ → ArenaAnswer × LabelMap κ
  | .enrol n, map =>
    match labelOf n with
    | none => (.flag false, map)
    | some label => map.enrol label n
  | .strike n, map =>
    match labelOf n with
    | none => (.flag false, map)
    | some label => map.strike label n
  | .lookup key, map => (.node (map.lookup (hasher key, key)), map)
  | .clear, _ => (.done, ∅)

/-- The map has the nodes of the sequence, each at its label. -/
structure Lists (map : LabelMap κ) (labelOf : NodeId → Option (UInt64 × κ))
    (order : List NodeId) : Prop where
  lookup : ∀ label n, map.lookup label = some n ↔ n ∈ order ∧ labelOf n = some label
  card : map.keys.card = order.length

variable {map : LabelMap κ} {labelOf : NodeId → Option (UInt64 × κ)} {order as bs : List NodeId}
  {label : UInt64 × κ} {n : NodeId}

/-- The empty map has no nodes. -/
theorem lists_nil : (∅ : LabelMap κ).Lists labelOf [] where
  lookup := by simp
  card := rfl

namespace Lists

/-- A free label takes a node. -/
theorem insert (h : map.Lists labelOf order) (hn : labelOf n = some label) (hfree : label ∉ map) :
    LabelMap.Lists (map.insert label n) labelOf (n :: order) where
  lookup := by
    intro l m
    by_cases hl : l = label
    · subst hl
      rw [Finmap.lookup_insert, List.mem_cons]
      constructor
      · rintro ⟨rfl⟩
        exact ⟨Or.inl rfl, hn⟩
      · rintro ⟨rfl | hm, hlabel⟩
        · rfl
        · exact (hfree (Finmap.mem_of_lookup_eq_some ((h.lookup l m).mpr ⟨hm, hlabel⟩))).elim
    · have hmn : labelOf m = some l → m ≠ n := by
        rintro hm rfl
        exact hl (Option.some.inj (hm.symm.trans hn))
      rw [Finmap.lookup_insert_of_ne _ hl, h.lookup, List.mem_cons]
      exact and_congr_left fun hm => (or_iff_right (hmn hm)).symm
  card := by
    have hkeys : (map.insert label n).keys = Insert.insert label map.keys := by
      ext l
      rw [Finmap.mem_keys, Finmap.mem_insert, Finset.mem_insert, Finmap.mem_keys]
    rw [hkeys, Finset.card_insert_of_notMem fun hmem => hfree (Finmap.mem_keys.mp hmem), h.card,
      List.length_cons]

/-- A node that is taken out frees its label. -/
theorem erase (h : map.Lists labelOf (as ++ n :: bs)) (hnodup : (as ++ n :: bs).Nodup)
    (hn : labelOf n = some label) : LabelMap.Lists (map.erase label) labelOf (as ++ bs) := by
  have hperm : (as ++ n :: bs).Perm (n :: (as ++ bs)) := List.perm_middle
  have hout := (List.nodup_cons.mp (hperm.nodup_iff.mp hnodup)).1
  have hfound : map.lookup label = some n := (h.lookup label n).mpr ⟨by simp, hn⟩
  constructor
  case lookup =>
    intro l m
    by_cases hl : l = label
    · subst hl
      rw [Finmap.lookup_erase]
      refine iff_of_false (by simp) ?_
      rintro ⟨hm, hlabel⟩
      have hmem : m ∈ as ++ n :: bs := hperm.mem_iff.mpr (List.mem_cons_of_mem n hm)
      have hsame := (h.lookup l m).mpr ⟨hmem, hlabel⟩
      rw [hfound] at hsame
      obtain rfl := Option.some.inj hsame
      exact hout hm
    · rw [Finmap.lookup_erase_ne hl, h.lookup, hperm.mem_iff, List.mem_cons]
      refine and_congr_left fun hm => or_iff_right ?_
      rintro rfl
      exact hl (Option.some.inj (hm.symm.trans hn))
  case card =>
    have hmem : label ∈ map.keys := Finmap.mem_keys.mpr (Finmap.mem_of_lookup_eq_some hfound)
    rw [Finmap.keys_erase, Finset.card_erase_of_mem hmem, h.card, hperm.length_eq,
      List.length_cons, Nat.add_sub_cancel]

end Lists

/-- A call on the map and on the sequence is answered alike, and the map has the nodes of the
sequence after it. -/
structure Matches (hasher : Hasher κ) (labelOf : NodeId → Option (UInt64 × κ)) (map : LabelMap κ)
    (order : List NodeId) (request : IndexCall κ) : Prop where
  answer : (step hasher labelOf request map).1 = (request.onOrder hasher labelOf order).1
  lists : (step hasher labelOf request map).2.Lists labelOf
    (request.onOrder hasher labelOf order).2

variable {hasher : Hasher κ}

namespace Lists

/-- A label is taken in the map if a node of the sequence has it. -/
theorem mem_iff (h : map.Lists labelOf order) :
    label ∈ map ↔ ∃ m ∈ order, labelOf m = some label := by
  simp only [Finmap.mem_iff, h.lookup]

theorem enrol (h : map.Lists labelOf order) (n : NodeId) :
    Matches hasher labelOf map order (.enrol n) := by
  cases hlabel : labelOf n with
  | none =>
    constructor
    · simp only [step, IndexCall.onOrder, hlabel]
    · simpa only [step, IndexCall.onOrder, hlabel] using h
  | some label =>
    by_cases htaken : label ∈ map
    · have htaken' := h.mem_iff.mp htaken
      constructor
      · simp only [step, IndexCall.onOrder, hlabel, LabelMap.enrol, if_pos htaken, if_pos htaken']
      · simpa only [step, IndexCall.onOrder, hlabel, LabelMap.enrol, if_pos htaken,
          if_pos htaken'] using h
    · have hfree := fun htaken' => htaken (h.mem_iff.mpr htaken')
      constructor
      · simp only [step, IndexCall.onOrder, hlabel, LabelMap.enrol, if_neg htaken, if_neg hfree]
      · simpa only [step, IndexCall.onOrder, hlabel, LabelMap.enrol, if_neg htaken,
          if_neg hfree] using h.insert hlabel htaken

theorem strike (h : map.Lists labelOf order) (hnodup : order.Nodup)
    (hlabels : ∀ m ∈ order, ∃ label, labelOf m = some label) (n : NodeId) :
    Matches hasher labelOf map order (.strike n) := by
  by_cases hn : n ∈ order
  · obtain ⟨label, hlabel⟩ := hlabels n hn
    have hfound := (h.lookup label n).mpr ⟨hn, hlabel⟩
    obtain ⟨as, bs, -, rfl, herase⟩ := List.exists_erase_eq hn
    have hrest := h.erase hnodup hlabel
    rw [← herase] at hrest
    constructor
    · simp only [step, IndexCall.onOrder, hlabel, LabelMap.strike, if_pos hfound, if_pos hn]
    · simpa only [step, IndexCall.onOrder, hlabel, LabelMap.strike, if_pos hfound,
        if_pos hn] using hrest
  · cases hlabel : labelOf n with
    | none =>
      constructor
      · simp only [step, IndexCall.onOrder, hlabel, if_neg hn]
      · simpa only [step, IndexCall.onOrder, hlabel, if_neg hn] using h
    | some label =>
      have habsent : ¬ map.lookup label = some n :=
        fun hfound => hn ((h.lookup label n).mp hfound).1
      constructor
      · simp only [step, IndexCall.onOrder, hlabel, LabelMap.strike, if_neg habsent, if_neg hn]
      · simpa only [step, IndexCall.onOrder, hlabel, LabelMap.strike, if_neg habsent,
          if_neg hn] using h

/-- What the map has at a label is the first node of the sequence with that label. -/
theorem lookup_eq_find? (h : map.Lists labelOf order) (label : UInt64 × κ) :
    map.lookup label = order.find? fun n => labelOf n = some label := by
  cases hlist : order.find? fun n => labelOf n = some label with
  | none =>
    rw [List.find?_eq_none] at hlist
    rw [Option.eq_none_iff_forall_ne_some]
    intro n hn
    obtain ⟨hmem, hlabel⟩ := (h.lookup label n).mp hn
    exact hlist n hmem (decide_eq_true hlabel)
  | some n =>
    have hlabel : labelOf n = some label := by simpa using List.find?_some hlist
    exact (h.lookup label n).mpr ⟨List.mem_of_find?_eq_some hlist, hlabel⟩

end Lists

/-- Every call on the map is answered as on the sequence of its nodes. -/
theorem Lists.follows (h : map.Lists labelOf order) (hnodup : order.Nodup)
    (hlabels : ∀ m ∈ order, ∃ label, labelOf m = some label) (request : IndexCall κ) :
    Matches hasher labelOf map order request := by
  cases request with
  | enrol n => exact h.enrol n
  | strike n => exact h.strike hnodup hlabels n
  | lookup key =>
    refine ⟨?_, h⟩
    simp only [step, IndexCall.onOrder, h.lookup_eq_find?]
  | clear => exact ⟨rfl, lists_nil⟩

end LabelMap

namespace Arena

variable {a : Arena κ α} {map : LabelMap κ} {hasher : Hasher κ}
  {labelOf : NodeId → Option (UInt64 × κ)}

/-- The chains of the arena hold the nodes of the map, under the given labels and hasher. -/
structure Indexed (hasher : Hasher κ) (labelOf : NodeId → Option (UInt64 × κ)) (a : Arena κ α)
    (map : LabelMap κ) : Prop where
  hasher : a.index.hasher = hasher
  labels : a.labelOf = labelOf
  chains : ∃ order, a.index.Indexes a.chain a.entries.get order ∧ map.Lists a.labelOf order

/-- Every call on the index answers as the map does. -/
theorem callIndex_indexed (request : IndexCall κ) (a : Arena κ α) (map : LabelMap κ)
    (h : a.Indexed hasher labelOf map) :
    ∃ a', callIndex request a = .ok (LabelMap.step hasher labelOf request map).1 a' ∧
      a'.Indexed hasher labelOf (LabelMap.step hasher labelOf request map).2 := by
  obtain ⟨hhasher, rfl, order, hindex, hmap⟩ := h
  have hordered : a.Ordered hasher a.labelOf a.index.bucketCount order :=
    ⟨hhasher, rfl, rfl, hindex⟩
  obtain ⟨a', hcall, hhasher', hlabels', -, hindex'⟩ := hordered.follows request
  have hstored : ∀ m ∈ order, ∃ label, a.labelOf m = some label := by
    intro m hm
    obtain ⟨e, he⟩ := hindex.stored m hm
    exact ⟨e.label, labelOf_eq he⟩
  have hmatches : LabelMap.Matches hasher a.labelOf map order request :=
    hmap.follows hindex.nodup hstored request
  rw [hmatches.answer]
  refine ⟨a', hcall, hhasher', hlabels', _, hindex', ?_⟩
  rw [hlabels']
  exact hmatches.lists

/-- The index of the arena is the map: its chains end, each node of the map is in one of them and
once, under its label, and a node that is refused changes nothing. -/
structure ShowsMap (a : Arena κ α) (map : LabelMap κ) : Prop where
  /-- The walk along a bucket comes to an end. -/
  ends : ∀ bucket, Path a.chain.get (a.index.bucketNodes a.chain bucket) (a.index.heads.get bucket)
    none
  once : ∀ bucket, (a.index.bucketNodes a.chain bucket).Nodup
  apart : ∀ n bucket bucket', n ∈ a.index.bucketNodes a.chain bucket →
    n ∈ a.index.bucketNodes a.chain bucket' → bucket = bucket'
  /-- The nodes of the chains are those of the map. -/
  indexed : ∀ n, (∃ bucket, n ∈ a.index.bucketNodes a.chain bucket) ↔
    ∃ label, map.lookup label = some n
  labelled : ∀ label n, map.lookup label = some n → a.labelOf n = some label
  length : a.index.length = map.keys.card
  refused : ∀ request, ((callIndex request).attempt a).1 = .ok (.flag false) →
    ((callIndex request).attempt a).2 = a

/-- An arena whose chains hold the nodes of a map shows it. -/
theorem Indexed.showsMap (h : a.Indexed hasher labelOf map) : a.ShowsMap map := by
  obtain ⟨-, -, order, hindex, hmap⟩ := h
  have hnodes := hindex.chained.bucketNodes_eq
  constructor
  case ends =>
    intro bucket
    rw [hnodes]
    exact hindex.chained.chains bucket
  case once =>
    intro bucket
    rw [hnodes]
    exact hindex.nodup.filter _
  case apart =>
    intro n bucket bucket' hn hn'
    rw [hnodes, List.mem_filter, KeyIndex.selects_iff] at hn hn'
    exact hn.2.symm.trans hn'.2
  case indexed =>
    intro n
    rw [hindex.mem_bucketNodes_iff]
    constructor
    · intro hn
      obtain ⟨e, he⟩ := hindex.stored n hn
      exact ⟨e.label, (hmap.lookup e.label n).mpr ⟨hn, labelOf_eq he⟩⟩
    · rintro ⟨label, hlookup⟩
      exact ((hmap.lookup label n).mp hlookup).1
  case labelled => exact fun label n hlookup => ((hmap.lookup label n).mp hlookup).2
  case length => rw [hindex.length, hmap.card]
  case refused => exact fun request h => eq_of_refused h

/-- Over any number of buckets, with any hasher and any entries at the nodes, the index of an arena
answers every sequence of calls as a finite map from labels to nodes does, and shows that map. -/
theorem run_refines_map (lists : List RecencyList) (buckets : Size) (hasher : Hasher κ)
    (entries : List (Entry κ α)) (requests : List (IndexCall κ)) :
    let start : Arena κ α := .ofNodes lists (.ofBuckets buckets hasher) entries
    let run := Action.attemptAll callIndex requests start
    let answers := answerAll (LabelMap.step hasher start.labelOf) requests ∅
    run.1 = answers.1.map .ok ∧ run.2.ShowsMap answers.2 := by
  intro start run answers
  have hstart : start.Indexed hasher start.labelOf ∅ :=
    ⟨rfl, rfl, [], KeyIndex.indexes_nil rfl (fun bucket => Table.get_empty bucket) _ _,
      LabelMap.lists_nil⟩
  obtain ⟨hanswers, hfinal⟩ := attemptAll_eq_answerAll (P := fun _ _ => True)
    (fun request a map h _ => callIndex_indexed request a map h) requests hstart
    (permitted_of_forall (fun _ _ => trivial) requests ∅)
  exact ⟨hanswers, hfinal.showsMap⟩

/-- The nodes that a clear left linked are not found and not taken out, and are added again in
another order. -/
example :
    (Action.attemptAll callIndex
      [.enrol 0, .enrol 1, .clear, .strike 0, .lookup 7, .enrol 1, .enrol 0, .lookup 7, .strike 1]
      (ofNodes [] (.ofBuckets .one (Hasher.constant 0))
        [{ key := 7, value := 0, hash := 0 }, { key := 8, value := 0, hash := 0 }] :
        Arena Nat Nat)).1 =
    [.flag true, .flag true, .done, .flag false, .node none, .flag true, .flag true, .node (some 0),
      .flag true].map .ok := by
  rfl

end Arena

end CachePool
