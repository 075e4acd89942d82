import CachePool.Proofs.Arena.Commuting

/-!
# Iteration over the lists

An iterator stops where no link leads on, and counts down from the length of the list.
Over a list that holds a sequence the two end together: whatever was met already, the
links lead on along the rest of the sequence, and as many nodes are counted as are left
of it. So the count never runs short, the size hint is exact, and every call after the
last node is answered by none.
-/

namespace CachePool

variable {it : RecencyIterator} {links : LinkTable} {ns : List NodeId}

namespace RecencyIterator

/-- The nodes are still to come: the links lead along them from the next one to the end, and they
are as many as are counted. -/
structure Faces (it : RecencyIterator) (links : LinkTable) (ns : List NodeId) : Prop where
  path : Path (fun n => (links.get n).older) ns it.next none
  remaining : it.remaining = ns.length

namespace Faces

/-- No link leads on exactly when nothing is left to count. -/
theorem next_eq_none_iff (h : it.Faces links ns) : it.next = none ↔ it.remaining = 0 := by
  rw [h.path.start_eq, h.remaining, List.head?_eq_none_iff, List.length_eq_zero_iff]

/-- A call is answered by the first of the nodes to come, if there is one, and steps over it. -/
theorem advance (h : it.Faces links ns) :
    ∃ it', it.advance links = .ok (ns.head?, it') ∧ it'.Faces links ns.tail := by
  have hnext := h.path.start_eq
  cases ns with
  | nil =>
    refine ⟨it, ?_, h⟩
    rw [RecencyIterator.advance, hnext]
    rfl
  | cons n ns =>
    have hremaining : it.remaining = ns.length + 1 := h.remaining
    refine ⟨⟨(links.get n).older, it.remaining - 1⟩, ?_, h.path.2, ?_⟩
    · rw [RecencyIterator.advance, hnext]
      simp only [List.head?_cons]
      rw [if_neg (by omega)]
    · change it.remaining - 1 = ns.length
      omega

/-- Calls are answered by the nodes to come in their order, and by none after the last of them. -/
theorem take (h : it.Faces links ns) (count : Nat) :
    ∃ it', it.take links count =
        .ok ((ns.take count).map some ++ List.replicate (count - ns.length) none, it') ∧
      it'.Faces links (ns.drop count) := by
  induction count generalizing it ns with
  | zero => exact ⟨it, by simp [RecencyIterator.take], h⟩
  | succ count ih =>
    obtain ⟨next, hadvance, hnext⟩ := h.advance
    obtain ⟨last, htake, hlast⟩ := ih hnext
    refine ⟨last, ?_, ?_⟩
    · simp only [RecencyIterator.take, hadvance, htake, bind, Except.bind]
      cases ns with
      | nil => simp [List.replicate_succ, pure, Except.pure]
      | cons n ns => simp [pure, Except.pure]
    · rwa [List.drop_tail] at hlast

end Faces

end RecencyIterator

namespace RecencyList

variable {l : RecencyList}

/-- A fresh iterator faces the sequence that its list holds. -/
theorem Holds.faces_iterate (h : l.Holds links ns) : l.iterate.Faces links ns :=
  ⟨h.woven.older, h.length⟩

/-- What a fresh iterator answers to a number of calls, and how it stands after them. -/
structure Iterates (l : RecencyList) (links : LinkTable) (ns : List NodeId) (count : Nat)
    (it : RecencyIterator) : Prop where
  /-- Every call is answered: by the nodes in their order, and by none after the last of them. -/
  answers : l.iterate.take links count =
    .ok ((ns.take (min count l.length)).map some ++
      List.replicate (count - min count l.length) none, it)
  sizeHint : it.sizeHint =
    (l.length - min count l.length, some (l.length - min count l.length))
  /-- No link leads on exactly when all nodes were met. -/
  next : it.next = none ↔ l.length ≤ count
  /-- The count has run down exactly when all nodes were met. -/
  remaining : it.remaining = 0 ↔ l.length ≤ count

/-- An iterator over a list that holds a sequence meets it, however often it is called. -/
theorem Holds.exists_iterates (h : l.Holds links ns) (count : Nat) :
    ∃ it, l.Iterates links ns count it := by
  obtain ⟨it, htake, hfaces⟩ := h.faces_iterate.take count
  have hlength := h.length
  have hremaining : it.remaining = l.length - min count l.length := by
    rw [hfaces.remaining, List.length_drop]
    omega
  have hran : it.remaining = 0 ↔ l.length ≤ count := by omega
  have hmet : ns.take (min count l.length) = ns.take count := by
    rw [hlength, ← List.take_eq_take_min]
  refine ⟨it, ?_, ?_, hfaces.next_eq_none_iff.trans hran, hran⟩
  · have hrest : count - min count l.length = count - ns.length := by omega
    rw [hmet, hrest]
    exact htake
  · rw [RecencyIterator.sizeHint, hremaining]

end RecencyList

namespace Arena

variable {κ α : Type} [DecidableEq κ]

/-- The sequence that calls leave in a list that was empty, by the calls on this list alone. -/
def sequenceAfter (capacity : Nat → Nat) (requests : List (ArenaCall κ)) (list : Nat) :
    List NodeId :=
  (answerAll (ArenaCall.onNodes capacity) (requests.filter (·.target = some list)) []).2

/-- After any calls that keep to the contract, over any number of lists and an index, every list
holds the sequence that the calls on it make up, and an iterator over it meets this sequence from
the most to the least recently used node. Its two stop signals end together: no call finds the
count run down before the links end, and the size hint is exact all the way. -/
theorem run_iterates_to_the_end (capacities : List Size) (index : KeyIndex κ)
    (entries : List (Entry κ α)) (requests : List (ArenaCall κ))
    (hrespects : Respects requests
      (ofNodes (capacities.map fun capacity => { capacity }) index entries)) :
    let start : Arena κ α := .ofNodes (capacities.map fun capacity => { capacity }) index entries
    let a := (Action.attemptAll call requests start).2
    ∀ list,
      let ns := sequenceAfter (Sequences.capacityAt capacities) requests list
      (a.lists.get list).Holds a.links ns ∧
        ∀ count, ∃ it, (a.lists.get list).Iterates a.links ns count it := by
  intro start a list ns
  have hstart := threads_ofNodes capacities index entries
  have hnone : start.nodes list = [] := congrFun hstart.nodes_eq list
  have hnodes : a.nodes list = ns := by
    rw [← hstart.nodes_eq] at hstart
    rw [(hstart.attemptAll_nodes hrespects list).1, hnone]
    rfl
  have hholds : (a.lists.get list).Holds a.links ns := hnodes ▸ hrespects.threads.holds list
  exact ⟨hholds, hholds.exists_iterates⟩

/-- A list with room for two nodes gave up one and moved one: of three calls the last is answered by
none. -/
theorem run_iterates_to_the_end_two :
    let capacities : List Size := [⟨2, by decide, by decide⟩]
    let requests : List (ArenaCall Nat) :=
      [.insert 0 0, .enrol 0, .insert 0 6, .insert 0 7, .refresh 0 6]
    let start : Arena Nat Nat := .ofNodes (capacities.map fun capacity => { capacity })
      (.ofBuckets .one (Hasher.constant 0)) [{ key := 1, value := 2, hash := 0 }]
    let a := (Action.attemptAll call requests start).2
    Respects requests start ∧
      sequenceAfter (Sequences.capacityAt capacities) requests 0 = [6, 7] ∧
      ∃ it, (a.lists.get 0).Iterates a.links [6, 7] 3 it := by
  intro capacities requests start a
  have hlists : Permitted Sequences.Permits (Sequences.step (Sequences.capacityAt capacities))
      [(0, .insert 0), (0, .insert 6), (0, .insert 7), (0, .refresh 6)] (fun _ => []) := by
    refine ⟨?_, ?_, ?_, List.mem_cons_of_mem _ List.mem_cons_self, trivial⟩
    all_goals
      rintro (_ | list)
      · decide
      · exact List.not_mem_nil
  have hindex : RespectsIndex [.enrol 0] start := ⟨⟨⟨_, rfl⟩, fun _ => List.not_mem_nil⟩, trivial⟩
  have hrespects : Respects requests start :=
    (respects_ofNodes_iff capacities _ _ requests).mpr ⟨hlists, hindex⟩
  have hsequence : sequenceAfter (Sequences.capacityAt capacities) requests 0 = [6, 7] := by decide
  obtain ⟨-, hiterates⟩ := run_iterates_to_the_end capacities _ _ requests hrespects 0
  rw [hsequence] at hiterates
  exact ⟨hrespects, hsequence, by simpa only [a, start] using hiterates 3⟩

end Arena

end CachePool
