import CachePool.Proofs.Arena.Agreement
import CachePool.Proofs.Arena.Contract

/-!
# Misused lists

A list that is asked to take out or to move a node looks at its own two ends and at the
two neighbours of the node. Between calls that keep to the contract this tells its own
nodes from all others, up to those that another list holds between two neighbours: a
node without a neighbour on one side is an end of the list that holds it, or in no list.
A list that refuses a node changes nothing, so nobody can tell later that it was asked.
-/

namespace CachePool

namespace Arena

variable {κ α : Type} {a : Arena κ α} {capacity : Nat → Nat} {list : Nat} {n : NodeId}

/-- A list holds the node between two neighbours. -/
def Inside (a : Arena κ α) (list : Nat) (n : NodeId) : Prop :=
  n ∈ a.nodes list ∧ (a.links.get n).newer ≠ none ∧ (a.links.get n).older ≠ none

/-- A node passes for one of a list if the list holds it, or another list does between two
neighbours. -/
theorem Threads.endsAgree_iff (h : a.Threads capacity a.nodes) (list : Nat) (n : NodeId) :
    (a.lists.get list).endsAgree a.links n = true ↔
      n ∈ a.nodes list ∨ ∃ other ≠ list, a.Inside other n := by
  constructor
  · intro hagrees
    by_cases hn : n ∈ a.nodes list
    · exact .inl hn
    have hhead : (a.lists.get list).head ≠ some n := by
      rw [(h.holds list).woven.head_eq]
      exact fun he => hn (List.mem_of_head? he)
    have htail : (a.lists.get list).tail ≠ some n := by
      rw [(h.holds list).woven.tail_eq]
      exact fun he => hn (List.mem_of_getLast? he)
    -- The node is no end of the list, so it passes by its neighbours alone.
    simp only [RecencyList.endsAgree, Bool.and_eq_true, Bool.or_eq_true, beq_iff_eq, hhead, htail,
      or_false, Option.isSome_iff_ne_none] at hagrees
    obtain ⟨other, hother⟩ : ∃ other, n ∈ a.nodes other := by
      by_contra hnone
      rw [h.free n fun other hmem => hnone ⟨other, hmem⟩] at hagrees
      exact hagrees.1 rfl
    exact .inr ⟨other, fun heq => hn (heq ▸ hother), hother, hagrees⟩
  · rintro (hn | ⟨other, -, -, hnewer, holder⟩)
    · obtain ⟨as, bs, heq⟩ := List.append_of_mem hn
      exact (heq ▸ (h.holds list).woven).endsAgree
    · rw [RecencyList.endsAgree, Option.isSome_iff_ne_none.mpr hnewer,
        Option.isSome_iff_ne_none.mpr holder]
      rfl

variable [DecidableEq κ]

/-- The call stops at the fault as if it had not been made: the arena looks as before, and
whatever is called later is answered alike and leaves it looking alike. -/
structure Refuses (a : Arena κ α) (x : ArenaCall κ) (fault : Fault) : Prop where
  fault : ((call x).attempt a).1 = .error fault
  unchanged : ((call x).attempt a).2.Agrees a
  order : ∀ list, ((call x).attempt a).2.nodes list = a.nodes list
  unnoticed : ∀ later : List (ArenaCall κ),
    (Action.attemptAll call later ((call x).attempt a).2).1 = (Action.attemptAll call later a).1 ∧
      (Action.attemptAll call later ((call x).attempt a).2).2.Agrees
        (Action.attemptAll call later a).2

/-- A call is refused if its action stops at the list as it was. -/
theorem refuses_of_error {ρ : Type} {x : ArenaCall κ} {fault : Fault}
    {f : ρ → Action (Arena κ α) ArenaAnswer} (action : Action ThreadedList ρ)
    (hcall : call x = onList list action >>= f)
    (haction : action (a.lists.get list, a.links) = .error fault (a.lists.get list, a.links)) :
    a.Refuses x fault := by
  have hstop : call x a = .error fault { a with lists := a.lists.set list (a.lists.get list) } := by
    have hlist : onList list action a =
        .error fault { a with lists := a.lists.set list (a.lists.get list) } := by
      rw [onList, Action.within, haction]
    rw [hcall, Action.bind_error hlist]
  have hunchanged : Agrees { a with lists := a.lists.set list (a.lists.get list) } a := by
    refine ⟨fun other => ?_, fun _ => rfl, rfl, rfl, rfl⟩
    rw [Table.get_set]
    split
    · next heq => rw [heq]
    · rfl
  constructor
  all_goals rw [Action.attempt_error hstop]
  · exact hunchanged
  · exact hunchanged.nodes_eq
  · exact hunchanged.attemptAll

/-- A node that does not pass for one of a list is neither taken out nor moved. -/
theorem refuses_of_endsAgree (h : (a.lists.get list).endsAgree a.links n = false)
    (hhead : (a.lists.get list).head ≠ some n) :
    a.Refuses (.erase list n) .unlinkingForeignNode ∧
      a.Refuses (.refresh list n) .movingForeignNode := by
  constructor
  · refine refuses_of_error (RecencyList.erase n) rfl ?_
    rw [RecencyList.erase, Action.get_bind]
    simp only [h]
    rfl
  · refine refuses_of_error (RecencyList.refresh n) rfl ?_
    rw [RecencyList.refresh, Action.get_bind]
    simp only [h, hhead]
    rfl

/-- The list takes the node if it holds it, and refuses it otherwise. -/
structure Guards (a : Arena κ α) (list : Nat) (n : NodeId) (x : ArenaCall κ) (fault : Fault) :
    Prop where
  done_iff : ((call x).attempt a).1 = .ok .done ↔ n ∈ a.nodes list
  refuses : n ∉ a.nodes list → a.Refuses x fault

/-- A list guards a node by a call that it refuses for all nodes but those that it holds. -/
theorem Threads.guards_of_refuses (h : a.Threads capacity a.nodes) (request : ListCall)
    {fault : Fault} (hpermits : Sequences.Permits (list, request) a.nodes ↔ n ∈ a.nodes list)
    (hanswer : (request.apply (capacity list) (a.nodes list)).1 = .done)
    (hrefuses : n ∉ a.nodes list → a.Refuses (request.toArena list) fault) :
    a.Guards list n (request.toArena list) fault := by
  refine ⟨⟨fun hok => ?_, fun hn => ?_⟩, hrefuses⟩
  · by_contra hn
    rw [(hrefuses hn).fault] at hok
    cases hok
  · obtain ⟨a', hcall, -⟩ := h.callList_eq (hpermits.mpr hn)
    rw [← hanswer]
    exact congrArg Prod.fst (Action.attempt_ok hcall)

/-- Where a node is not inside another list, its list alone takes it out and moves it. -/
theorem Threads.guards (h : a.Threads capacity a.nodes)
    (hinside : ∀ other ≠ list, ¬ a.Inside other n) :
    a.Guards list n (.erase list n) .unlinkingForeignNode ∧
      a.Guards list n (.refresh list n) .movingForeignNode := by
  have hrefuses : n ∉ a.nodes list → a.Refuses (.erase list n) .unlinkingForeignNode ∧
      a.Refuses (.refresh list n) .movingForeignNode := by
    intro hn
    apply refuses_of_endsAgree
    · rw [← Bool.not_eq_true, h.endsAgree_iff]
      rintro (hmem | ⟨other, hne, hother⟩)
      · exact hn hmem
      · exact hinside other hne hother
    · rw [(h.holds list).woven.head_eq]
      exact fun he => hn (List.mem_of_head? he)
  exact ⟨h.guards_of_refuses (.erase n) Iff.rfl rfl fun hn => (hrefuses hn).1,
    h.guards_of_refuses (.refresh n) Iff.rfl rfl fun hn => (hrefuses hn).2⟩

/-- After any calls that keep to the contract, over any number of lists and an index, a list takes
out and moves a node that is not inside another list exactly if it holds it. Otherwise the call
stops with the text of its fault and leaves no trace. -/
theorem run_refuses_misuse (capacities : List Size) (index : KeyIndex κ)
    (entries : List (Entry κ α)) (requests : List (ArenaCall κ))
    (hrespects : Respects requests
      (ofNodes (capacities.map fun capacity => { capacity }) index entries)) :
    let start : Arena κ α := .ofNodes (capacities.map fun capacity => { capacity }) index entries
    let a := (Action.attemptAll call requests start).2
    (∀ list n, (∀ other ≠ list, ¬ a.Inside other n) →
      a.Guards list n (.erase list n) .unlinkingForeignNode ∧
        a.Guards list n (.refresh list n) .movingForeignNode) ∧
      Fault.message .unlinkingForeignNode = "unlinking a node not in this list" ∧
      Fault.message .movingForeignNode = "moving a node not in this list" := by
  intro start a
  exact ⟨fun list n hinside => hrespects.threads.guards hinside, rfl, rfl⟩

/-- The first list holds 6 and 5, the second one 8 alone: each refuses the ends of the other one.
The node 7, which is in no list, is refused as well. -/
theorem run_refuses_misuse_ends :
    let capacities : List Size := [⟨3, by decide, by decide⟩, ⟨2, by decide, by decide⟩]
    let requests : List (ArenaCall Nat) := [.insert 0 5, .insert 0 6, .insert 1 8]
    let start : Arena Nat Nat := .ofNodes (capacities.map fun capacity => { capacity })
      (.ofBuckets .one (Hasher.constant 0)) []
    let a := (Action.attemptAll call requests start).2
    Respects requests start ∧
      (∀ other ≠ 1, ¬ a.Inside other 5) ∧ a.Refuses (.erase 1 5) .unlinkingForeignNode ∧
      (∀ other ≠ 1, ¬ a.Inside other 6) ∧ a.Refuses (.refresh 1 6) .movingForeignNode ∧
      (∀ other ≠ 0, ¬ a.Inside other 8) ∧ a.Refuses (.refresh 0 8) .movingForeignNode ∧
      (∀ other ≠ 0, ¬ a.Inside other 7) ∧ a.Refuses (.erase 0 7) .unlinkingForeignNode := by
  intro capacities requests start a
  have hrespects : Respects requests start := by
    refine ⟨?_, ?_, ?_, trivial⟩
    all_goals
      rintro (_ | _ | list)
      · decide
      · decide
      · exact List.not_mem_nil
  have hends : ∀ n, (a.links.get n).newer = none ∨ (a.links.get n).older = none →
      ∀ list, ∀ other ≠ list, ¬ a.Inside other n := by
    rintro n (hnone | hnone) list other - ⟨-, hnewer, holder⟩
    · exact hnewer hnone
    · exact holder hnone
  have h5 := hends 5 (.inr (by decide)) 1
  have h6 := hends 6 (.inl (by decide)) 1
  have h8 := hends 8 (.inl (by decide)) 0
  have h7 := hends 7 (.inl (by decide)) 0
  obtain ⟨hguards, -, -⟩ := run_refuses_misuse capacities _ [] requests hrespects
  refine ⟨hrespects, h5, (hguards 1 5 h5).1.refuses ?_, h6, (hguards 1 6 h6).2.refuses ?_,
    h8, (hguards 0 8 h8).2.refuses ?_, h7, (hguards 0 7 h7).1.refuses ?_⟩
  all_goals decide

end Arena

end CachePool
