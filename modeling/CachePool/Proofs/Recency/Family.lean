import Mathlib.Data.List.Basic
import Mathlib.Logic.Function.Basic
import CachePool.Arena
import CachePool.Proofs.Lockstep
import CachePool.Proofs.Recency.Sequence

/-!
# Families of recency lists over shared nodes

Any number of lists thread the same nodes. As long as a node is only added where no list
holds it, and only moved or taken out of the list that holds it, each list behaves as a
bounded sequence of its own: a node is in one list at most, a node that is in none has no
neighbours, and a call on one list is not seen by the others.
-/

namespace CachePool

/-- A call on a recency list. -/
inductive ListCall where
  | insert (n : NodeId)
  | erase (n : NodeId)
  | refresh (n : NodeId)
  | popLeast

namespace ListCall

/-- The call on a list of an arena. -/
def toArena {κ : Type} (list : Nat) : ListCall → ArenaCall κ
  | insert n => .insert list n
  | erase n => .erase list n
  | refresh n => .refresh list n
  | popLeast => .popLeast list

/-- The answer to a call on a bounded sequence, the most recently used node first, and the sequence
after it. -/
def apply (capacity : Nat) : ListCall → List NodeId → ArenaAnswer × List NodeId
  | insert n, ns =>
    if ns.length < capacity then (.node none, n :: ns) else (.node ns.getLast?, n :: ns.dropLast)
  | erase n, ns => (.done, ns.erase n)
  | refresh n, ns => (.done, n :: ns.erase n)
  | popLeast, ns => (.node ns.getLast?, ns.dropLast)

end ListCall

/-- The nodes of every list, by its number. -/
abbrev Sequences : Type := Nat → List NodeId

namespace Sequences

/-- The capacity of a list, by its number. -/
def capacityAt (capacities : List Size) (list : Nat) : Nat := (capacities.getD list default).val

/-- Perform a call on the sequence of a list. -/
def step (capacity : Nat → Nat) : Nat × ListCall → Sequences → ArenaAnswer × Sequences
  | (list, request), seqs =>
    let (answer, ns) := request.apply (capacity list) (seqs list)
    (answer, Function.update seqs list ns)

/-- No list holds the node. -/
def Free (seqs : Sequences) (n : NodeId) : Prop := ∀ list, n ∉ seqs list

/-- A node is added only if no list holds it, and moved or taken out by the list that holds it. -/
def Permits : Nat × ListCall → Sequences → Prop
  | (_, .insert n), seqs => seqs.Free n
  | (list, .erase n), seqs => n ∈ seqs list
  | (list, .refresh n), seqs => n ∈ seqs list
  | (_, .popLeast), _ => True

end Sequences

namespace Arena

variable {κ α : Type} {a : Arena κ α} {capacity : Nat → Nat} {seqs : Sequences} {list other : Nat}
  {n o : NodeId} {ns touched : List NodeId}

/-- Every list holds its sequence, no node is in two of them, and the nodes in none have no
neighbours. -/
structure Threads (capacity : Nat → Nat) (a : Arena κ α) (seqs : Sequences) : Prop where
  capacity : ∀ list, (a.lists.get list).capacity.val = capacity list
  holds : ∀ list, (a.lists.get list).Holds a.links (seqs list)
  apart : ∀ n list other, n ∈ seqs list → n ∈ seqs other → list = other
  free : ∀ n, seqs.Free n → a.links.get n = {}

/-- A list that holds new nodes leaves the other lists alone, if it touches the links of no node
that they hold. -/
theorem Threads.rethread (h : a.Threads capacity seqs) {after : ThreadedList}
    (hafter : RecencyList.Rethreaded (a.lists.get list, a.links) after touched ns)
    (hours : ∀ n ∈ touched, ∀ other, n ∈ seqs other → other = list)
    (hbefore : ∀ n ∈ seqs list, n ∈ touched) (hnow : ∀ n ∈ ns, n ∈ touched)
    (hgone : ∀ n ∈ touched, n ∉ ns → after.2.get n = {}) :
    Threads capacity { a with lists := a.lists.set list after.1, links := after.2 }
      (Function.update seqs list ns) := by
  constructor
  case capacity =>
    intro other
    simp only [Table.get_set]
    split
    · next heq => rw [heq, hafter.capacity, h.capacity]
    · exact h.capacity other
  case holds =>
    intro other
    by_cases heq : other = list
    · subst heq
      simp only [Table.get_set_self, Function.update_self]
      exact hafter.holds
    · simp only [Table.get_set_ne _ _ heq, Function.update_of_ne heq]
      apply (h.holds other).congr
      intro n hn
      exact hafter.elsewhere n fun htouched => heq (hours n htouched other hn)
  case apart =>
    intro n first second hfirst hsecond
    rw [Function.update_apply] at hfirst hsecond
    split at hfirst
    · next heq =>
      split at hsecond
      · next heq' => rw [heq, heq']
      · rw [heq, hours n (hnow n hfirst) second hsecond]
    · split at hsecond
      · next heq' => rw [heq', hours n (hnow n hsecond) first hfirst]
      · exact h.apart n first second hfirst hsecond
  case free =>
    intro n hfree
    have hout : n ∉ ns := by
      have hlist := hfree list
      rwa [Function.update_self] at hlist
    by_cases htouched : n ∈ touched
    · exact hgone n htouched hout
    · rw [hafter.elsewhere n htouched]
      apply h.free n
      intro other hn
      by_cases heq : other = list
      · exact htouched (hbefore n (heq ▸ hn))
      · have hother := hfree other
        rw [Function.update_of_ne heq] at hother
        exact hother hn

/-- What a list holds is held by no other list. -/
theorem Threads.ours (h : a.Threads capacity seqs) (hn : n ∈ seqs list) :
    ∀ other, n ∈ seqs other → other = list :=
  fun other hother => h.apart n other list hother hn

/-- A call on one list leaves the other lists, the links of their nodes, and the index alone. -/
structure Spares (a a' : Arena κ α) (seqs : Sequences) (list : Nat) : Prop where
  lists : ∀ other, other ≠ list → a'.lists.get other = a.lists.get other
  links : ∀ other, other ≠ list → ∀ n ∈ seqs other, a'.links.get n = a.links.get n
  index : a'.index = a.index
  chain : a'.chain = a.chain
  entries : a'.entries = a.entries

variable [DecidableEq κ]

/-- Perform a call on one of the lists. -/
def callList (request : Nat × ListCall) : Action (Arena κ α) ArenaAnswer :=
  call (request.2.toArena request.1)

/-- The call answers as the sequence of its list does, and spares the other lists. -/
def Follows (capacity : Nat → Nat) (a : Arena κ α) (seqs : Sequences)
    (request : Nat × ListCall) : Prop :=
  ∃ a', callList request a = .ok (Sequences.step capacity request seqs).1 a' ∧
    a'.Threads capacity (Sequences.step capacity request seqs).2 ∧ a.Spares a' seqs request.1

/-- A call follows its sequence if its action leads to a list of the new sequence, touches nodes of
its own list or of none, and leaves those that it gives up without neighbours. -/
theorem Threads.follow (h : a.Threads capacity seqs) {request : ListCall} {answer : ArenaAnswer}
    {ρ : Type} {action : Action ThreadedList ρ} {r : ρ} {after : ThreadedList}
    (happly : request.apply (capacity list) (seqs list) = (answer, ns))
    (hcall : ∀ a', onList list action a = .ok r a' → call (request.toArena list) a = .ok answer a')
    (hrun : action (a.lists.get list, a.links) = .ok r after)
    (hafter : RecencyList.Rethreaded (a.lists.get list, a.links) after touched ns)
    (hours : ∀ n ∈ touched, ∀ other, n ∈ seqs other → other = list)
    (hbefore : ∀ n ∈ seqs list, n ∈ touched) (hnow : ∀ n ∈ ns, n ∈ touched)
    (hgone : ∀ n ∈ touched, n ∉ ns → after.2.get n = {}) :
    a.Follows capacity seqs (list, request) := by
  have hthreads := h.rethread hafter hours hbefore hnow hgone
  have hstep : Sequences.step capacity (list, request) seqs =
      (answer, Function.update seqs list ns) := by
    rw [Sequences.step, happly]
  rw [Follows, hstep]
  refine ⟨_, hcall _ (Action.within_ok hrun), hthreads, ?_⟩
  constructor
  case lists => exact fun other hne => Table.get_set_ne _ _ hne
  case links =>
    intro other hne n hn
    exact hafter.elsewhere n fun htouched => hne (hours n htouched other hn)
  all_goals rfl

/-- A node that is in no list comes to the front of one, and a full list gives up its last node. -/
theorem follows_insert (h : a.Threads capacity seqs) (hfree : seqs.Free n) (list : Nat) :
    a.Follows capacity seqs (list, .insert n) := by
  have hours : ∀ m ∈ n :: seqs list, ∀ other, m ∈ seqs other → other = list := by
    intro m hm other hother
    rcases List.mem_cons.mp hm with rfl | hm
    · exact (hfree other hother).elim
    · exact h.ours hm other hother
  have hbefore : ∀ m ∈ seqs list, m ∈ n :: seqs list := fun m hm => List.mem_cons_of_mem n hm
  have hcall : ∀ r a', onList list (RecencyList.insert n) a = .ok r a' →
      call (.insert list n) a = .ok (.node r) a' := by
    intro r a' hact
    simp only [call, Action.bind_ok hact, Action.pure_apply]
  by_cases hroom : (seqs list).length < capacity list
  · obtain ⟨after, hrun, hafter⟩ :=
      (h.holds list).insert_room (hfree list) (h.capacity list ▸ hroom)
    have happly : (ListCall.insert n).apply (capacity list) (seqs list) =
        (.node none, n :: seqs list) := if_pos hroom
    exact h.follow happly (hcall none) hrun hafter hours hbefore (fun _ hm => hm)
      fun m hm hout => (hout hm).elim
  · have hfull := Nat.le_of_not_lt hroom
    obtain ⟨ns, o, heq⟩ : ∃ ns o, seqs list = ns ++ [o] := by
      rcases List.eq_nil_or_concat (seqs list) with hnil | ⟨ns, o, heq⟩
      · have hpos := (a.lists.get list).capacity.pos
        rw [hnil, List.length_nil, ← h.capacity list] at hfull
        omega
      · exact ⟨ns, o, by rw [heq, List.concat_eq_append]⟩
    have happly : (ListCall.insert n).apply (capacity list) (seqs list) =
        (.node (some o), n :: ns) := by
      rw [ListCall.apply, if_neg hroom, heq, List.getLast?_concat, List.dropLast_concat]
    obtain ⟨after, hrun, hafter, hself⟩ :=
      RecencyList.Holds.insert_full (heq ▸ h.holds list) (heq ▸ hfree list)
        (h.capacity list ▸ heq ▸ hfull)
    have hmem : ∀ m, m ∈ n :: (ns ++ [o]) ↔ m ∈ n :: ns ∨ m = o := by simp [or_assoc]
    have hgone : ∀ m ∈ n :: (ns ++ [o]), m ∉ n :: ns → after.2.get m = {} := by
      intro m hm hout
      rw [((hmem m).mp hm).resolve_left hout, hself]
    exact h.follow happly (hcall (some o)) hrun hafter (heq ▸ hours) (heq ▸ hbefore)
      (fun m hm => (hmem m).mpr (Or.inl hm)) hgone

/-- A node of a list is taken out, in the order of the rest. -/
theorem follows_erase (h : a.Threads capacity seqs) (hn : n ∈ seqs list) :
    a.Follows capacity seqs (list, .erase n) := by
  obtain ⟨as, bs, -, heq, herase⟩ := List.exists_erase_eq hn
  obtain ⟨after, hrun, hafter, hself⟩ := RecencyList.Holds.erase (heq ▸ h.holds list)
  rw [← heq, ← herase] at hafter
  have hperm := List.perm_cons_erase hn
  have hcall : ∀ a', onList list (RecencyList.erase n) a = .ok () a' →
      call (.erase list n) a = .ok .done a' := by
    intro a' hact
    simp only [call, Action.bind_ok hact, Action.pure_apply]
  have hgone : ∀ m ∈ seqs list, m ∉ (seqs list).erase n → after.2.get m = {} := by
    intro m hm hout
    rw [(List.mem_cons.mp (hperm.mem_iff.mp hm)).resolve_right hout, hself]
  have happly : (ListCall.erase n).apply (capacity list) (seqs list) =
      (.done, (seqs list).erase n) := rfl
  exact h.follow happly hcall hrun hafter (fun m hm => h.ours hm) (fun _ hm => hm)
    (fun m hm => List.mem_of_mem_erase hm) hgone

/-- A node of a list comes to the front of it, in the order of the rest. -/
theorem follows_refresh (h : a.Threads capacity seqs) (hn : n ∈ seqs list) :
    a.Follows capacity seqs (list, .refresh n) := by
  obtain ⟨as, bs, -, heq, herase⟩ := List.exists_erase_eq hn
  obtain ⟨after, hrun, hafter⟩ := RecencyList.Holds.refresh (heq ▸ h.holds list)
  rw [← heq, ← herase] at hafter
  have hperm := List.perm_cons_erase hn
  have hcall : ∀ a', onList list (RecencyList.refresh n) a = .ok () a' →
      call (.refresh list n) a = .ok .done a' := by
    intro a' hact
    simp only [call, Action.bind_ok hact, Action.pure_apply]
  have happly : (ListCall.refresh n).apply (capacity list) (seqs list) =
      (.done, n :: (seqs list).erase n) := rfl
  exact h.follow happly hcall hrun hafter (fun m hm => h.ours hm) (fun _ hm => hm)
    (fun m hm => hperm.mem_iff.mpr hm) fun m hm hout => (hout (hperm.mem_iff.mp hm)).elim

/-- The last node of a list is given up, if there is one. -/
theorem follows_popLeast (h : a.Threads capacity seqs) (list : Nat) :
    a.Follows capacity seqs (list, .popLeast) := by
  have hcall : ∀ r a', onList list RecencyList.popLeast a = .ok r a' →
      call (.popLeast list) a = .ok (.node r) a' := by
    intro r a' hact
    simp only [call, Action.bind_ok hact, Action.pure_apply]
  rcases List.eq_nil_or_concat (seqs list) with heq | ⟨ns, o, heq⟩
  · have hholds := h.holds list
    have hafter : RecencyList.Rethreaded (a.lists.get list, a.links) (a.lists.get list, a.links)
        (seqs list) (seqs list) := ⟨hholds, rfl, fun _ _ => rfl⟩
    have happly : ListCall.popLeast.apply (capacity list) (seqs list) =
        (.node none, seqs list) := by
      rw [heq]
      rfl
    rw [heq] at hholds
    exact h.follow happly (hcall none) hholds.popLeast_nil hafter (fun m hm => h.ours hm)
      (fun _ hm => hm) (fun _ hm => hm) fun m hm hout => (hout hm).elim
  · rw [List.concat_eq_append] at heq
    have happly : ListCall.popLeast.apply (capacity list) (seqs list) = (.node (some o), ns) := by
      rw [ListCall.apply, heq, List.getLast?_concat, List.dropLast_concat]
    obtain ⟨after, hrun, hafter, hself⟩ := RecencyList.Holds.popLeast (heq ▸ h.holds list)
    rw [← heq] at hafter
    have hmem : ∀ m, m ∈ seqs list ↔ m ∈ ns ∨ m = o := by simp [heq]
    have hgone : ∀ m ∈ seqs list, m ∉ ns → after.2.get m = {} := by
      intro m hm hout
      rw [((hmem m).mp hm).resolve_left hout, hself]
    exact h.follow happly (hcall (some o)) hrun hafter (fun m hm => h.ours hm) (fun _ hm => hm)
      (fun m hm => (hmem m).mpr (Or.inl hm)) hgone

/-- Every permitted call answers as the sequence of its list does, and spares the other lists. -/
theorem Threads.follows (h : a.Threads capacity seqs) {request : Nat × ListCall}
    (hpermits : Sequences.Permits request seqs) : a.Follows capacity seqs request := by
  obtain ⟨list, request⟩ := request
  cases request with
  | insert n => exact follows_insert h hpermits list
  | erase n => exact follows_erase h hpermits
  | refresh n => exact follows_refresh h hpermits
  | popLeast => exact follows_popLeast h list

/-- The lists of the arena are the sequences: every list is threaded in both directions, counted and
bounded, no node is in two lists, and what is in none has no neighbours. -/
structure ShowsSequences (capacity : Nat → Nat) (a : Arena κ α) (seqs : Sequences) : Prop where
  nodes : ∀ list, a.nodes list = seqs list
  /-- The neighbours towards the tail, followed from the head, visit the nodes in order. -/
  older : ∀ list, Path (fun n => (a.links.get n).older) (seqs list) (a.lists.get list).head none
  /-- The neighbours towards the head, followed from the tail, visit them in the opposite order. -/
  newer : ∀ list,
    Path (fun n => (a.links.get n).newer) (seqs list).reverse (a.lists.get list).tail none
  head : ∀ list, (a.lists.get list).head = (seqs list).head?
  tail : ∀ list, (a.lists.get list).tail = (seqs list).getLast?
  length : ∀ list, (a.lists.get list).length = (seqs list).length
  bounded : ∀ list, (seqs list).length ≤ capacity list
  full : ∀ list, (a.lists.get list).isFull ↔ (seqs list).length = capacity list
  nodup : ∀ list, (seqs list).Nodup
  apart : ∀ n list other, n ∈ seqs list → n ∈ seqs other → list = other
  free : ∀ n, seqs.Free n → a.links.get n = {}
  /-- An insertion gives up a node exactly if the list is full, and never the one it is given. -/
  givesUp : ∀ list n, seqs.Free n → ∃ gone,
    ((callList (list, .insert n)).attempt a).1 = .ok (.node gone) ∧
      (gone.isSome ↔ (a.lists.get list).isFull) ∧ gone ≠ some n
  /-- A permitted call answers, and changes neither the other lists nor the links of their nodes. -/
  independent : ∀ request, Sequences.Permits request seqs →
    (∃ answer, ((callList request).attempt a).1 = .ok answer) ∧
      ∀ other, other ≠ request.1 →
        ((callList request).attempt a).2.lists.get other = a.lists.get other ∧
          ∀ n ∈ seqs other, ((callList request).attempt a).2.links.get n = a.links.get n

omit [DecidableEq κ] in
/-- A threaded list is full if its sequence is as long as its capacity. -/
theorem Threads.isFull_iff (h : a.Threads capacity seqs) (list : Nat) :
    (a.lists.get list).isFull ↔ (seqs list).length = capacity list := by
  have hbounded := (h.holds list).bounded
  rw [RecencyList.isFull, decide_eq_true_iff, (h.holds list).length, ← h.capacity list]
  omega

/-- An insertion gives up a node exactly if the list is full, and never the one it is given. -/
theorem Threads.givesUp (h : a.Threads capacity seqs) (hfree : seqs.Free n) (list : Nat) :
    ∃ gone, ((callList (list, .insert n)).attempt a).1 = .ok (.node gone) ∧
      (gone.isSome ↔ (a.lists.get list).isFull) ∧ gone ≠ some n := by
  obtain ⟨a', hcall, -, -⟩ := follows_insert h hfree list
  have hbounded := (h.holds list).bounded
  have hpos := (a.lists.get list).capacity.pos
  rw [h.capacity list] at hbounded hpos
  rw [Action.attempt_ok hcall, h.isFull_iff]
  by_cases hroom : (seqs list).length < capacity list
  · refine ⟨none, ?_, ?_, by simp⟩
    · simp only [Sequences.step, ListCall.apply, if_pos hroom]
    · exact iff_of_false (by simp) (Nat.ne_of_lt hroom)
  · refine ⟨(seqs list).getLast?, ?_, ?_, ?_⟩
    · simp only [Sequences.step, ListCall.apply, if_neg hroom]
    · rw [List.getLast?_isSome, ← List.length_pos_iff]
      omega
    · intro hlast
      exact hfree list (List.mem_of_getLast? hlast)

/-- An arena whose lists hold sequences shows them. -/
theorem Threads.showsSequences (h : a.Threads capacity seqs) :
    a.ShowsSequences capacity seqs := by
  constructor
  case nodes => exact fun list => (h.holds list).nodes_eq
  case older => exact fun list => (h.holds list).woven.older
  case newer => exact fun list => (h.holds list).woven.newer
  case head => exact fun list => (h.holds list).woven.head_eq
  case tail => exact fun list => (h.holds list).woven.tail_eq
  case length => exact fun list => (h.holds list).length
  case bounded => exact fun list => h.capacity list ▸ (h.holds list).bounded
  case full => exact h.isFull_iff
  case nodup => exact fun list => (h.holds list).woven.nodup
  case apart => exact h.apart
  case free => exact h.free
  case givesUp =>
    intro list n hfree
    exact h.givesUp hfree list
  case independent =>
    intro request hpermits
    obtain ⟨a', hcall, -, hspares⟩ := h.follows hpermits
    rw [Action.attempt_ok hcall]
    exact ⟨⟨_, rfl⟩, fun other hne => ⟨hspares.lists other hne, hspares.links other hne⟩⟩

omit [DecidableEq κ] in
/-- New lists hold nothing. -/
theorem threads_ofNodes (capacities : List Size) (index : KeyIndex κ)
    (entries : List (Entry κ α)) :
    (ofNodes (capacities.map fun capacity => { capacity }) index entries).Threads
      (Sequences.capacityAt capacities) fun _ => [] := by
  have hlist : ∀ list, (Table.ofList (capacities.map fun capacity =>
      ({ capacity } : RecencyList))).get list = { capacity := capacities.getD list default } := by
    intro list
    rw [Table.get_ofList, List.getD_eq_getElem?_getD, List.getD_eq_getElem?_getD, List.getElem?_map]
    cases capacities[list]? <;> rfl
  constructor
  case capacity =>
    intro list
    simp only [ofNodes, hlist, Sequences.capacityAt]
  case holds =>
    intro list
    simp only [ofNodes, hlist]
    exact RecencyList.holds_empty _ _
  case apart => simp
  case free => exact fun n _ => Table.get_empty n

/-- Over any number of lists of any capacities, every run of permitted calls is answered as their
sequences answer it, and no call stops; the lists then show the sequences. -/
theorem run_refines_sequences (capacities : List Size) (index : KeyIndex κ)
    (entries : List (Entry κ α)) (requests : List (Nat × ListCall))
    (hpermitted : Permitted Sequences.Permits (Sequences.step (Sequences.capacityAt capacities))
      requests fun _ => []) :
    let start : Arena κ α := .ofNodes (capacities.map fun capacity => { capacity }) index entries
    let run := Action.attemptAll callList requests start
    let answers := answerAll (Sequences.step (Sequences.capacityAt capacities)) requests fun _ => []
    run.1 = answers.1.map .ok ∧
      run.2.ShowsSequences (Sequences.capacityAt capacities) answers.2 := by
  intro start run answers
  have hstart := threads_ofNodes capacities index entries
  have hcall : ∀ request (a : Arena κ α) seqs, a.Threads (Sequences.capacityAt capacities) seqs →
      Sequences.Permits request seqs → ∃ a',
        callList request a =
          .ok (Sequences.step (Sequences.capacityAt capacities) request seqs).1 a' ∧
        a'.Threads (Sequences.capacityAt capacities)
          (Sequences.step (Sequences.capacityAt capacities) request seqs).2 := by
    intro request a seqs h hpermits
    obtain ⟨a', hcall, hthreads, -⟩ := h.follows hpermits
    exact ⟨a', hcall, hthreads⟩
  obtain ⟨hanswers, hfinal⟩ := attemptAll_eq_answerAll hcall requests hstart hpermitted
  exact ⟨hanswers, hfinal.showsSequences⟩

/-- In lists of two nodes and of one, a node that the first gives up goes to the second, which then
gives up its own. -/
theorem run_refines_sequences_two :
    let capacities : List Size := [⟨2, by decide, by decide⟩, ⟨1, by decide, by decide⟩]
    let requests : List (Nat × ListCall) := [(0, .insert 5), (0, .insert 6), (1, .insert 7),
      (0, .refresh 5), (0, .insert 8), (1, .insert 6), (0, .erase 5), (1, .popLeast)]
    let start : Arena Nat Nat := .ofNodes (capacities.map fun capacity => { capacity })
      (.ofBuckets .one (Hasher.constant 0)) []
    Permitted Sequences.Permits (Sequences.step (Sequences.capacityAt capacities)) requests
        (fun _ => []) ∧
      (Action.attemptAll callList requests start).1 =
        [.node none, .node none, .node none, .done, .node (some 6), .node (some 7), .done,
          .node (some 6)].map .ok := by
  intro capacities requests start
  have hpermitted : Permitted Sequences.Permits
      (Sequences.step (Sequences.capacityAt capacities)) requests (fun _ => []) := by
    refine ⟨?_, ?_, ?_, ?_, ?_, ?_, ?_, trivial, trivial⟩
    case refine_4 => exact List.mem_cons_of_mem _ List.mem_cons_self
    case refine_7 => exact List.mem_cons_of_mem _ List.mem_cons_self
    all_goals
      rintro (_ | _ | list)
      · decide
      · decide
      · exact List.not_mem_nil
  exact ⟨hpermitted, (run_refines_sequences capacities _ [] requests hpermitted).1⟩

end Arena

end CachePool
