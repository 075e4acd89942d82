import CachePool.Proofs.Lockstep
import CachePool.Proofs.Recency.Sequence
import Mathlib.Data.Finset.Card

/-!
# Touches of a recency list

To touch a node is to refresh it where the list holds it, and to insert it where the
list does not. The distinct nodes touched so far form a stack in the order of their
last touch: a touch takes its node to the top, and a list that was empty at first
holds the top of the stack, as far as it has room. So a larger list holds what a
smaller one holds, in the same order and with more behind it, and a node stays as
long as fewer other nodes were touched since than the list has room for.
-/

namespace CachePool

/-- The distinct nodes touched, from the most to the least recently touched one. -/
def lastTouched (touches : List NodeId) : List NodeId := touches.dedup.reverse

/-- The second node was touched after the last touch of the first one. -/
def TouchedSince (touches : List NodeId) (o m : NodeId) : Prop :=
  ∃ before after, touches = before ++ o :: after ∧ o ∉ after ∧ m ∈ after

section Stack

variable {touches past later ns : List NodeId} {n o m : NodeId} {c : Nat}

@[simp] theorem lastTouched_nil : lastTouched [] = [] := rfl

@[simp] theorem mem_lastTouched : n ∈ lastTouched touches ↔ n ∈ touches := by
  rw [lastTouched, List.mem_reverse, List.mem_dedup]

/-- Every node is in the stack once. -/
theorem nodup_lastTouched (touches : List NodeId) : (lastTouched touches).Nodup :=
  List.nodup_reverse.mpr touches.nodup_dedup

/-- The stack is as long as there are distinct nodes touched. -/
theorem length_lastTouched (touches : List NodeId) :
    (lastTouched touches).length = touches.toFinset.card := by
  rw [lastTouched, List.length_reverse, List.card_toFinset]

/-- The nodes touched later lie above those touched before only. -/
theorem lastTouched_append (past later : List NodeId) :
    lastTouched (past ++ later) =
      lastTouched later ++ (lastTouched past).filter fun n => n ∉ later := by
  induction past with
  | nil => simp [lastTouched]
  | cons n past ih =>
    simp only [lastTouched, List.cons_append] at ih ⊢
    by_cases hpast : n ∈ past
    · rw [List.dedup_cons_of_mem (List.mem_append_left later hpast),
        List.dedup_cons_of_mem hpast, ih]
    by_cases hlater : n ∈ later
    · rw [List.dedup_cons_of_mem (List.mem_append_right past hlater),
        List.dedup_cons_of_notMem hpast, ih]
      simp [hlater]
    · have hnot : n ∉ past ++ later := by simp [hpast, hlater]
      rw [List.dedup_cons_of_notMem hnot, List.dedup_cons_of_notMem hpast,
        List.reverse_cons, ih]
      simp [hlater]

/-- A touch takes its node to the top of the stack. -/
theorem lastTouched_concat (touches : List NodeId) (n : NodeId) :
    lastTouched (touches ++ [n]) = n :: (lastTouched touches).erase n := by
  rw [lastTouched_append, (nodup_lastTouched touches).erase_eq_filter]
  refine congrArg (List.cons n) (List.filter_congr fun m _ => ?_)
  simp only [List.mem_singleton, decide_not, bne, beq_eq_decide]

/-- Above a node lie the nodes touched since. -/
theorem lastTouched_split (past : List NodeId) (hn : n ∉ later) :
    ∃ below, lastTouched (past ++ n :: later) = lastTouched later ++ n :: below := by
  rw [List.append_cons, lastTouched_append, lastTouched_concat, List.filter_cons_of_pos (by simpa)]
  exact ⟨_, rfl⟩

/-- What is touched last was touched after every other node. -/
theorem touchedSince_concat (ho : o ∈ touches) (hne : o ≠ n) :
    TouchedSince (touches ++ [n]) o n := by
  obtain ⟨after, before, hreverse, hafter⟩ :=
    List.eq_append_cons_of_mem (List.mem_reverse.mpr ho)
  have htouches : touches = before.reverse ++ o :: after.reverse := by
    rw [← List.reverse_reverse touches, hreverse]
    simp only [List.reverse_append, List.reverse_cons, List.append_assoc, List.singleton_append]
  refine ⟨before.reverse, after.reverse ++ [n], ?_, ?_, List.mem_append_right _ (.head _)⟩
  · rw [htouches, List.append_assoc, List.cons_append]
  · simp [hafter, hne]

/-- A node that is not touched again stays behind those touched since. -/
theorem TouchedSince.concat (h : TouchedSince touches o m) (hne : o ≠ n) :
    TouchedSince (touches ++ [n]) o m := by
  obtain ⟨before, after, rfl, ho, hm⟩ := h
  refine ⟨before, after ++ [n], ?_, ?_, List.mem_append_left [n] hm⟩
  · rw [List.append_assoc, List.cons_append]
  · simp [ho, hne]

/-- Every node above another one in the stack was touched since. -/
theorem pairwise_lastTouched (touches : List NodeId) :
    (lastTouched touches).Pairwise fun m o => TouchedSince touches o m := by
  induction touches using List.reverseRecOn with
  | nil => exact List.Pairwise.nil
  | append_singleton touches n ih =>
    have hother : ∀ o ∈ (lastTouched touches).erase n, o ≠ n ∧ o ∈ touches := fun o ho => by
      rw [(nodup_lastTouched touches).mem_erase_iff, mem_lastTouched] at ho
      exact ho
    rw [lastTouched_concat, List.pairwise_cons]
    constructor
    · exact fun o ho => touchedSince_concat (hother o ho).2 (hother o ho).1
    · exact (ih.sublist List.erase_sublist).imp_of_mem fun _ ho h => h.concat (hother _ ho).1

/-- A node is among the first of the stack if few enough other nodes were touched since. -/
theorem mem_take_lastTouched (hn : n ∉ later) :
    n ∈ (lastTouched (past ++ n :: later)).take c ↔ later.toFinset.card < c := by
  obtain ⟨below, hsplit⟩ := lastTouched_split past hn
  rw [hsplit, List.mem_take_iff_idxOf_lt (by simp),
    List.idxOf_append_of_notMem (mt mem_lastTouched.mp hn), List.idxOf_cons_self, Nat.add_zero,
    length_lastTouched]

/-- At the top of the stack, a touch of a node that is there changes the order only. -/
theorem take_touch_of_mem (h : n ∈ ns.take c) :
    (n :: ns.erase n).take c = n :: (ns.take c).erase n := by
  have hpos := List.length_pos_of_mem h
  have hlength := List.length_erase_of_mem h
  by_cases hshort : ns.length ≤ c
  · rw [List.take_of_length_le hshort] at h hpos hlength ⊢
    exact List.take_of_length_le (by rw [List.length_cons]; omega)
  · rw [List.length_take_of_le (by omega)] at hpos hlength
    conv_lhs => rw [← List.take_append_drop c ns, List.erase_append_left _ h, ← List.cons_append]
    exact List.take_left' (by rw [List.length_cons]; omega)

/-- At the top of the stack, a touch of another node takes the place of the last one, if there is no
more room. -/
theorem take_touch_of_notMem (h : n ∉ ns.take c) (hc : 0 < c) :
    (n :: ns.erase n).take c = n :: (ns.take c).take (c - 1) := by
  have hbelow : (ns.erase n).take (c - 1) = ns.take (c - 1) := by
    by_cases hshort : ns.length ≤ c
    · rw [List.take_of_length_le hshort] at h
      rw [List.erase_of_not_mem h]
    · conv_lhs => rw [← List.take_append_drop c ns, List.erase_append_right _ h]
      rw [List.take_append_of_le_length (by rw [List.length_take]; omega), List.take_take]
      congr 1
      omega
  rw [List.take_take, Nat.min_eq_left (Nat.sub_le c 1), ← hbelow]
  cases c with
  | zero => exact absurd hc (Nat.lt_irrefl 0)
  | succ c => rfl

end Stack

namespace RecencyList

variable {l : RecencyList} {links : LinkTable} {ns : List NodeId} {touches : List NodeId}

/-- Take a node to the front of a list, wherever it was, and answer the node that the list gives up
for it. -/
def touch (n : NodeId) : Action ThreadedList (Option NodeId) := do
  let (l, links) ← get
  if n ∈ l.nodes links then
    refresh n
    return none
  else
    insert n

/-- A list gives up a node to a touch of another one, if it has no more room. -/
theorem Holds.touch (h : Holds l links ns) (n : NodeId) :
    ∃ after, RecencyList.touch n (l, links) =
        .ok (if n ∈ ns ∨ ns.length < l.capacity.val then none else ns.getLast?) after ∧
      Holds after.1 after.2
        (if n ∈ ns then n :: ns.erase n else n :: ns.take (l.capacity.val - 1)) ∧
      after.1.capacity = l.capacity := by
  have hbounded := h.bounded
  have hpos := l.capacity.pos
  rw [RecencyList.touch, Action.get_bind]
  simp only [h.nodes_eq]
  by_cases hmem : n ∈ ns
  · obtain ⟨as, bs, -, hns, herase⟩ := List.exists_erase_eq hmem
    rw [if_pos hmem, if_pos (.inl hmem), if_pos hmem, herase]
    rw [hns] at h
    obtain ⟨after, hrefresh, hafter⟩ := h.refresh
    exact ⟨after, by rw [Action.bind_ok hrefresh, Action.pure_apply], hafter.holds, hafter.capacity⟩
  rw [if_neg hmem, if_neg hmem]
  by_cases hroom : ns.length < l.capacity.val
  · obtain ⟨after, hinsert, hafter⟩ := h.insert_room hmem hroom
    rw [if_pos (.inr hroom), List.take_of_length_le (by omega)]
    exact ⟨after, hinsert, hafter.holds, hafter.capacity⟩
  · obtain ⟨ms, o, rfl⟩ := ns.eq_nil_or_concat'.resolve_left (by rintro rfl; exact hroom hpos)
    obtain ⟨after, hinsert, hafter, -⟩ := h.insert_full hmem (by omega)
    have hms : ms.length = l.capacity.val - 1 := by
      rw [List.length_append, List.length_singleton] at hroom hbounded
      omega
    rw [if_neg (not_or.mpr ⟨hmem, hroom⟩), List.getLast?_concat, List.take_left' hms]
    exact ⟨after, hinsert, hafter.holds, hafter.capacity⟩

/-- The list holds the top of the stack of the nodes touched, as far as it has room. -/
structure Stacks (capacity : Size) (touches : List NodeId) (s : ThreadedList) : Prop where
  holds : Holds s.1 s.2 ((lastTouched touches).take capacity.val)
  capacity : s.1.capacity = capacity

namespace Stacks

variable {capacity : Size} {s : ThreadedList}

/-- A touch is answered by the node that the list gives up, and the list holds the top of the new
stack. -/
theorem touch (h : Stacks capacity touches s) (n : NodeId) :
    ∃ after, RecencyList.touch n s =
        .ok (if n ∈ s.1.nodes s.2 ∨ (s.1.nodes s.2).length < capacity.val then none
          else (s.1.nodes s.2).getLast?) after ∧
      Stacks capacity (touches ++ [n]) after := by
  obtain ⟨after, htouch, hholds, hcapacity⟩ := h.holds.touch n
  rw [h.capacity] at htouch hholds hcapacity
  rw [h.holds.nodes_eq]
  refine ⟨after, htouch, ?_, hcapacity⟩
  rw [lastTouched_concat]
  by_cases hmem : n ∈ (lastTouched touches).take capacity.val
  · rw [take_touch_of_mem hmem]
    rwa [if_pos hmem] at hholds
  · rw [take_touch_of_notMem hmem capacity.pos]
    rwa [if_neg hmem] at hholds

/-- A list that was empty stacks whatever is touched, and every touch is answered. -/
theorem attemptAll (capacity : Size) (links : LinkTable) (touches : List NodeId) :
    (∀ answer ∈ (Action.attemptAll RecencyList.touch touches ({ capacity }, links)).1,
        ∃ gone, answer = .ok gone) ∧
      Stacks capacity touches
        (Action.attemptAll RecencyList.touch touches ({ capacity }, links)).2 := by
  induction touches using List.reverseRecOn with
  | nil =>
    refine ⟨by simp [Action.attemptAll], ?_, rfl⟩
    rw [lastTouched_nil, List.take_nil]
    exact holds_empty capacity links
  | append_singleton touches n ih =>
    obtain ⟨hanswers, hstacks⟩ := ih
    obtain ⟨after, htouch, hafter⟩ := hstacks.touch n
    rw [Action.attemptAll_concat, Action.attempt_ok htouch]
    refine ⟨fun answer hanswer => ?_, hafter⟩
    rcases List.mem_append.mp hanswer with hanswer | hanswer
    · exact hanswers answer hanswer
    · exact ⟨_, List.mem_singleton.mp hanswer⟩

/-- The order of the nodes held is the order of their last touches. -/
theorem pairwise (h : Stacks capacity touches s) :
    (s.1.nodes s.2).Pairwise fun m o => TouchedSince touches o m := by
  rw [h.holds.nodes_eq]
  exact (pairwise_lastTouched touches).sublist (List.take_sublist _ _)

/-- A node is given up to a touch of another one exactly if the list is full, and it is the least
recently touched one that the list holds. -/
theorem givesUp (h : Stacks capacity touches s) (n : NodeId) :
    ∃ gone after, RecencyList.touch n s = .ok gone after ∧
      (gone.isSome ↔ n ∉ s.1.nodes s.2 ∧ (s.1.nodes s.2).length = capacity.val) ∧
      ∀ o, gone = some o → o ∈ s.1.nodes s.2 ∧ o ≠ n ∧
        ∀ m ∈ s.1.nodes s.2, m ≠ o → TouchedSince touches o m := by
  obtain ⟨after, htouch, -⟩ := h.touch n
  have hbounded := h.holds.bounded
  have hpos := capacity.pos
  have hpairwise := h.pairwise
  rw [← h.holds.nodes_eq, h.capacity] at hbounded
  generalize s.1.nodes s.2 = ns at htouch hbounded hpairwise ⊢
  refine ⟨_, after, htouch, ?_⟩
  by_cases hstays : n ∈ ns ∨ ns.length < capacity.val
  · rw [if_pos hstays]
    refine ⟨iff_of_false (by simp) fun hfull => ?_, by simp⟩
    rcases hstays with hmem | hroom
    · exact hfull.1 hmem
    · exact absurd hfull.2 (Nat.ne_of_lt hroom)
  rw [if_neg hstays]
  obtain ⟨hmem, hroom⟩ := not_or.mp hstays
  obtain ⟨ms, o, rfl⟩ := ns.eq_nil_or_concat'.resolve_left (by rintro rfl; exact hroom hpos)
  rw [List.getLast?_concat]
  refine ⟨iff_of_true rfl ⟨hmem, by omega⟩, ?_⟩
  rintro _ ⟨⟩
  refine ⟨List.mem_append_right ms (.head _), ?_, fun m hm hne => ?_⟩
  · rintro rfl
    exact hmem (List.mem_append_right ms (.head _))
  · have hm' : m ∈ ms := (List.mem_append.mp hm).resolve_right (by simpa using hne)
    exact (List.pairwise_append.mp hpairwise).2.2 m hm' o (.head _)

end Stacks

/-- After any touches of nodes, a list that was empty holds the nodes touched most recently, in that
order, and as many as there is room for; it gives up the least recently touched one. A list with
more room holds the same nodes in front. A node stays until as many other nodes were touched since
as there is room for. -/
theorem nodes_of_touches (capacity : Size) (links : LinkTable) (touches : List NodeId) :
    let run := Action.attemptAll touch touches ({ capacity }, links)
    let held := run.2.1.nodes run.2.2
    (∀ answer ∈ run.1, ∃ gone, answer = .ok gone) ∧
      held = (lastTouched touches).take capacity.val ∧ Holds run.2.1 run.2.2 held ∧
      held.Pairwise (fun m o => TouchedSince touches o m) ∧
      (∀ n, ∃ gone after, touch n run.2 = .ok gone after ∧
        (gone.isSome ↔ n ∉ held ∧ held.length = capacity.val) ∧
        ∀ o, gone = some o → o ∈ held ∧ o ≠ n ∧ ∀ m ∈ held, m ≠ o → TouchedSince touches o m) ∧
      (∀ (larger : Size) (links' : LinkTable), capacity.val ≤ larger.val →
        let other := (Action.attemptAll touch touches ({ capacity := larger }, links')).2
        held <+: other.1.nodes other.2) ∧
      ∀ past n later, touches = past ++ n :: later → n ∉ later →
        (n ∈ held ↔ later.toFinset.card < capacity.val) := by
  intro run held
  obtain ⟨hanswers, hstacks⟩ := Stacks.attemptAll capacity links touches
  have hheld : held = (lastTouched touches).take capacity.val := hstacks.holds.nodes_eq
  refine ⟨hanswers, hheld, hheld ▸ hstacks.holds, hstacks.pairwise, hstacks.givesUp, ?_, ?_⟩
  · intro larger links' hle other
    have hother := (Stacks.attemptAll larger links' touches).2.holds.nodes_eq
    rw [hheld, hother]
    exact List.take_prefix_take_left hle
  · rintro past n later rfl hn
    rw [hheld, mem_take_lastTouched hn]

/-- Where there is room for one node only, a refreshed node is given up to the next insertion. -/
example :
    (Action.attemptAll touch [5, 5, 6, 5] ({ capacity := .one }, .empty)).1 =
      [.ok none, .ok none, .ok (some 5), .ok (some 6)] := by decide

end RecencyList

end CachePool
