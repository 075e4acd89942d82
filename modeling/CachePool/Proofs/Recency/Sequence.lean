import CachePool.Proofs.Action
import CachePool.Proofs.Recency.Thread

/-!
# Recency lists as bounded sequences

A list holds a sequence of nodes if it threads the sequence, counts it, and has room
for it. An insertion puts its node in front and gives up the last one exactly when
the list was full; a removal takes its node out, a refresh takes it to the front,
and a pop takes the last one, each in the order of the rest. No operation writes
the links of a node that it neither holds nor is given.
-/

namespace CachePool

namespace RecencyList

/-- The list threads the nodes, counts them, and has room for them. -/
structure Holds (l : RecencyList) (links : LinkTable) (ns : List NodeId) : Prop where
  woven : Woven l links ns
  length : l.length = ns.length
  bounded : ns.length ≤ l.capacity.val

/-- What an operation does to a list and its links: the list holds new nodes, and only the links of
the touched nodes were written. -/
structure Rethreaded (before after : ThreadedList) (touched ns : List NodeId) : Prop where
  holds : Holds after.1 after.2 ns
  capacity : after.1.capacity = before.1.capacity
  elsewhere : ∀ m, m ∉ touched → after.2.get m = before.2.get m

variable {l : RecencyList} {links links' : LinkTable} {ns as bs : List NodeId} {n o : NodeId}

/-- An empty list holds nothing, whatever the links are. -/
theorem holds_empty (capacity : Size) (links : LinkTable) : Holds { capacity } links [] where
  woven := ⟨List.nodup_nil, rfl, rfl⟩
  length := rfl
  bounded := Nat.zero_le _

namespace Holds

/-- The walk from the head meets the nodes held. -/
theorem nodes_eq (h : Holds l links ns) : l.nodes links = ns :=
  h.woven.older.follow_eq (Nat.le_of_eq h.length.symm)

/-- What a list holds depends on the links of its own nodes only. -/
theorem congr (h : Holds l links ns) (hs : ∀ m ∈ ns, links'.get m = links.get m) :
    Holds l links' ns :=
  ⟨h.woven.congr hs, h.length, h.bounded⟩

end Holds

namespace Woven

/-- Once a woven node is detached and counted off, the list holds the others. -/
theorem shorten (h : Woven l links (as ++ n :: bs)) (hl : l.length = (as ++ n :: bs).length)
    (hb : (as ++ bs).length ≤ l.capacity.val) :
    ∃ after, RecencyList.shorten (l.detach links n) = .ok () after ∧
      Rethreaded (l, links) after (as ++ n :: bs) (as ++ bs) ∧ after.2.get n = {} := by
  have hlength : (as ++ n :: bs).length = (as ++ bs).length + 1 := by
    simp only [List.length_append, List.length_cons]
    omega
  have hdetach := h.detach
  have hcapacity := detach_capacity l links n
  have hcount := detach_length l links n
  have hself := get_detach_self h
  have hrest : ∀ m, m ∉ as ++ n :: bs → (l.detach links n).2.get m = links.get m :=
    fun m hm => get_detach_of_not_mem h hm
  rcases hd : l.detach links n with ⟨l', links'⟩
  rw [hd] at hdetach hcapacity hcount hself hrest
  simp only at hcount
  refine ⟨({ l' with length := l'.length - 1 }, links'), ?_,
    ⟨⟨⟨hdetach.nodup, hdetach.older, hdetach.newer⟩, ?_, ?_⟩, hcapacity, hrest⟩, hself⟩
  · rw [RecencyList.shorten, if_neg (by omega)]
  · change l'.length - 1 = _
    omega
  · change _ ≤ l'.capacity.val
    rw [hcapacity]
    exact hb

/-- The last of the woven nodes is given up and left without neighbours. -/
theorem popLeast (h : Woven l links (ns ++ [n])) (hl : l.length = (ns ++ [n]).length)
    (hb : ns.length ≤ l.capacity.val) :
    ∃ after, RecencyList.popLeast (l, links) = .ok (some n) after ∧
      Rethreaded (l, links) after (ns ++ [n]) ns ∧ after.2.get n = {} := by
  obtain ⟨after, hshorten, hafter, hself⟩ := h.shorten hl (by rwa [List.append_nil])
  rw [List.append_nil] at hafter
  refine ⟨after, ?_, hafter, hself⟩
  have htail : l.tail = some n := by rw [h.tail_eq, List.getLast?_concat]
  rw [RecencyList.popLeast, Action.get_bind]
  simp only [htail, Action.modify_bind]
  rw [Action.bind_ok hshorten, Action.pure_apply]

end Woven

namespace Holds

/-- A held node is taken out, in the order of the rest, and left without neighbours. -/
theorem erase (h : Holds l links (as ++ n :: bs)) :
    ∃ after, RecencyList.erase n (l, links) = .ok () after ∧
      Rethreaded (l, links) after (as ++ n :: bs) (as ++ bs) ∧ after.2.get n = {} := by
  have hb : (as ++ bs).length ≤ l.capacity.val := by
    have hbounded := h.bounded
    simp only [List.length_append, List.length_cons] at hbounded ⊢
    omega
  obtain ⟨after, hshorten, hafter⟩ := h.woven.shorten h.length hb
  refine ⟨after, ?_, hafter⟩
  rw [RecencyList.erase, Action.get_bind]
  simp only [h.woven.endsAgree, if_true]
  exact hshorten

/-- A held node is taken to the front, in the order of the rest. -/
theorem refresh (h : Holds l links (as ++ n :: bs)) :
    ∃ after, RecencyList.refresh n (l, links) = .ok () after ∧
      Rethreaded (l, links) after (as ++ n :: bs) (n :: (as ++ bs)) := by
  have hperm : (as ++ n :: bs).Perm (n :: (as ++ bs)) := List.perm_middle
  have hnot := (List.nodup_cons.mp (hperm.nodup_iff.mp h.woven.nodup)).1
  cases as with
  | nil =>
    refine ⟨(l, links), ?_, h, rfl, fun _ _ => rfl⟩
    have hhead : l.head = some n := h.woven.head_eq
    rw [RecencyList.refresh, Action.get_bind]
    simp only [hhead, if_true, Action.pure_apply]
  | cons a as =>
    have hhead : l.head ≠ some n := by
      rw [h.woven.head_eq]
      exact fun he => hnot (by simp [Option.some.inj he])
    have hdetach := h.woven.detach
    refine ⟨(l.detach links n).1.attach (l.detach links n).2 n, ?_,
      ⟨hdetach.attach hnot, ?_, ?_⟩, ?_, ?_⟩
    · rw [RecencyList.refresh, Action.get_bind]
      simp only [hhead, if_false, h.woven.endsAgree, if_true]
      rfl
    · rw [attach_length, detach_length, h.length, hperm.length_eq]
    · rw [attach_capacity, detach_capacity, ← hperm.length_eq]
      exact h.bounded
    · rw [attach_capacity, detach_capacity]
    · intro m hm
      have hm' : m ∉ n :: (a :: as ++ bs) := fun he => hm (hperm.mem_iff.mpr he)
      rw [get_attach_of_not_mem hdetach hm', get_detach_of_not_mem h.woven hm]

/-- The last node is given up and left without neighbours. -/
theorem popLeast (h : Holds l links (ns ++ [n])) :
    ∃ after, RecencyList.popLeast (l, links) = .ok (some n) after ∧
      Rethreaded (l, links) after (ns ++ [n]) ns ∧ after.2.get n = {} := by
  refine h.woven.popLeast h.length ?_
  have hbounded := h.bounded
  rw [List.length_append] at hbounded
  omega

/-- An empty list gives up nothing. -/
theorem popLeast_nil (h : Holds l links []) :
    RecencyList.popLeast (l, links) = .ok none (l, links) := by
  have htail : l.tail = none := h.woven.tail_eq
  rw [RecencyList.popLeast, Action.get_bind]
  simp only [htail, Action.pure_apply]

/-- The list with a new node attached and counted. -/
theorem lengthen (h : Holds l links ns) (hn : n ∉ ns) :
    Woven { (l.attach links n).1 with length := l.length + 1 } (l.attach links n).2 (n :: ns) ∧
      l.length + 1 = (n :: ns).length :=
  have hattach := h.woven.attach hn
  ⟨⟨hattach.nodup, hattach.older, hattach.newer⟩, by rw [h.length, List.length_cons]⟩

/-- An insertion attaches and counts its node, and then looks at the length. -/
theorem insert_eq (l : RecencyList) (links : LinkTable) (n : NodeId) :
    RecencyList.insert n (l, links) =
      (if l.capacity.val < l.length + 1 then RecencyList.popLeast else pure none)
        ({ (l.attach links n).1 with length := l.length + 1 }, (l.attach links n).2) := by
  have hlength := attach_length l links n
  have hcapacity := attach_capacity l links n
  rcases hd : l.attach links n with ⟨l', links'⟩
  simp only [hd] at hlength hcapacity
  simp only [RecencyList.insert, Action.modify_bind, Action.get_bind, hd, hlength, hcapacity]

/-- A list with room takes a new node to the front and gives up nothing. -/
theorem insert_room (h : Holds l links ns) (hn : n ∉ ns) (hroom : ns.length < l.capacity.val) :
    ∃ after, RecencyList.insert n (l, links) = .ok none after ∧
      Rethreaded (l, links) after (n :: ns) (n :: ns) := by
  obtain ⟨hwoven, hlength⟩ := h.lengthen hn
  have hle : ¬ l.capacity.val < l.length + 1 := by
    rw [h.length]
    omega
  refine ⟨({ (l.attach links n).1 with length := l.length + 1 }, (l.attach links n).2), ?_,
    ⟨hwoven, hlength, ?_⟩, attach_capacity l links n,
    fun m hm => get_attach_of_not_mem h.woven hm⟩
  · rw [insert_eq, if_neg hle, Action.pure_apply]
  · rw [attach_capacity, List.length_cons]
    exact hroom

/-- A full list takes a new node to the front and gives up its last one. -/
theorem insert_full (h : Holds l links (ns ++ [o])) (hn : n ∉ ns ++ [o])
    (hfull : l.capacity.val ≤ (ns ++ [o]).length) :
    ∃ after, RecencyList.insert n (l, links) = .ok (some o) after ∧
      Rethreaded (l, links) after (n :: (ns ++ [o])) (n :: ns) ∧ after.2.get o = {} := by
  obtain ⟨hwoven, hlength⟩ := h.lengthen hn
  have hlt : l.capacity.val < l.length + 1 := by
    rw [h.length]
    omega
  have hbounded := h.bounded
  rw [List.length_append, List.length_singleton] at hbounded
  rw [← List.cons_append] at hwoven hlength
  obtain ⟨after, hpop, hafter, hself⟩ := hwoven.popLeast hlength (by rwa [attach_capacity])
  refine ⟨after, ?_, ⟨hafter.holds, ?_, ?_⟩, hself⟩
  · rw [insert_eq, if_pos hlt]
    exact hpop
  · rw [hafter.capacity]
    exact attach_capacity l links n
  · intro m hm
    rw [hafter.elsewhere m hm]
    exact get_attach_of_not_mem h.woven hm

end Holds

end RecencyList

end CachePool
