import Mathlib.Data.List.Nodup
import Mathlib.Tactic.SplitIfs
import CachePool.Proofs.Walk
import CachePool.Recency.Basic

/-!
# Threads through shared nodes

A recency list threads a sequence of nodes if the links towards the tail visit the
sequence from the head, the links towards the head visit it backwards from the
tail, and the length counts it. Each operation of a list is a change of the
sequence; it writes only the links of the nodes that were or are threaded, so that
lists over disjoint nodes do not see each other.
-/

namespace CachePool

@[simp] theorem older_setNewer (links : LinkTable) (n m : NodeId) (x : Option NodeId) :
    ((setNewer links n x).get m).older = (links.get m).older := by
  rw [setNewer, Table.get_modify]
  by_cases h : m = n
  · rw [if_pos h, h]
  · rw [if_neg h]

theorem newer_setNewer (links : LinkTable) (n m : NodeId) (x : Option NodeId) :
    ((setNewer links n x).get m).newer = if m = n then x else (links.get m).newer := by
  rw [setNewer, Table.get_modify]
  by_cases h : m = n
  · rw [if_pos h, if_pos h]
  · rw [if_neg h, if_neg h]

@[simp] theorem newer_setOlder (links : LinkTable) (n m : NodeId) (x : Option NodeId) :
    ((setOlder links n x).get m).newer = (links.get m).newer := by
  rw [setOlder, Table.get_modify]
  by_cases h : m = n
  · rw [if_pos h, h]
  · rw [if_neg h]

theorem older_setOlder (links : LinkTable) (n m : NodeId) (x : Option NodeId) :
    ((setOlder links n x).get m).older = if m = n then x else (links.get m).older := by
  rw [setOlder, Table.get_modify]
  by_cases h : m = n
  · rw [if_pos h, if_pos h]
  · rw [if_neg h, if_neg h]

/-- Two nodes have the same neighbours if they have them in both directions. -/
theorem Neighbours.eq_of {a b : Neighbours} (hn : a.newer = b.newer) (ho : a.older = b.older) :
    a = b := by
  cases a
  cases b
  simp_all

namespace RecencyList

variable {l l' : RecencyList} {links links' : LinkTable} {ns as bs : List NodeId} {n : NodeId}

/-- The links visit the nodes in both directions between the ends of the list. -/
structure Woven (l : RecencyList) (links : LinkTable) (ns : List NodeId) : Prop where
  nodup : ns.Nodup
  older : Path (fun n => (links.get n).older) ns l.head none
  newer : Path (fun n => (links.get n).newer) ns.reverse l.tail none

namespace Woven

/-- The head is the first of the nodes. -/
theorem head_eq (h : Woven l links ns) : l.head = ns.head? := h.older.start_eq

/-- The tail is the last of the nodes. -/
theorem tail_eq (h : Woven l links ns) : l.tail = ns.getLast? := by
  rw [h.newer.start_eq, List.head?_reverse]

/-- Seen from the tail, the nodes after a woven node come before it. -/
theorem newer_split (h : Woven l links (as ++ n :: bs)) :
    Path (fun n => (links.get n).newer) (bs.reverse ++ n :: as.reverse) l.tail none := by
  simpa only [List.reverse_append, List.reverse_cons, List.append_assoc,
    List.singleton_append] using h.newer

/-- A woven node has its neighbours in the sequence for links. -/
theorem get_eq (h : Woven l links (as ++ n :: bs)) :
    links.get n = { newer := as.getLast?, older := bs.head? } := by
  refine Neighbours.eq_of ?_ h.older.next_eq
  rw [h.newer_split.next_eq, List.head?_reverse]

/-- The weave depends on the links of its own nodes only. -/
theorem congr (h : Woven l links ns) (hs : ∀ m ∈ ns, links'.get m = links.get m) :
    Woven l links' ns where
  nodup := h.nodup
  older := h.older.congr fun m hm => by rw [hs m hm]
  newer := h.newer.congr fun m hm => by rw [hs m (List.mem_reverse.mp hm)]

/-- A list that holds a node does not refuse it. -/
theorem endsAgree (h : Woven l links (as ++ n :: bs)) : l.endsAgree links n = true := by
  have hhead := h.head_eq
  have htail := h.tail_eq
  rw [RecencyList.endsAgree, h.get_eq, hhead, htail, Bool.and_eq_true]
  constructor
  · cases as with
    | nil => simp
    | cons a as => simp [List.getLast?_cons]
  · cases bs <;> simp

end Woven

/-- An attached node is followed by the former head. -/
theorem older_attach (l : RecencyList) (links : LinkTable) (n m : NodeId) :
    ((l.attach links n).2.get m).older = if m = n then l.head else (links.get m).older := by
  unfold attach
  cases h : l.head with
  | none =>
    simp only [Table.get_set]
    split <;> rfl
  | some head =>
    simp only [older_setNewer, Table.get_set]
    split <;> rfl

/-- An attached node comes before the former head. -/
theorem newer_attach (l : RecencyList) (links : LinkTable) (n m : NodeId) :
    ((l.attach links n).2.get m).newer =
      if l.head = some m then some n else if m = n then none else (links.get m).newer := by
  unfold attach
  cases h : l.head with
  | none =>
    simp only [Table.get_set, reduceCtorEq, if_false]
    split <;> rfl
  | some head =>
    simp only [newer_setNewer, Table.get_set, Option.some.injEq, eq_comm (a := head)]
    by_cases hm : m = head
    · rw [if_pos hm, if_pos hm]
    · rw [if_neg hm, if_neg hm]
      split <;> rfl

@[simp] theorem attach_head (l : RecencyList) (links : LinkTable) (n : NodeId) :
    (l.attach links n).1.head = some n := by
  unfold attach
  cases l.head <;> rfl

theorem attach_tail (l : RecencyList) (links : LinkTable) (n : NodeId) :
    (l.attach links n).1.tail = if l.head = none then some n else l.tail := by
  unfold attach
  cases l.head <;> rfl

@[simp] theorem attach_length (l : RecencyList) (links : LinkTable) (n : NodeId) :
    (l.attach links n).1.length = l.length := by
  unfold attach
  cases l.head <;> rfl

@[simp] theorem attach_capacity (l : RecencyList) (links : LinkTable) (n : NodeId) :
    (l.attach links n).1.capacity = l.capacity := by
  unfold attach
  cases l.head <;> rfl

/-- Attaching touches the links of the node and of the former head only. -/
theorem get_attach_of_not_mem (h : Woven l links ns) {m : NodeId} (hm : m ∉ n :: ns) :
    (l.attach links n).2.get m = links.get m := by
  have hne : m ≠ n := fun he => hm (he ▸ List.mem_cons_self)
  have hhead : l.head ≠ some m := by
    rw [h.head_eq]
    exact fun he => hm (List.mem_cons_of_mem n (List.mem_of_head? he))
  refine Neighbours.eq_of ?_ ?_
  · rw [newer_attach, if_neg hhead, if_neg hne]
  · rw [older_attach, if_neg hne]

/-- Attaching a new node puts it before the woven ones. -/
theorem Woven.attach (h : Woven l links ns) (hn : n ∉ ns) :
    Woven (l.attach links n).1 (l.attach links n).2 (n :: ns) where
  nodup := List.nodup_cons.mpr ⟨hn, h.nodup⟩
  older := by
    refine ⟨attach_head l links n, ?_⟩
    simp only [older_attach l links n n, if_true]
    refine h.older.congr fun m hm => ?_
    have hne : m ≠ n := fun he => hn (he ▸ hm)
    rw [older_attach, if_neg hne]
  newer := by
    rw [List.reverse_cons, attach_tail, Path.concat_iff]
    constructor
    · cases ns with
      | nil =>
        rw [h.head_eq]
        rfl
      | cons head rest =>
        have hhead : l.head = some head := h.head_eq
        have hw := h.newer
        rw [List.reverse_cons, Path.concat_iff] at hw
        rw [hhead, if_neg (by simp), List.reverse_cons, Path.concat_iff]
        refine ⟨hw.1.congr fun m hm => ?_, ?_⟩
        · have hmr := List.mem_reverse.mp hm
          have hne : m ≠ head := fun he => (List.nodup_cons.mp h.nodup).1 (he ▸ hmr)
          have hnn : m ≠ n := fun he => hn (he ▸ List.mem_cons_of_mem head hmr)
          rw [newer_attach, hhead, if_neg (fun he => hne (Option.some.inj he).symm), if_neg hnn]
        · rw [newer_attach, if_pos hhead]
    · have hhead : l.head ≠ some n := by
        rw [h.head_eq]
        exact fun he => hn (List.mem_of_head? he)
      rw [newer_attach, if_neg hhead, if_pos rfl]

/-- A detached node passes its older neighbour on to its newer one. -/
theorem older_detach (l : RecencyList) (links : LinkTable) (n m : NodeId) :
    ((l.detach links n).2.get m).older =
      if (links.get n).newer = some m then (links.get n).older
      else if m = n then none else (links.get m).older := by
  rcases hl : links.get n with ⟨_ | p, _ | q⟩ <;>
    simp only [detach, hl, older_setNewer, older_setOlder, Table.get_set, reduceCtorEq, if_false,
      Option.some.injEq, eq_comm (b := m)]
  all_goals split_ifs <;> rfl

/-- A detached node passes its newer neighbour on to its older one. -/
theorem newer_detach (l : RecencyList) (links : LinkTable) (n m : NodeId) :
    ((l.detach links n).2.get m).newer =
      if (links.get n).older = some m then (links.get n).newer
      else if m = n then none else (links.get m).newer := by
  rcases hl : links.get n with ⟨_ | p, _ | q⟩ <;>
    simp only [detach, hl, newer_setNewer, newer_setOlder, Table.get_set, reduceCtorEq, if_false,
      Option.some.injEq, eq_comm (b := m)]
  all_goals split_ifs <;> rfl

theorem detach_head (l : RecencyList) (links : LinkTable) (n : NodeId) :
    (l.detach links n).1.head = match (links.get n).newer with
      | none => (links.get n).older
      | some _ => l.head := by
  rcases hl : links.get n with ⟨_ | p, _ | q⟩ <;> simp only [detach, hl]

theorem detach_tail (l : RecencyList) (links : LinkTable) (n : NodeId) :
    (l.detach links n).1.tail = match (links.get n).older with
      | none => (links.get n).newer
      | some _ => l.tail := by
  rcases hl : links.get n with ⟨_ | p, _ | q⟩ <;> simp only [detach, hl]

@[simp] theorem detach_length (l : RecencyList) (links : LinkTable) (n : NodeId) :
    (l.detach links n).1.length = l.length := by
  rcases hl : links.get n with ⟨_ | p, _ | q⟩ <;> simp only [detach, hl]

@[simp] theorem detach_capacity (l : RecencyList) (links : LinkTable) (n : NodeId) :
    (l.detach links n).1.capacity = l.capacity := by
  rcases hl : links.get n with ⟨_ | p, _ | q⟩ <;> simp only [detach, hl]

/-- A detached node is left without neighbours. -/
theorem get_detach_self (h : Woven l links (as ++ n :: bs)) :
    (l.detach links n).2.get n = {} := by
  have hn := h.nodup
  rw [List.nodup_append, List.nodup_cons] at hn
  refine Neighbours.eq_of ?_ ?_
  · have hb : bs.head? ≠ some n := fun he => hn.2.1.1 (List.mem_of_head? he)
    rw [newer_detach, h.get_eq, if_neg hb, if_pos rfl]
  · have ha : as.getLast? ≠ some n := fun he =>
      hn.2.2 n (List.mem_of_getLast? he) n List.mem_cons_self rfl
    rw [older_detach, h.get_eq, if_neg ha, if_pos rfl]

/-- Detaching touches the links of the node and of its neighbours only. -/
theorem get_detach_of_not_mem (h : Woven l links (as ++ n :: bs)) {m : NodeId}
    (hm : m ∉ as ++ n :: bs) : (l.detach links n).2.get m = links.get m := by
  have hne : m ≠ n := fun he => hm (by simp [he])
  have ha : as.getLast? ≠ some m := fun he => hm (by simp [List.mem_of_getLast? he])
  have hb : bs.head? ≠ some m := fun he => hm (by simp [List.mem_of_head? he])
  refine Neighbours.eq_of ?_ ?_
  · rw [newer_detach, h.get_eq, if_neg hb, if_neg hne]
  · rw [older_detach, h.get_eq, if_neg ha, if_neg hne]

/-- Detaching a woven node leaves the others woven in their order. -/
theorem Woven.detach (h : Woven l links (as ++ n :: bs)) :
    Woven (l.detach links n).1 (l.detach links n).2 (as ++ bs) := by
  have hperm : (as ++ n :: bs).Perm (n :: (as ++ bs)) := List.perm_middle
  obtain ⟨hnot, hnodup⟩ := List.nodup_cons.mp (hperm.nodup_iff.mp h.nodup)
  have hne : ∀ m ∈ as ++ bs, m ≠ n := fun m hm he => hnot (he ▸ hm)
  have hget := h.get_eq
  refine ⟨hnodup, ?_, ?_⟩
  · have hpath : Path (fun m => ((l.detach links n).2.get m).older) (as ++ bs) _ none :=
      h.older.bypass (fun p hp => by simp [older_detach, hget, hp])
        (fun m hm hp => by simp [older_detach, hget, hp, hne m hm]) hnodup
    have hstart : (l.detach links n).1.head =
        Path.startWithout (fun n => (links.get n).older) as n l.head := by
      rewrite [detach_head, Path.startWithout, hget]
      cases as.getLast? <;> rfl
    rw [hstart]
    exact hpath
  · have hmem : ∀ m, m ∈ bs.reverse ++ as.reverse ↔ m ∈ as ++ bs := fun m => by
      simp only [List.mem_append, List.mem_reverse, or_comm]
    have hpath : Path (fun m => ((l.detach links n).2.get m).newer) (bs.reverse ++ as.reverse) _
        none :=
      h.newer_split.bypass
        (fun p hp => by
          rw [List.getLast?_reverse] at hp
          simp [newer_detach, hget, hp])
        (fun m hm hp => by
          rw [List.getLast?_reverse] at hp
          simp [newer_detach, hget, hp, hne m ((hmem m).mp hm)])
        (by rw [← List.reverse_append]; exact List.nodup_reverse.mpr hnodup)
    have hstart : (l.detach links n).1.tail =
        Path.startWithout (fun n => (links.get n).newer) bs.reverse n l.tail := by
      rewrite [detach_tail, Path.startWithout, hget, List.getLast?_reverse]
      cases bs.head? <;> rfl
    rw [hstart, List.reverse_append]
    exact hpath

end RecencyList

end CachePool
