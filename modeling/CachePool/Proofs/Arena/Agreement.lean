import CachePool.Arena
import CachePool.Proofs.Lockstep
import CachePool.Proofs.Recency.Sequence

/-!
# Arenas that look alike

Two arenas agree if they have the same lists, the same neighbours and bucket links at
every node, the same index and the same entries. How far the tables behind them reach
cannot be seen: calls go in lockstep on arenas that agree, whether or not they are
permitted, so whatever is called later is answered alike.
-/

namespace CachePool

namespace RecencyList

/-- The same list, with the same neighbours at every node. -/
structure Alike (s t : ThreadedList) : Prop where
  list : s.1 = t.1
  links : ∀ n, s.2.get n = t.2.get n

namespace Alike

variable {l l' : RecencyList} {links links' : LinkTable} {s t : ThreadedList} {n : NodeId}

/-- A node is attached before the same head, whatever the other links are. -/
theorem attach (h : Alike (l, links) (l', links')) (n : NodeId) :
    Alike (l.attach links n) (l'.attach links' n) := by
  obtain rfl : l = l' := h.list
  have hlinks : ∀ m, links.get m = links'.get m := h.links
  constructor
  · unfold RecencyList.attach
    cases l.head <;> rfl
  · intro m
    apply Neighbours.eq_of
    · rw [newer_attach, newer_attach, hlinks m]
    · rw [older_attach, older_attach, hlinks m]

/-- A node is detached from between the same neighbours. -/
theorem detach (h : Alike (l, links) (l', links')) (n : NodeId) :
    Alike (l.detach links n) (l'.detach links' n) := by
  obtain rfl : l = l' := h.list
  have hlinks : ∀ m, links.get m = links'.get m := h.links
  constructor
  · have hn := hlinks n
    rcases hget : links'.get n with ⟨_ | p, _ | q⟩ <;>
      simp only [RecencyList.detach, hn, hget]
  · intro m
    apply Neighbours.eq_of
    · rw [newer_detach, newer_detach, hlinks n, hlinks m]
    · rw [older_detach, older_detach, hlinks n, hlinks m]

/-- The same nodes are refused. -/
theorem endsAgree (h : Alike (l, links) (l', links')) (n : NodeId) :
    l.endsAgree links n = l'.endsAgree links' n := by
  obtain rfl : l = l' := h.list
  have hn : links.get n = links'.get n := h.links n
  rw [RecencyList.endsAgree, RecencyList.endsAgree, hn]

theorem shorten (h : Alike s t) : Lockstep Alike (shorten s) (shorten t) := by
  obtain ⟨l, links⟩ := s
  obtain ⟨l', links'⟩ := t
  obtain rfl : l = l' := h.list
  simp only [RecencyList.shorten]
  by_cases hlength : l.length = 0
  · rw [if_pos hlength, if_pos hlength]
    exact .error h
  · rw [if_neg hlength, if_neg hlength]
    exact .ok ⟨rfl, h.links⟩

theorem popLeast (h : Alike s t) : Lockstep Alike (popLeast s) (popLeast t) := by
  have htail : s.1.tail = t.1.tail := by rw [h.list]
  simp only [RecencyList.popLeast, Action.get_bind, htail]
  cases t.1.tail with
  | none => exact .ok h
  | some n =>
    exact (h.detach n).shorten.bind (fun _ _ hst => hst) fun _ _ _ hst => .ok hst

theorem insert (h : Alike s t) (n : NodeId) : Lockstep Alike (insert n s) (insert n t) := by
  obtain ⟨l, links⟩ := s
  obtain ⟨l', links'⟩ := t
  have hattach := h.attach n
  obtain rfl : l = l' := h.list
  rw [Holds.insert_eq, Holds.insert_eq, hattach.list]
  have hlengthened : Alike
      ({ (l.attach links' n).1 with length := l.length + 1 }, (l.attach links n).2)
      ({ (l.attach links' n).1 with length := l.length + 1 }, (l.attach links' n).2) :=
    ⟨rfl, hattach.links⟩
  split
  · exact hlengthened.popLeast
  · exact .ok hlengthened

theorem erase (h : Alike s t) (n : NodeId) : Lockstep Alike (erase n s) (erase n t) := by
  simp only [RecencyList.erase, Action.get_bind, h.endsAgree n]
  cases t.1.endsAgree t.2 n with
  | true => exact (h.detach n).shorten
  | false => exact .error h

theorem refresh (h : Alike s t) (n : NodeId) : Lockstep Alike (refresh n s) (refresh n t) := by
  have hhead : s.1.head = t.1.head := by rw [h.list]
  simp only [RecencyList.refresh, Action.get_bind, hhead, h.endsAgree n]
  split
  · exact .ok h
  · cases t.1.endsAgree t.2 n with
    | true => exact .ok ((h.detach n).attach n)
    | false => exact .error h

end Alike

/-- Lists of one capacity that hold the same sequence are equal. -/
theorem Holds.list_eq {l l' : RecencyList} {links links' : LinkTable} {ns : List NodeId}
    (h : l.Holds links ns) (h' : l'.Holds links' ns) (hcapacity : l.capacity = l'.capacity) :
    l = l' := by
  have hlength := h.length.trans h'.length.symm
  have hhead := h.woven.head_eq.trans h'.woven.head_eq.symm
  have htail := h.woven.tail_eq.trans h'.woven.tail_eq.symm
  cases l
  cases l'
  simp_all only

/-- The nodes of a sequence have the same neighbours in all lists that hold it. -/
theorem Holds.links_eq {l l' : RecencyList} {links links' : LinkTable} {ns : List NodeId}
    {n : NodeId} (h : l.Holds links ns) (h' : l'.Holds links' ns) (hn : n ∈ ns) :
    links.get n = links'.get n := by
  obtain ⟨as, bs, rfl⟩ := List.append_of_mem hn
  rw [h.woven.get_eq, h'.woven.get_eq]

end RecencyList

namespace Arena

variable {κ α : Type} {a b : Arena κ α}

/-- The same lists, neighbours, bucket links, index and entries. -/
structure Agrees (a b : Arena κ α) : Prop where
  /-- Each list has the same ends, the same length and the same capacity. -/
  lists : ∀ list, a.lists.get list = b.lists.get list
  links : ∀ n, a.links.get n = b.links.get n
  /-- The index has the same heads and the same length. -/
  index : a.index = b.index
  chain : a.chain = b.chain
  entries : a.entries = b.entries

/-- In arenas that agree the lists hold the same nodes in the same order. -/
theorem Agrees.nodes_eq (h : a.Agrees b) (list : Nat) : a.nodes list = b.nodes list := by
  rw [nodes, nodes, h.lists, RecencyList.nodes, RecencyList.nodes, funext h.links]

/-- An action that goes in lockstep on lists that look alike does so on those of an arena. -/
theorem Agrees.onList {ρ : Type} {action : Action ThreadedList ρ} (h : a.Agrees b)
    (haction : ∀ s t, RecencyList.Alike s t → Lockstep RecencyList.Alike (action s) (action t))
    (list : Nat) : Lockstep Agrees (onList list action a) (onList list action b) := by
  have hpart : RecencyList.Alike (a.lists.get list, a.links) (b.lists.get list, b.links) :=
    ⟨h.lists list, h.links⟩
  have hput : ∀ s t : ThreadedList, RecencyList.Alike s t →
      Agrees { a with lists := a.lists.set list s.1, links := s.2 }
        { b with lists := b.lists.set list t.1, links := t.2 } := by
    intro s t hst
    refine ⟨fun other => ?_, hst.links, h.index, h.chain, h.entries⟩
    simp only [Table.get_set, hst.list, h.lists other]
  have hlockstep := haction _ _ hpart
  simp only [Arena.onList, Action.within]
  generalize action (a.lists.get list, a.links) = left at hlockstep ⊢
  generalize action (b.lists.get list, b.links) = right at hlockstep ⊢
  cases hlockstep with
  | ok hst => exact .ok (hput _ _ hst)
  | error hst => exact .error (hput _ _ hst)

variable [DecidableEq κ]

/-- Every call goes in lockstep on arenas that agree. -/
theorem Agrees.call (h : a.Agrees b) (x : ArenaCall κ) :
    Lockstep Agrees (call x a) (call x b) := by
  have hindex := h.index
  have hchain := h.chain
  have hentries := h.entries
  cases x with
  | insert list n =>
    exact (h.onList (fun _ _ hst => hst.insert n) list).bind (fun _ _ hab => hab)
      fun _ _ _ hab => .ok hab
  | erase list n =>
    exact (h.onList (fun _ _ hst => hst.erase n) list).bind (fun _ _ hab => hab)
      fun _ _ _ hab => .ok hab
  | refresh list n =>
    exact (h.onList (fun _ _ hst => hst.refresh n) list).bind (fun _ _ hab => hab)
      fun _ _ _ hab => .ok hab
  | popLeast list =>
    exact (h.onList (fun _ _ hst => hst.popLeast) list).bind (fun _ _ hab => hab)
      fun _ _ _ hab => .ok hab
  | enrol n =>
    simp only [Arena.call, hindex, hchain, hentries]
    exact .ok ⟨h.lists, h.links, rfl, rfl, rfl⟩
  | strike n =>
    simp only [Arena.call, hindex, hchain, hentries]
    exact .ok ⟨h.lists, h.links, rfl, rfl, rfl⟩
  | lookup key =>
    simp only [Arena.call, hindex, hchain, hentries]
    exact .ok h
  | clear =>
    simp only [Arena.call, hindex]
    exact .ok ⟨h.lists, h.links, rfl, hchain, hentries⟩

/-- Whatever is called on arenas that agree is answered alike, and leaves them in agreement. -/
theorem Agrees.attemptAll (h : a.Agrees b) (later : List (ArenaCall κ)) :
    (Action.attemptAll Arena.call later a).1 = (Action.attemptAll Arena.call later b).1 ∧
      (Action.attemptAll Arena.call later a).2.Agrees (Action.attemptAll Arena.call later b).2 :=
  Lockstep.attemptAll (fun x _ _ hab => Agrees.call hab x) later h

end Arena

end CachePool
