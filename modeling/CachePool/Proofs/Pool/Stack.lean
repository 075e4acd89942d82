import CachePool.Pool.Stack
import CachePool.Proofs.Walk

/-!
# Stacks as lists

Between two operations a stack is unclaimed, and the tails lead from its head
through the nodes it holds. A push puts a node in front of them and a pop takes the
first one, so no push ever waits and no claim ever finds its mark replaced. Either
operation writes the tail of its own node only.
-/

namespace CachePool

namespace ClaimStack

/-- The stack is unclaimed, and the tails lead through the nodes, the one pushed last first. -/
structure Holds (s : ClaimStack) (tails : TailTable) (ns : List NodeId) : Prop where
  nodup : ns.Nodup
  head : s.head = .ofLink ns.head?
  path : Path tails.get ns ns.head? none

variable {s : ClaimStack} {tails tails' : TailTable} {ns : List NodeId} {n : NodeId}

/-- A new stack holds nothing, whatever the tails are. -/
theorem holds_empty (tails : TailTable) : Holds {} tails [] := ⟨List.nodup_nil, rfl, rfl⟩

/-- The stack after a pop of the node on top of the given ones. -/
def below (ns : List NodeId) : ClaimStack := { head := .ofLink ns.head? }

namespace Holds

/-- What a stack holds depends on the tails of its own nodes only. -/
theorem congr (h : Holds s tails ns) (hs : ∀ m ∈ ns, tails'.get m = tails.get m) :
    Holds s tails' ns :=
  ⟨h.nodup, h.head, h.path.congr hs⟩

/-- A write to the tail of another node leaves a stack alone. -/
theorem set (h : Holds s tails ns) (hn : n ∉ ns) (link : Option NodeId) :
    Holds s (tails.set n link) ns := by
  apply h.congr
  intro m hm
  apply Table.get_set_ne
  rintro rfl
  exact hn hm

/-- No pop is under way on a stack that holds nodes. -/
theorem isClaimed_eq (h : Holds s tails ns) : s.isClaimed = false := by
  rw [isClaimed, h.head]
  cases ns <;> rfl

/-- A stack is empty exactly when it holds no node. -/
theorem isEmpty_eq (h : Holds s tails ns) : s.isEmpty = ns.isEmpty := by
  rw [isEmpty, h.head]
  cases ns <;> rfl

/-- The walk from the head meets the nodes held. -/
theorem follow_eq (h : Holds s tails ns) {fuel : Nat} (hf : ns.length ≤ fuel) :
    follow tails.get fuel ns.head? = ns :=
  h.path.follow_eq hf

/-- A push links its node to the one that was on top. -/
theorem push_eq (h : Holds s tails ns) :
    s.push tails n = .ok ({ head := .node n }, tails.set n ns.head?) := by
  cases ns with
  | nil => rw [push, h.head]; rfl
  | cons top rest => rw [push, h.head]; rfl

/-- After a push of a node that was not held, the node is held in front of the others. -/
theorem push (h : Holds s tails ns) (hn : n ∉ ns) :
    Holds { head := .node n } (tails.set n ns.head?) (n :: ns) where
  nodup := List.nodup_cons.mpr ⟨hn, h.nodup⟩
  head := rfl
  path := by
    refine ⟨rfl, ?_⟩
    rw [Table.get_set_self]
    exact (h.set hn ns.head?).path

/-- A pop from an empty stack answers nothing and changes nothing. -/
theorem pop_nil (h : Holds s tails []) : s.pop tails = .ok (none, s, tails) := by
  rw [pop, h.head]
  rfl

/-- A pop answers with the node on top and unlinks it. -/
theorem pop_cons (h : Holds s tails (n :: ns)) :
    s.pop tails = .ok (some n, below ns, tails.set n none) := by
  have hnext : tails.get n = ns.head? := h.path.2.start_eq
  rw [pop, h.head, below, ← hnext]
  rfl

/-- After a pop the other nodes are held. -/
theorem pop (h : Holds s tails (n :: ns)) : Holds (below ns) (tails.set n none) ns := by
  obtain ⟨hn, hnodup⟩ := List.nodup_cons.mp h.nodup
  have hrest : Path tails.get ns (tails.get n) none := h.path.2
  have hnext : tails.get n = ns.head? := hrest.start_eq
  rw [hnext] at hrest
  have hbelow : Holds (below ns) tails ns := ⟨hnodup, rfl, hrest⟩
  exact hbelow.set hn none

end Holds

end ClaimStack

end CachePool
