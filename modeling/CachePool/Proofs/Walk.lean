import Mathlib.Data.List.Basic
import CachePool.Walk

/-!
# Paths along successor links

A path is a list of nodes that the links visit one after the other, from a start
to a stop. Every linked structure of the library is such a path, or two of them in
opposite directions; its surgery is the cut, the extension or the bypass of a
path, and whatever leaves the links of the visited nodes alone leaves it standing.
-/

namespace CachePool

/-- From the start, the links visit the given nodes in order and then arrive at the stop. -/
def Path (next : NodeId → Option NodeId) : List NodeId → Option NodeId → Option NodeId → Prop
  | [], start, stop => start = stop
  | n :: rest, start, stop => start = some n ∧ Path next rest (next n) stop

namespace Path

variable {next next' : NodeId → Option NodeId} {ns as bs : List NodeId}
  {start stop : Option NodeId} {n : NodeId}

@[simp] theorem nil_iff : Path next [] start stop ↔ start = stop := Iff.rfl

@[simp] theorem cons_iff :
    Path next (n :: ns) start stop ↔ start = some n ∧ Path next ns (next n) stop := Iff.rfl

/-- A path through two lists passes a link between them. -/
theorem append_iff :
    Path next (as ++ bs) start stop ↔ ∃ mid, Path next as start mid ∧ Path next bs mid stop := by
  induction as generalizing start with
  | nil => simp
  | cons a as ih => simp [ih, and_assoc]

/-- A path that ends at a node is extended by the link of that node. -/
theorem concat_iff :
    Path next (ns ++ [n]) start stop ↔ Path next ns start (some n) ∧ next n = stop := by
  simp [append_iff]

/-- A path is kept by whatever keeps the links of its nodes. -/
theorem congr (h : Path next ns start stop) (hs : ∀ m ∈ ns, next' m = next m) :
    Path next' ns start stop := by
  induction ns generalizing start with
  | nil => exact h
  | cons m ns ih =>
    obtain ⟨hstart, hrest⟩ := h
    refine ⟨hstart, ?_⟩
    rw [hs m List.mem_cons_self]
    exact ih hrest fun k hk => hs k (List.mem_cons_of_mem m hk)

/-- A path that runs out starts at its first node. -/
theorem start_eq (h : Path next ns start none) : start = ns.head? := by
  cases ns with
  | nil => exact h
  | cons n ns => exact h.1

/-- A walk with enough steps meets exactly the nodes of a path that runs out. -/
theorem follow_eq (h : Path next ns start none) {fuel : Nat} (hf : ns.length ≤ fuel) :
    follow next fuel start = ns := by
  induction ns generalizing start fuel with
  | nil =>
    rw [nil_iff.mp h]
    cases fuel <;> rfl
  | cons n ns ih =>
    obtain ⟨rfl, hrest⟩ := h
    cases fuel with
    | zero => simp at hf
    | succ fuel =>
      rw [follow, ih hrest (by simpa using hf)]

/-- The successor of a node on a path that runs out is the next node of the list. -/
theorem next_eq (h : Path next (as ++ n :: bs) start none) : next n = bs.head? := by
  obtain ⟨mid, -, -, hb⟩ := append_iff.mp h
  exact hb.start_eq

/-- Where a path starts when one of its nodes is bypassed. -/
def startWithout (next : NodeId → Option NodeId) (as : List NodeId) (n : NodeId)
    (start : Option NodeId) : Option NodeId :=
  match as.getLast? with
  | none => next n
  | some _ => start

/-- A path runs on without one of its nodes once the predecessor takes over its link. -/
theorem bypass (h : Path next (as ++ n :: bs) start stop)
    (hlast : ∀ p, as.getLast? = some p → next' p = next n)
    (hsame : ∀ m ∈ as ++ bs, as.getLast? ≠ some m → next' m = next m)
    (hn : (as ++ bs).Nodup) :
    Path next' (as ++ bs) (startWithout next as n start) stop := by
  obtain ⟨mid, ha, hmid, hb⟩ := append_iff.mp h
  unfold startWithout
  cases hl : as.getLast? with
  | none =>
    rw [List.getLast?_eq_none_iff] at hl
    subst hl
    refine hb.congr fun m hm => hsame m hm ?_
    simp
  | some p =>
    obtain ⟨before, rfl⟩ := List.getLast?_eq_some_iff.mp hl
    obtain ⟨hbefore, -⟩ := concat_iff.mp ha
    have hp : ∀ m ∈ before ++ bs, m ≠ p := by
      rintro m hm rfl
      have hperm : (before ++ [m] ++ bs).Perm (m :: (before ++ bs)) := by simp
      exact (List.nodup_cons.mp (hperm.nodup_iff.mp hn)).1 hm
    have hkeep : ∀ m ∈ before ++ bs, next' m = next m := by
      intro m hm
      refine hsame m (by simp only [List.mem_append] at hm ⊢; tauto) ?_
      rw [hl]
      exact fun he => hp m hm (Option.some.inj he).symm
    rw [List.append_assoc]
    refine append_iff.mpr ⟨some p, ?_, rfl, ?_⟩
    · exact hbefore.congr fun m hm => hkeep m (List.mem_append_left _ hm)
    · rw [hlast p hl]
      exact hb.congr fun m hm => hkeep m (List.mem_append_right _ hm)

end Path

end CachePool
