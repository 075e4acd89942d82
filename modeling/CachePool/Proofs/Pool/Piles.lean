import CachePool.Pool.StackSet
import CachePool.Proofs.Lockstep
import CachePool.Proofs.Pool.Stack
import Mathlib.Logic.Function.Basic

/-!
# Stacks over shared nodes as piles

Any number of stacks share a set of nodes. As long as a node is only pushed where no
stack holds it, each stack is a pile of its own: a push lays a node on top, a pop takes
the top node off and hands it out, and no other stack sees either. A pop puts its mark in
place of the head and takes it away again, so between two calls no stack is claimed and
no tail leads to a mark; a node on no stack has no successor.
-/

namespace CachePool

/-- A call on stacks over shared nodes. -/
inductive StackCall (τ : Type) where
  | push (stack : Nat) (n : NodeId)
  | pop (stack : Nat)
  | isEmpty (stack : Nat)
  /-- Put a payload into a node, or none. -/
  | exchange (n : NodeId) (payload : Option τ)

/-- What a call answers. -/
inductive StackAnswer (τ : Type) where
  | done
  | node (n : Option NodeId)
  | flag (b : Bool)
  /-- What the node held before. -/
  | payload (before : Option τ)
  deriving DecidableEq

/-- The stack that a call is on, if it is on one. -/
def StackCall.stack? {τ : Type} : StackCall τ → Option Nat
  | .push stack _ | .pop stack | .isEmpty stack => some stack
  | .exchange _ _ => none

/-- The nodes of every stack, by its number, the one pushed last first, and what each node holds. -/
structure Piles (τ : Type) where
  nodes : Nat → List NodeId := fun _ => []
  slots : NodeId → Option τ := fun _ => none

namespace Piles

variable {τ : Type} {p : Piles τ} {stack other : Nat} {ns : List NodeId}

/-- Replace the pile of a stack. -/
def put (p : Piles τ) (stack : Nat) (ns : List NodeId) : Piles τ :=
  { p with nodes := Function.update p.nodes stack ns }

@[simp] theorem nodes_put_self : (p.put stack ns).nodes stack = ns := by simp [put]

theorem nodes_put_of_ne (h : other ≠ stack) : (p.put stack ns).nodes other = p.nodes other := by
  simp [put, h]

@[simp] theorem put_nodes : p.put stack (p.nodes stack) = p := by
  rw [put, Function.update_eq_self]

/-- The answer to a call, and the piles after it. -/
def step : StackCall τ → Piles τ → StackAnswer τ × Piles τ
  | .push stack n, p => (.done, p.put stack (n :: p.nodes stack))
  | .pop stack, p => (.node (p.nodes stack).head?, p.put stack (p.nodes stack).tail)
  | .isEmpty stack, p => (.flag (p.nodes stack).isEmpty, p)
  | .exchange n payload, p =>
    (.payload (p.slots n), { p with slots := Function.update p.slots n payload })

/-- No pile has the node. -/
def Free (p : Piles τ) (n : NodeId) : Prop := ∀ stack, n ∉ p.nodes stack

/-- A node is pushed only if no stack holds it. -/
def Permits : StackCall τ → Piles τ → Prop
  | .push _ n, p => p.Free n
  | .pop _, _ | .isEmpty _, _ | .exchange _ _, _ => True

end Piles

namespace StackSet

variable {τ : Type} {s s' : StackSet τ} {p : Piles τ} {stack : Nat} {n : NodeId}
  {ns : List NodeId} {request : StackCall τ}

/-- Perform a call. -/
def call : StackCall τ → Action (StackSet τ) (StackAnswer τ)
  | .push stack n => fun s =>
    match s.push stack n with
    | .ok s => .ok .done s
    | .error fault => .error fault s
  | .pop stack => fun s =>
    match s.pop stack with
    | .ok (n, s) => .ok (.node n) s
    | .error fault => .error fault s
  | .isEmpty stack => fun s => .ok (.flag (s.members.get stack).isEmpty) s
  | .exchange n payload => fun s =>
    let (before, s) := s.exchange n payload
    .ok (.payload before) s

/-- Every stack holds its pile, no node is in two piles, and those in none have no successor. -/
structure Stacks (s : StackSet τ) (p : Piles τ) : Prop where
  holds : ∀ stack, (s.members.get stack).Holds s.tails (p.nodes stack)
  apart : ∀ n stack other, n ∈ p.nodes stack → n ∈ p.nodes other → stack = other
  loose : ∀ n, p.Free n → s.tails.get n = none
  slots : ∀ n, s.slots.get n = p.slots n

/-- New stacks hold nothing, and their nodes are vacant. -/
theorem stacks_empty : Stacks ({} : StackSet τ) {} where
  holds stack := by
    rw [Table.get_empty]
    exact ClaimStack.holds_empty _
  apart := by simp
  loose := fun n _ => Table.get_empty n
  slots := fun n => Table.get_empty n

/-- Another stack than the given one, and the tails of its nodes, are as they were. -/
def Spares (s s' : StackSet τ) (p : Piles τ) (stack : Option Nat) : Prop :=
  ∀ other, stack ≠ some other → s'.members.get other = s.members.get other ∧
    ∀ n ∈ p.nodes other, s'.tails.get n = s.tails.get n

/-- A stack that comes to hold another pile by a write to the tail of one node spares the other
stacks, if they do not hold the node. -/
theorem Stacks.restack (h : s.Stacks p) {top : ClaimStack} {link : Option NodeId}
    (htop : top.Holds (s.tails.set n link) ns) (hothers : ∀ other ≠ stack, n ∉ p.nodes other)
    (hsame : ∀ m ≠ n, m ∈ ns ↔ m ∈ p.nodes stack) (hgone : n ∉ ns → link = none) :
    let after := { s with members := s.members.set stack top, tails := s.tails.set n link }
    Stacks after (p.put stack ns) ∧ Spares s after p (some stack) := by
  have hours : ∀ m ∈ ns, ∀ other ≠ stack, m ∉ p.nodes other := by
    intro m hm other hother hmother
    by_cases hmn : m = n
    · exact hothers other hother (hmn ▸ hmother)
    · exact hother (h.apart m other stack hmother ((hsame m hmn).mp hm))
  refine ⟨⟨?holds, ?apart, ?loose, h.slots⟩, ?spares⟩
  case holds =>
    intro other
    by_cases heq : other = stack
    · subst heq
      rw [Table.get_set_self, Piles.nodes_put_self]
      exact htop
    · rw [Table.get_set_ne _ _ heq, Piles.nodes_put_of_ne heq]
      exact (h.holds other).set (hothers other heq) link
  case apart =>
    intro m first second hfirst hsecond
    by_cases hf : first = stack <;> by_cases hs : second = stack
    · rw [hf, hs]
    · rw [hf, Piles.nodes_put_self] at hfirst
      rw [Piles.nodes_put_of_ne hs] at hsecond
      exact (hours m hfirst second hs hsecond).elim
    · rw [Piles.nodes_put_of_ne hf] at hfirst
      rw [hs, Piles.nodes_put_self] at hsecond
      exact (hours m hsecond first hf hfirst).elim
    · rw [Piles.nodes_put_of_ne hf] at hfirst
      rw [Piles.nodes_put_of_ne hs] at hsecond
      exact h.apart m first second hfirst hsecond
  case loose =>
    intro m hfree
    have hout : m ∉ ns := by simpa using hfree stack
    rw [Table.get_set]
    by_cases hmn : m = n
    · rw [if_pos hmn]
      exact hgone (hmn ▸ hout)
    · rw [if_neg hmn]
      apply h.loose m
      intro other hm
      by_cases heq : other = stack
      · exact hout ((hsame m hmn).mpr (heq ▸ hm))
      · exact hfree other (by rwa [Piles.nodes_put_of_ne heq])
  case spares =>
    intro other hother
    have hne : other ≠ stack := fun heq => hother (heq ▸ rfl)
    refine ⟨Table.get_set_ne _ _ hne, fun m hm => Table.get_set_ne _ _ ?_⟩
    rintro rfl
    exact hothers other hne hm

/-- A node that no stack holds comes on top of one. -/
theorem Stacks.push (h : s.Stacks p) (hfree : p.Free n) (stack : Nat) :
    ∃ s', s.push stack n = .ok s' ∧ s'.Stacks (p.put stack (n :: p.nodes stack)) ∧
      s.Spares s' p (some stack) := by
  have hholds := h.holds stack
  refine ⟨_, ?_, h.restack (hholds.push (hfree stack)) (fun other _ => hfree other) ?_ ?_⟩
  · rw [StackSet.push, hholds.push_eq]
    rfl
  · intro m hm
    rw [List.mem_cons, or_iff_right hm]
  · exact fun hout => (hout List.mem_cons_self).elim

/-- A pop hands out the node on top, if there is one, and never the mark of the stack; it unlinks
the node and leaves every payload in place. -/
structure Pops (s s' : StackSet τ) (stack : Nat) (ns : List NodeId) (answer : Option NodeId) :
    Prop where
  answers : s.pop stack = .ok (answer, s')
  top : answer = ns.head?
  none_iff : answer = none ↔ ns = []
  unmarked : ∀ n, answer = some n → (s.members.get stack).head = .node n
  unlinked : ∀ n, answer = some n → s'.tails.get n = none
  slots : s'.slots = s.slots

/-- From a stack that holds nothing, nothing comes off. -/
theorem Stacks.pop_nil (h : s.Stacks p) (hns : p.nodes stack = []) :
    ∃ s', Pops s s' stack [] none ∧ s'.Stacks p ∧ s.Spares s' p (some stack) := by
  have hholds := h.holds stack
  rw [hns] at hholds
  have hmembers : ∀ other, (s.members.set stack (s.members.get stack)).get other =
      s.members.get other := by
    intro other
    rw [Table.get_set]
    split
    · next heq => rw [heq]
    · rfl
  refine ⟨{ s with members := s.members.set stack (s.members.get stack) }, ?_, ?_, ?_⟩
  · refine ⟨?_, rfl, by simp, by simp, by simp, rfl⟩
    rw [StackSet.pop, hholds.pop_nil]
    rfl
  · refine ⟨fun other => ?_, h.apart, h.loose, h.slots⟩
    rw [hmembers]
    exact h.holds other
  · exact fun other _ => ⟨hmembers other, fun _ _ => rfl⟩

/-- The node on top of a stack comes off. -/
theorem Stacks.pop_cons (h : s.Stacks p) (hns : p.nodes stack = n :: ns) :
    ∃ s', Pops s s' stack (n :: ns) (some n) ∧ s'.Stacks (p.put stack ns) ∧
      s.Spares s' p (some stack) := by
  have hn : n ∈ p.nodes stack := hns ▸ List.mem_cons_self
  have hholds := h.holds stack
  rw [hns] at hholds
  have hothers : ∀ other ≠ stack, n ∉ p.nodes other :=
    fun other hne hother => hne (h.apart n other stack hother hn)
  have hsame : ∀ m ≠ n, m ∈ ns ↔ m ∈ p.nodes stack := by
    intro m hm
    rw [hns, List.mem_cons, or_iff_right hm]
  have hafter := h.restack hholds.pop hothers hsame fun _ => rfl
  refine ⟨_, ⟨?_, rfl, by simp, ?_, ?_, ?_⟩, hafter⟩
  · rw [StackSet.pop, hholds.pop_cons]
    rfl
  · rintro m ⟨rfl⟩
    exact hholds.head
  · rintro m ⟨rfl⟩
    exact Table.get_set_self _ _ _
  · rfl

/-- The node on top of a stack comes off, if there is one. -/
theorem Stacks.pop (h : s.Stacks p) (stack : Nat) :
    ∃ answer s', Pops s s' stack (p.nodes stack) answer ∧
      s'.Stacks (p.put stack (p.nodes stack).tail) ∧ s.Spares s' p (some stack) := by
  cases hns : p.nodes stack with
  | nil =>
    obtain ⟨s', hpops, hstacks, hspares⟩ := h.pop_nil hns
    refine ⟨none, s', hpops, ?_, hspares⟩
    rw [List.tail_nil, ← hns, Piles.put_nodes]
    exact hstacks
  | cons n ns => exact ⟨some n, h.pop_cons hns⟩

/-- The call answers as the piles do, and spares the other stacks. -/
structure Follows (s : StackSet τ) (p : Piles τ) (request : StackCall τ) (s' : StackSet τ) :
    Prop where
  call : call request s = .ok (Piles.step request p).1 s'
  piled : s'.Stacks (Piles.step request p).2
  spares : s.Spares s' p request.stack?

/-- Every permitted call answers as the piles do, and spares the other stacks. -/
theorem Stacks.follows (h : s.Stacks p) (hpermits : Piles.Permits request p) :
    ∃ s', Follows s p request s' := by
  cases request with
  | push stack n =>
    obtain ⟨s', hpush, hstacks, hspares⟩ := h.push hpermits stack
    exact ⟨s', by simp only [call, hpush, Piles.step], hstacks, hspares⟩
  | pop stack =>
    obtain ⟨answer, s', hpops, hstacks, hspares⟩ := h.pop stack
    exact ⟨s', by simp only [call, hpops.answers, hpops.top, Piles.step], hstacks, hspares⟩
  | isEmpty stack =>
    refine ⟨s, ?_, h, fun _ _ => ⟨rfl, fun _ _ => rfl⟩⟩
    simp only [call, (h.holds stack).isEmpty_eq, Piles.step]
  | exchange n payload =>
    refine ⟨{ s with slots := s.slots.set n payload }, ?_, ?_, fun _ _ => ⟨rfl, fun _ _ => rfl⟩⟩
    · simp only [call, exchange, h.slots n, Piles.step]
    · refine ⟨h.holds, h.apart, h.loose, fun m => ?_⟩
      simp only [Piles.step, Table.get_set, Function.update_apply, h.slots m]

/-- The stacks are the piles: unclaimed, threaded through their nodes up to an end, and apart. A pop
takes the top node off, and no permitted call stops or is seen by another stack. -/
structure ShowsPiles (s : StackSet τ) (p : Piles τ) : Prop where
  head : ∀ stack, (s.members.get stack).head = .ofLink (p.nodes stack).head?
  unclaimed : ∀ stack, (s.members.get stack).head ≠ .claimed
  /-- The tails, followed from the head, visit the nodes in order and come to an end. -/
  path : ∀ stack, Path s.tails.get (p.nodes stack) (p.nodes stack).head? none
  nodup : ∀ stack, (p.nodes stack).Nodup
  apart : ∀ n stack other, n ∈ p.nodes stack → n ∈ p.nodes other → stack = other
  loose : ∀ n, p.Free n → s.tails.get n = none
  slots : ∀ n, s.slots.get n = p.slots n
  pops : ∀ stack, ∃ answer s', Pops s s' stack (p.nodes stack) answer
  independent : ∀ request, Piles.Permits request p → ∃ s', Follows s p request s'

/-- Stacks that hold piles show them. -/
theorem Stacks.showsPiles (h : s.Stacks p) : s.ShowsPiles p := by
  constructor
  case head => exact fun stack => (h.holds stack).head
  case unclaimed =>
    intro stack
    rw [(h.holds stack).head]
    cases (p.nodes stack).head? <;> exact fun hclaimed => nomatch hclaimed
  case path => exact fun stack => (h.holds stack).path
  case nodup => exact fun stack => (h.holds stack).nodup
  case apart => exact h.apart
  case loose => exact h.loose
  case slots => exact h.slots
  case pops =>
    intro stack
    obtain ⟨answer, s', hpops, -⟩ := h.pop stack
    exact ⟨answer, s', hpops⟩
  case independent => exact fun request hpermits => h.follows hpermits

/-- Over any number of stacks, every run of calls that push nodes only where no stack holds them is
answered as their piles answer it, and no call stops; the stacks then show the piles. -/
theorem run_refines_piles (requests : List (StackCall τ))
    (hpermitted : Permitted Piles.Permits Piles.step requests {}) :
    let run := Action.attemptAll call requests ({} : StackSet τ)
    let answers := answerAll Piles.step requests {}
    run.1 = answers.1.map .ok ∧ run.2.ShowsPiles answers.2 := by
  intro run answers
  have hcall : ∀ request (s : StackSet τ) p, s.Stacks p → Piles.Permits request p →
      ∃ s', call request s = .ok (Piles.step request p).1 s' ∧
        s'.Stacks (Piles.step request p).2 := by
    intro request s p h hpermits
    obtain ⟨s', hfollows⟩ := h.follows hpermits
    exact ⟨s', hfollows.call, hfollows.piled⟩
  obtain ⟨hanswers, hfinal⟩ := attemptAll_eq_answerAll hcall requests stacks_empty hpermitted
  exact ⟨hanswers, hfinal.showsPiles⟩

/-- Two nodes go from one stack to the other and back, with what they hold. -/
theorem run_refines_piles_migrating :
    let requests : List (StackCall Nat) := [.exchange 0 (some 7), .push 0 0, .push 0 1, .pop 0,
      .push 1 1, .pop 0, .push 1 0, .isEmpty 0, .pop 0, .pop 1, .push 0 0, .pop 1, .isEmpty 1,
      .pop 0, .exchange 0 none]
    Permitted Piles.Permits Piles.step requests {} ∧
      (Action.attemptAll call requests ({} : StackSet Nat)).1 =
        [.payload none, .done, .done, .node (some 1), .done, .node (some 0), .done, .flag true,
          .node none, .node (some 0), .done, .node (some 1), .flag true, .node (some 0),
          .payload (some 7)].map .ok := by
  intro requests
  have hpermitted : Permitted Piles.Permits Piles.step requests {} := by
    refine ⟨trivial, ?_, ?_, trivial, ?_, trivial, ?_, trivial, trivial, trivial, ?_, trivial,
      trivial, trivial, trivial, trivial⟩
    all_goals
      rintro (_ | _ | stack)
      · decide
      · decide
      · exact List.not_mem_nil
  exact ⟨hpermitted, (run_refines_piles requests hpermitted).1⟩

end StackSet

end CachePool
