import CachePool.Proofs.Index.Map
import CachePool.Proofs.Recency.Family

/-!
# Calls that keep to the contract

A call on an arena is a call on one of the lists or on the index. The callers promise
that they add a node to a list only if no list holds it, take it out and move it by the
list that holds it, and index it only if it is not indexed. Where they do, every list
is a sequence of its own: a call on a list is a step of its sequence, a call on the
index is a step of the index, and neither is seen by any other structure. So whether a
run keeps to the contract is seen on the sequences and on the index, each alone.
-/

namespace CachePool

variable {κ α : Type}

/-- The call on one of the lists, or on the index. -/
def ArenaCall.split : ArenaCall κ → (Nat × ListCall) ⊕ IndexCall κ
  | .insert list n => .inl (list, .insert n)
  | .erase list n => .inl (list, .erase n)
  | .refresh list n => .inl (list, .refresh n)
  | .popLeast list => .inl (list, .popLeast)
  | .enrol n => .inr (.enrol n)
  | .strike n => .inr (.strike n)
  | .lookup key => .inr (.lookup key)
  | .clear => .inr .clear

/-- The node that a call on a list is given. -/
def ListCall.node? : ListCall → Option NodeId
  | .insert n | .erase n | .refresh n => some n
  | .popLeast => none

/-- What a call on a list leaves there was there before, or is the given node. -/
theorem ListCall.mem_apply {request : ListCall} {capacity : Nat} {ns : List NodeId} {n : NodeId}
    (h : n ∈ (request.apply capacity ns).2) : n ∈ ns ∨ request.node? = some n := by
  cases request with
  | insert m =>
    simp only [apply] at h
    split at h
    · exact (List.mem_cons.mp h).symm.imp_right fun he => congrArg some he.symm
    · exact (List.mem_cons.mp h).symm.imp List.mem_of_mem_dropLast fun he => congrArg some he.symm
  | erase m => exact .inl (List.mem_of_mem_erase h)
  | refresh m =>
    exact (List.mem_cons.mp h).symm.imp List.mem_of_mem_erase fun he => congrArg some he.symm
  | popLeast => exact .inl (List.mem_of_mem_dropLast h)

/-- An index, with the links of its buckets and the entries of the nodes. -/
abbrev ChainedIndex (κ α : Type) : Type := KeyIndex κ × ChainTable × EntryTable κ α

/-- The answer to a call on the index, and the index after it. -/
def IndexCall.apply [DecidableEq κ] :
    IndexCall κ → ChainedIndex κ α → ArenaAnswer × ChainedIndex κ α
  | .enrol n, (index, chain, entries) =>
    let (added, index, chain) := index.insert chain entries n
    (.flag added, index, chain, entries)
  | .strike n, (index, chain, entries) =>
    let (removed, index, chain) := index.erase chain entries n
    (.flag removed, index, chain, entries)
  | .lookup key, (index, chain, entries) =>
    (.node (index.get? chain entries key), index, chain, entries)
  | .clear, (index, chain, entries) => (.done, index.clear, chain, entries)

namespace ArenaCall

variable {x : ArenaCall κ} {capacity : Nat → Nat} {ns : List NodeId} {n : NodeId}

/-- The list that the call is on, and none if it is on the index. -/
def target (x : ArenaCall κ) : Option Nat :=
  match x.split with
  | .inl (list, _) => some list
  | .inr _ => none

/-- The node that the call links into, moves in or unlinks from a list. -/
def node? (x : ArenaCall κ) : Option NodeId :=
  match x.split with
  | .inl (_, request) => request.node?
  | .inr _ => none

/-- What a call on a list answers, and the sequence of the list after it. -/
def onNodes (capacity : Nat → Nat) (x : ArenaCall κ) (ns : List NodeId) :
    ArenaAnswer × List NodeId :=
  match x.split with
  | .inl (list, request) => request.apply (capacity list) ns
  | .inr _ => (.done, ns)

/-- What a call on the index answers, and the index after it. -/
def onChained [DecidableEq κ] (x : ArenaCall κ) (index : ChainedIndex κ α) :
    ArenaAnswer × ChainedIndex κ α :=
  match x.split with
  | .inl _ => (.done, index)
  | .inr request => request.apply index

/-- A call brings no other node than its own into a list. -/
theorem mem_onNodes (h : n ∈ (x.onNodes capacity ns).2) : n ∈ ns ∨ x.node? = some n := by
  rw [onNodes] at h
  rw [node?]
  cases hx : x.split with
  | inl request =>
    rw [hx] at h
    exact ListCall.mem_apply h
  | inr request =>
    rw [hx] at h
    exact .inl h

end ArenaCall

namespace Arena

variable {a : Arena κ α} {capacity : Nat → Nat} {seqs : Sequences}

/-- The index of an arena, with all that it reads. -/
def chained (a : Arena κ α) : ChainedIndex κ α := (a.index, a.chain, a.entries)

/-- A node is indexed only if it has an entry and is not indexed, and only nodes with an entry are
taken out. -/
def PermitsIndex (a : Arena κ α) : IndexCall κ → Prop
  | .enrol n => (∃ e, a.entries.get n = some e) ∧ ∀ bucket, n ∉ a.index.bucketNodes a.chain bucket
  | .strike n => ∃ e, a.entries.get n = some e
  | .lookup _ | .clear => True

/-- What is permitted on the index depends on the index and on what it reads only. -/
theorem PermitsIndex.congr {a' : Arena κ α} {request : IndexCall κ} (h : a.PermitsIndex request)
    (hchained : a'.chained = a.chained) : a'.PermitsIndex request := by
  simp only [chained, Prod.mk.injEq] at hchained
  obtain ⟨hindex, hchain, hentries⟩ := hchained
  cases request with
  | enrol n => simpa only [PermitsIndex, hindex, hchain, hentries] using h
  | strike n => simpa only [PermitsIndex, hentries] using h
  | lookup key => trivial
  | clear => trivial

/-- The call keeps to the contract of its structure. -/
def Permits (a : Arena κ α) (x : ArenaCall κ) : Prop :=
  match x.split with
  | .inl request => Sequences.Permits request a.nodes
  | .inr request => a.PermitsIndex request

theorem permits_of_split_list {x : ArenaCall κ} {request : Nat × ListCall}
    (hx : x.split = .inl request) : a.Permits x ↔ Sequences.Permits request a.nodes := by
  rw [Permits, hx]

theorem permits_of_split_index {x : ArenaCall κ} {request : IndexCall κ}
    (hx : x.split = .inr request) : a.Permits x ↔ a.PermitsIndex request := by
  rw [Permits, hx]

/-- Lists that hold sequences hold their nodes. -/
theorem Threads.nodes_eq (h : a.Threads capacity seqs) : a.nodes = seqs :=
  funext fun list => (h.holds list).nodes_eq

/-- The lists depend on themselves and on the neighbours only. -/
theorem Threads.congr {a' : Arena κ α} (h : a.Threads capacity seqs) (hlists : a'.lists = a.lists)
    (hlinks : a'.links = a.links) : a'.Threads capacity seqs where
  capacity := hlists ▸ h.capacity
  holds := hlists ▸ hlinks ▸ h.holds
  apart := h.apart
  free := hlinks ▸ h.free

variable [DecidableEq κ]

/-- A call is one on a list or on the index. -/
theorem call_eq (x : ArenaCall κ) :
    (call x : Action (Arena κ α) ArenaAnswer) = Sum.elim callList callIndex x.split := by
  cases x <;> rfl

/-- A permitted call on a list is a step of its sequence, and the index is left as it was. -/
theorem Threads.callList_eq (h : a.Threads capacity a.nodes) {list : Nat} {request : ListCall}
    (hpermits : Sequences.Permits (list, request) a.nodes) :
    ∃ a', callList (list, request) a =
        .ok (request.apply (capacity list) (a.nodes list)).1 a' ∧
      a'.Threads capacity a'.nodes ∧
      a'.nodes = Function.update a.nodes list (request.apply (capacity list) (a.nodes list)).2 ∧
      a'.chained = a.chained := by
  obtain ⟨a', hcall, hthreads, hspares⟩ := h.follows hpermits
  refine ⟨a', hcall, hthreads.nodes_eq ▸ hthreads, hthreads.nodes_eq, ?_⟩
  rw [chained, chained, hspares.index, hspares.chain, hspares.entries]

/-- A call on the index is a step of the index, and the lists are left as they were. -/
theorem callIndex_eq (request : IndexCall κ) (a : Arena κ α) :
    ∃ a', callIndex request a = .ok (request.apply a.chained).1 a' ∧
      a'.chained = (request.apply a.chained).2 ∧ a'.lists = a.lists ∧ a'.links = a.links := by
  cases request <;> exact ⟨_, rfl, rfl, rfl, rfl⟩

/-- The call answers and is a step of its own structure; the lists hold sequences after it, and
every other structure is as it was. -/
structure Steps (capacity : Nat → Nat) (a a' : Arena κ α) (x : ArenaCall κ) (answer : ArenaAnswer) :
    Prop where
  call : Arena.call x a = .ok answer a'
  threads : a'.Threads capacity a'.nodes
  nodes : ∀ list, x.target = some list →
    (answer, a'.nodes list) = x.onNodes capacity (a.nodes list)
  otherNodes : ∀ list, x.target ≠ some list → a'.nodes list = a.nodes list
  chained : x.target = none → (answer, a'.chained) = x.onChained a.chained
  otherChained : x.target ≠ none → a'.chained = a.chained

/-- A permitted call is a step of its own structure. -/
theorem Threads.steps (h : a.Threads capacity a.nodes) {x : ArenaCall κ} (hpermits : a.Permits x) :
    ∃ answer a', Steps capacity a a' x answer := by
  cases hx : x.split with
  | inl request =>
    obtain ⟨list, request⟩ := request
    rw [permits_of_split_list hx] at hpermits
    obtain ⟨a', hcall, hthreads, hnodes, hchained⟩ := h.callList_eq hpermits
    have htarget : x.target = some list := by rw [ArenaCall.target, hx]
    refine ⟨_, a', by rw [call_eq, hx]; exact hcall, hthreads, ?_, ?_, ?_, fun _ => hchained⟩
    · intro other hother
      obtain rfl : list = other := Option.some.inj (htarget.symm.trans hother)
      rw [hnodes, Function.update_self, ArenaCall.onNodes, hx]
    · intro other hother
      have hne : other ≠ list := fun heq => hother (heq ▸ htarget)
      rw [hnodes, Function.update_of_ne hne]
    · intro hindex
      rw [htarget] at hindex
      cases hindex
  | inr request =>
    obtain ⟨a', hcall, hchained, hlists, hlinks⟩ := callIndex_eq request a
    have hthreads := h.congr hlists hlinks
    have htarget : x.target = none := by rw [ArenaCall.target, hx]
    refine ⟨_, a', by rw [call_eq, hx]; exact hcall, hthreads.nodes_eq ▸ hthreads, ?_, ?_, ?_, ?_⟩
    · intro list hlist
      rw [htarget] at hlist
      cases hlist
    · exact fun list _ => congrFun hthreads.nodes_eq list
    · intro _
      rw [hchained, ArenaCall.onChained, hx]
    · exact fun hindex => (hindex htarget).elim

/-- Every call of the run keeps to the contract in the state in which it is made. -/
def Respects (requests : List (ArenaCall κ)) (a : Arena κ α) : Prop :=
  Permitted (fun x a => a.Permits x) (fun x => (Arena.call x).attempt) requests a

/-- Every call of a run on the index keeps to the contract in the state in which it is made. -/
def RespectsIndex (requests : List (IndexCall κ)) (a : Arena κ α) : Prop :=
  Permitted (fun x a => a.PermitsIndex x) (fun x => (callIndex x).attempt) requests a

/-- Whether a run on the index keeps to the contract depends on the index and on what it reads
only. -/
theorem respectsIndex_congr {b : Arena κ α} (requests : List (IndexCall κ))
    (hchained : b.chained = a.chained) : RespectsIndex requests b ↔ RespectsIndex requests a := by
  induction requests generalizing a b with
  | nil => exact Iff.rfl
  | cons x requests ih =>
    obtain ⟨a', ha, hafter, -⟩ := callIndex_eq x a
    obtain ⟨b', hb, hafter', -⟩ := callIndex_eq x b
    simp only [RespectsIndex, Permitted, Action.attempt_ok ha, Action.attempt_ok hb]
    refine and_congr ⟨fun h => h.congr hchained.symm, fun h => h.congr hchained⟩ (ih ?_)
    rw [hafter, hafter', hchained]

/-- A run keeps to the contract exactly if its calls on the lists do, as steps of the sequences, and
its calls on the index do, as if there were no lists. -/
theorem Threads.respects_iff (h : a.Threads capacity a.nodes) {requests : List (ArenaCall κ)} :
    Respects requests a ↔
      Permitted Sequences.Permits (Sequences.step capacity)
          (requests.filterMap (·.split.getLeft?)) a.nodes ∧
        RespectsIndex (requests.filterMap (·.split.getRight?)) a := by
  induction requests generalizing a with
  | nil => exact ⟨fun _ => ⟨trivial, trivial⟩, fun _ => trivial⟩
  | cons x requests ih =>
    rw [Respects, Permitted]
    cases hx : x.split with
    | inl request =>
      rw [permits_of_split_list hx]
      simp only [List.filterMap_cons, hx, Sum.getLeft?_inl, Sum.getRight?_inl, Permitted,
        and_assoc]
      refine and_congr_right fun hpermits => ?_
      obtain ⟨list, request⟩ := request
      obtain ⟨a', hcall, hthreads, hnodes, hchained⟩ := h.callList_eq hpermits
      rw [call_eq x, hx, Sum.elim_inl, Action.attempt_ok hcall]
      -- The call leaves the index as it was, and with it what the rest may do there.
      refine (ih hthreads).trans (and_congr ?_ (respectsIndex_congr _ hchained))
      rw [hnodes]
      rfl
    | inr request =>
      rw [permits_of_split_index hx]
      simp only [List.filterMap_cons, hx, Sum.getLeft?_inr, Sum.getRight?_inr, RespectsIndex,
        Permitted]
      obtain ⟨a', hcall, -, hlists, hlinks⟩ := callIndex_eq request a
      have hthreads := h.congr hlists hlinks
      rw [call_eq x, hx, Sum.elim_inr, Action.attempt_ok hcall, ← hthreads.nodes_eq, and_left_comm]
      rw [← hthreads.nodes_eq] at hthreads
      exact and_congr_right fun _ => ih hthreads

/-- After a run that keeps to the contract every list holds a sequence. -/
theorem Threads.attemptAll (h : a.Threads capacity a.nodes) {requests : List (ArenaCall κ)}
    (hrespects : Respects requests a) :
    (Action.attemptAll Arena.call requests a).2.Threads capacity
      (Action.attemptAll Arena.call requests a).2.nodes := by
  induction requests generalizing a with
  | nil => exact h
  | cons x requests ih =>
    obtain ⟨hpermits, hrest⟩ := hrespects
    obtain ⟨answer, a', hsteps⟩ := h.steps hpermits
    simp only [Action.attemptAll, Action.attempt_ok hsteps.call] at hrest ⊢
    exact ih hsteps.threads hrest

/-- A run from lists that were empty keeps to the contract exactly if its calls on the lists do, as
steps of the sequences, and its calls on the index do. -/
theorem respects_ofNodes_iff (capacities : List Size) (index : KeyIndex κ)
    (entries : List (Entry κ α)) (requests : List (ArenaCall κ)) :
    let start : Arena κ α := .ofNodes (capacities.map fun capacity => { capacity }) index entries
    Respects requests start ↔
      Permitted Sequences.Permits (Sequences.step (Sequences.capacityAt capacities))
          (requests.filterMap (·.split.getLeft?)) (fun _ => []) ∧
        RespectsIndex (requests.filterMap (·.split.getRight?)) start := by
  intro start
  have hstart := threads_ofNodes capacities index entries
  have hnodes : start.nodes = fun _ => [] := hstart.nodes_eq
  rw [← hstart.nodes_eq] at hstart
  rw [← hnodes]
  exact hstart.respects_iff

/-- After a run that keeps to the contract, from lists that were empty, every list holds a
sequence. -/
theorem Respects.threads {capacities : List Size} {index : KeyIndex κ}
    {entries : List (Entry κ α)} {requests : List (ArenaCall κ)}
    (h : Respects requests
      (ofNodes (capacities.map fun capacity => { capacity }) index entries)) :
    let after := (Action.attemptAll call requests
      (ofNodes (capacities.map fun capacity => { capacity }) index entries)).2
    after.Threads (Sequences.capacityAt capacities) after.nodes := by
  intro after
  have hstart := threads_ofNodes capacities index entries
  exact (hstart.nodes_eq ▸ hstart).attemptAll h

end Arena

end CachePool
