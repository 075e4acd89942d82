import CachePool.Proofs.Arena.Agreement
import CachePool.Proofs.Arena.Contract

/-!
# Calls of different structures commute

Each structure of an arena does its own calls and sees no others. What a run leaves of a
structure, and what it answers to the calls on it, is therefore fixed by these calls and
their order alone: runs that order the calls of each structure alike cannot be told
apart at their ends, and two calls of different structures may be exchanged.
-/

namespace CachePool

namespace Action

variable {σ τ α ι : Type} {call : ι → Action σ α}

/-- The calls of a sequence with their answers, or with the faults at which they stop. -/
def transcript (call : ι → Action σ α) (calls : List ι) (s : σ) : List (ι × Except Fault α) :=
  calls.zip (attemptAll call calls s).1

/-- A part of the state that some calls treat as a machine does, and all others leave alone, ends as
if the machine had been put these calls only, and these calls are answered by the machine. -/
theorem attemptAll_part {P : ι → σ → Prop} {I : σ → Prop} (mine : ι → Prop) [DecidablePred mine]
    (step : ι → τ → α × τ) (part : σ → τ)
    (hcall : ∀ i s, I s → P i s → ∃ answer s', call i s = .ok answer s' ∧ I s' ∧
      (mine i → (answer, part s') = step i (part s)) ∧ (¬ mine i → part s' = part s))
    (calls : List ι) {s : σ} (h : I s) (hcalls : Permitted P (fun i => (call i).attempt) calls s) :
    part (attemptAll call calls s).2 =
        (answerAll step (calls.filter (mine ·)) (part s)).2 ∧
      (transcript call calls s).filter (mine ·.1) =
        (calls.filter (mine ·)).zip
          ((answerAll step (calls.filter (mine ·)) (part s)).1.map .ok) := by
  induction calls generalizing s with
  | nil => exact ⟨rfl, rfl⟩
  | cons i calls ih =>
    obtain ⟨hpermits, hrest⟩ := hcalls
    obtain ⟨answer, s', hi, hinvariant, hmine, hother⟩ := hcall i s h hpermits
    simp only [attempt_ok hi] at hrest
    obtain ⟨hpart, hanswers⟩ := ih hinvariant hrest
    rw [transcript] at hanswers
    simp only [transcript, attemptAll, attempt_ok hi, List.zip_cons_cons]
    by_cases hi' : mine i
    · simp only [List.filter_cons, hi', decide_true, if_true, answerAll, ← hmine hi', hpart,
        hanswers, List.map_cons, List.zip_cons_cons, and_self]
    · simp only [List.filter_cons, hi', decide_false, Bool.false_eq_true, if_false, hpart, hanswers,
        hother hi', and_self]

end Action

/-- Two calls are on different structures, and do not name the same node of a list. -/
def ArenaCall.Apart {κ : Type} (x y : ArenaCall κ) : Prop :=
  x.target ≠ y.target ∧ ∀ n, x.node? = some n → y.node? ≠ some n

theorem ArenaCall.Apart.symm {κ : Type} {x y : ArenaCall κ} (h : x.Apart y) : y.Apart x :=
  ⟨h.1.symm, fun n hy hx => h.2 n hx hy⟩

namespace Arena

variable {κ α : Type} {a b a' : Arena κ α} {capacity : Nat → Nat} {seqs : Sequences}

/-- Lists that hold the same sequences, and an index with the same chains, agree. -/
theorem Threads.agrees (ha : a.Threads capacity seqs) (hb : b.Threads capacity seqs)
    (hchained : a.chained = b.chained) : a.Agrees b := by
  simp only [chained, Prod.mk.injEq] at hchained
  obtain ⟨hindex, hchain, hentries⟩ := hchained
  refine ⟨fun list => ?_, fun n => ?_, hindex, hchain, hentries⟩
  · have hcapacity : (a.lists.get list).capacity = (b.lists.get list).capacity :=
      Size.ext ((ha.capacity list).trans (hb.capacity list).symm)
    exact (ha.holds list).list_eq (hb.holds list) hcapacity
  · by_cases hfree : seqs.Free n
    · rw [ha.free n hfree, hb.free n hfree]
    · obtain ⟨list, hn⟩ : ∃ list, n ∈ seqs list := by
        simpa only [Sequences.Free, not_forall, not_not] using hfree
      exact (ha.holds list).links_eq (hb.holds list) hn

variable [DecidableEq κ] {x y : ArenaCall κ} {answer : ArenaAnswer}
  {requests xs ys : List (ArenaCall κ)}

/-- What is permitted stays so after a call on a different structure that does not name the same
node. -/
theorem Steps.permits (h : Steps capacity a a' x answer) (hapart : x.Apart y)
    (hy : a.Permits y) : a'.Permits y := by
  obtain ⟨htarget, hnode⟩ := hapart
  cases hsplit : y.split with
  | inr request =>
    -- The call was on a list, so the index is as it was.
    have hindex : y.target = none := by rw [ArenaCall.target, hsplit]
    have hchained := h.otherChained (hindex ▸ htarget)
    rw [permits_of_split_index hsplit] at hy ⊢
    exact hy.congr hchained
  | inl request =>
    obtain ⟨list, request⟩ := request
    have hlist : y.target = some list := by rw [ArenaCall.target, hsplit]
    have hnodes := h.otherNodes list (hlist ▸ htarget)
    have hgiven : y.node? = request.node? := by rw [ArenaCall.node?, hsplit]
    rw [permits_of_split_list hsplit] at hy ⊢
    cases request with
    | insert n =>
      -- A list that holds the node now was given it, since none held it before.
      intro other hn
      by_cases hother : x.target = some other
      · have hnow : a'.nodes other = (x.onNodes capacity (a.nodes other)).2 :=
          congrArg Prod.snd (h.nodes other hother)
        rcases ArenaCall.mem_onNodes (hnow ▸ hn) with hheld | hnamed
        · exact hy other hheld
        · exact hnode n hnamed hgiven
      · exact hy other (h.otherNodes other hother ▸ hn)
    | erase n => exact (congrArg (n ∈ ·) hnodes).mpr hy
    | refresh n => exact (congrArg (n ∈ ·) hnodes).mpr hy
    | popLeast => trivial

/-- A list ends, and its calls are answered, as if there were no others. -/
theorem Threads.attemptAll_nodes (h : a.Threads capacity a.nodes)
    (hrespects : Respects requests a) (list : Nat) :
    let mine := requests.filter (·.target = some list)
    let answers := answerAll (ArenaCall.onNodes capacity) mine (a.nodes list)
    (Action.attemptAll call requests a).2.nodes list = answers.2 ∧
      (Action.transcript call requests a).filter (·.1.target = some list) =
        mine.zip (answers.1.map .ok) := by
  refine Action.attemptAll_part (I := fun a => a.Threads capacity a.nodes)
    (fun x : ArenaCall κ => x.target = some list) (ArenaCall.onNodes capacity)
    (fun a => a.nodes list) ?_ requests h hrespects
  intro x a h hpermits
  obtain ⟨answer, a', hsteps⟩ := h.steps hpermits
  exact ⟨answer, a', hsteps.call, hsteps.threads, hsteps.nodes list, hsteps.otherNodes list⟩

/-- The index ends, and its calls are answered, as if there were no others. -/
theorem Threads.attemptAll_chained (h : a.Threads capacity a.nodes)
    (hrespects : Respects requests a) :
    let mine := requests.filter (·.target = none)
    let answers := answerAll ArenaCall.onChained mine a.chained
    (Action.attemptAll call requests a).2.chained = answers.2 ∧
      (Action.transcript call requests a).filter (·.1.target = none) =
        mine.zip (answers.1.map .ok) := by
  refine Action.attemptAll_part (I := fun a => a.Threads capacity a.nodes)
    (fun x : ArenaCall κ => x.target = none) ArenaCall.onChained chained ?_ requests h hrespects
  intro x a h hpermits
  obtain ⟨answer, a', hsteps⟩ := h.steps hpermits
  exact ⟨answer, a', hsteps.call, hsteps.threads, hsteps.chained, hsteps.otherChained⟩

/-- The lists, their links and the index look alike, the lists hold the same nodes in the same
order, and the calls of every structure were answered alike. -/
structure SameOutcome (xs ys : List (ArenaCall κ)) (a : Arena κ α) : Prop where
  agrees : (Action.attemptAll call xs a).2.Agrees (Action.attemptAll call ys a).2
  order : ∀ list,
    (Action.attemptAll call xs a).2.nodes list = (Action.attemptAll call ys a).2.nodes list
  answers : ∀ target, (Action.transcript call xs a).filter (·.1.target = target) =
    (Action.transcript call ys a).filter (·.1.target = target)

/-- Two runs that keep to the contract have the same outcome if they order the calls of each
structure alike. -/
theorem Threads.sameOutcome (h : a.Threads capacity a.nodes) (hxs : Respects xs a)
    (hys : Respects ys a)
    (hsame : ∀ target, xs.filter (·.target = target) = ys.filter (·.target = target)) :
    SameOutcome xs ys a := by
  have hnodes : ∀ list, (Action.attemptAll call xs a).2.nodes list =
      (Action.attemptAll call ys a).2.nodes list := by
    intro list
    rw [(h.attemptAll_nodes hxs list).1, (h.attemptAll_nodes hys list).1, hsame (some list)]
  have hchained : (Action.attemptAll call xs a).2.chained =
      (Action.attemptAll call ys a).2.chained := by
    rw [(h.attemptAll_chained hxs).1, (h.attemptAll_chained hys).1, hsame none]
  constructor
  case agrees =>
    have hthreads := h.attemptAll hys
    rw [← funext hnodes] at hthreads
    exact (h.attemptAll hxs).agrees hthreads hchained
  case order => exact hnodes
  case answers =>
    rintro (_ | list)
    · rw [(h.attemptAll_chained hxs).2, (h.attemptAll_chained hys).2, hsame none]
    · rw [(h.attemptAll_nodes hxs list).2, (h.attemptAll_nodes hys list).2, hsame (some list)]

/-- In either order the two calls are permitted, give the same two answers, and leave arenas that
agree. -/
def Commute (a : Arena κ α) (x y : ArenaCall κ) : Prop :=
  Respects [x, y] a ∧ Respects [y, x] a ∧ ∃ first second xy yx,
    Action.attemptAll call [x, y] a = ([.ok first, .ok second], xy) ∧
      Action.attemptAll call [y, x] a = ([.ok second, .ok first], yx) ∧
      xy.Agrees yx ∧ ∀ list, xy.nodes list = yx.nodes list

/-- A permitted call is followed by one on a different structure that was permitted before it. -/
theorem Threads.respects_pair (h : a.Threads capacity a.nodes) (hapart : x.Apart y)
    (hx : a.Permits x) (hy : a.Permits y) : Respects [x, y] a ∧ ∃ first second xy,
      Action.attemptAll call [x, y] a = ([.ok first, .ok second], xy) := by
  obtain ⟨first, a', hfirst⟩ := h.steps hx
  have hy' := hfirst.permits hapart hy
  obtain ⟨second, xy, hsecond⟩ := hfirst.threads.steps hy'
  constructor
  · refine ⟨hx, ?_, trivial⟩
    simpa only [Action.attempt_ok hfirst.call] using hy'
  · refine ⟨first, second, xy, ?_⟩
    simp only [Action.attemptAll, Action.attempt_ok hfirst.call, Action.attempt_ok hsecond.call]

/-- Permitted calls on different structures commute. -/
theorem Threads.commute (h : a.Threads capacity a.nodes) (hapart : x.Apart y) (hx : a.Permits x)
    (hy : a.Permits y) : a.Commute x y := by
  obtain ⟨hxy, first, second, xy, hrunxy⟩ := h.respects_pair hapart hx hy
  obtain ⟨hyx, second', first', yx, hrunyx⟩ := h.respects_pair hapart.symm hy hx
  have hne := hapart.1
  have hsame : SameOutcome [x, y] [y, x] a := by
    apply h.sameOutcome hxy hyx
    intro target
    by_cases hxt : x.target = target
    · have hyt : y.target ≠ target := fun he => hne (hxt.trans he.symm)
      simp [hxt, hyt]
    · simp [List.filter_cons, hxt]
  have hanswers := hsame.answers
  simp only [Action.transcript, hrunxy, hrunyx] at hanswers
  obtain rfl : first = first' := by simpa [hne, hne.symm] using hanswers x.target
  obtain rfl : second = second' := by simpa [hne, hne.symm] using hanswers y.target
  have hagrees := hsame.agrees
  have horder := hsame.order
  rw [hrunxy, hrunyx] at hagrees
  simp only [hrunxy, hrunyx] at horder
  exact ⟨hxy, hyx, first, second, xy, yx, hrunxy, hrunyx, hagrees, horder⟩

/-- Over any number of lists and an index, after any calls that keep to the contract, two permitted
calls on different structures commute unless they name the same node of a list; and two runs that
keep to the contract and order the calls of each structure alike have the same outcome. -/
theorem run_commutes (capacities : List Size) (index : KeyIndex κ) (entries : List (Entry κ α)) :
    let start : Arena κ α := .ofNodes (capacities.map fun capacity => { capacity }) index entries
    (∀ past x y, Respects past start →
      let a := (Action.attemptAll call past start).2
      a.Permits x → a.Permits y → x.Apart y → a.Commute x y) ∧
    ∀ xs ys, Respects xs start → Respects ys start →
      (∀ target, xs.filter (·.target = target) = ys.filter (·.target = target)) →
      SameOutcome xs ys start := by
  intro start
  have hstart := threads_ofNodes capacities index entries
  rw [← hstart.nodes_eq] at hstart
  constructor
  · intro past x y hpast a hx hy hapart
    exact hpast.threads.commute hapart hx hy
  · intro xs ys hxs hys hsame
    exact hstart.sameOutcome hxs hys hsame

/-- The first list gives up the node 0 in one call, and the index takes it in the other one: they
commute, and two runs that have these calls elsewhere among others have the same outcome. -/
theorem run_commutes_sharedNode :
    let capacities : List Size := [⟨2, by decide, by decide⟩, ⟨1, by decide, by decide⟩]
    let start : Arena Nat Nat := .ofNodes (capacities.map fun capacity => { capacity })
      (.ofBuckets .one (Hasher.constant 0)) [{ key := 1, value := 2, hash := 0 }]
    let past : List (ArenaCall Nat) := [.insert 0 0, .insert 0 5]
    let a := (Action.attemptAll call past start).2
    let xs : List (ArenaCall Nat) :=
      [.insert 0 0, .insert 0 5, .insert 0 6, .enrol 0, .insert 1 0, .strike 0]
    let ys : List (ArenaCall Nat) :=
      [.enrol 0, .insert 0 0, .insert 0 5, .strike 0, .insert 0 6, .insert 1 0]
    (Respects past start ∧ a.Permits (.insert 0 6) ∧ a.Permits (.enrol 0) ∧
        a.Commute (.insert 0 6) (.enrol 0)) ∧
      Respects xs start ∧ Respects ys start ∧ SameOutcome xs ys start := by
  intro capacities start past a xs ys
  have hiff := respects_ofNodes_iff (α := Nat) capacities (.ofBuckets .one (Hasher.constant 0))
    [{ key := 1, value := 2, hash := 0 }]
  -- Both runs have the same calls on the lists, and the same on the index.
  have hlists : Permitted Sequences.Permits (Sequences.step (Sequences.capacityAt capacities))
      [(0, .insert 0), (0, .insert 5), (0, .insert 6), (1, .insert 0)] (fun _ => []) := by
    refine ⟨?_, ?_, ?_, ?_, trivial⟩
    all_goals
      rintro (_ | _ | list)
      · decide
      · decide
      · exact List.not_mem_nil
  have hindex : RespectsIndex [.enrol 0, .strike 0] start :=
    ⟨⟨⟨_, rfl⟩, fun _ => List.not_mem_nil⟩, ⟨_, rfl⟩, trivial⟩
  have hxs : Respects xs start := (hiff xs).mpr ⟨hlists, hindex⟩
  have hys : Respects ys start := (hiff ys).mpr ⟨hlists, hindex⟩
  have hsame : ∀ target, xs.filter (·.target = target) = ys.filter (·.target = target) := by
    rintro (_ | _ | _ | list) <;> rfl
  obtain ⟨hcommute, houtcome⟩ := run_commutes (α := Nat) capacities
    (.ofBuckets .one (Hasher.constant 0)) [{ key := 1, value := 2, hash := 0 }]
  have hpast : Respects past start := ⟨hxs.1, hxs.2.1, trivial⟩
  have hinsert : a.Permits (.insert 0 6) := hxs.2.2.1
  have henrols : Respects [.insert 0 0, .insert 0 5, .enrol 0] start :=
    (hiff _).mpr ⟨⟨hlists.1, hlists.2.1, trivial⟩, hindex.1, trivial⟩
  have henrol : a.Permits (.enrol 0) := henrols.2.2.1
  have hapart : (ArenaCall.insert 0 6).Apart (.enrol 0 : ArenaCall Nat) :=
    ⟨nofun, fun _ _ => nofun⟩
  exact ⟨⟨hpast, hinsert, henrol, hcommute past _ _ hpast hinsert henrol hapart⟩, hxs, hys,
    houtcome xs ys hxs hys hsame⟩

end Arena

end CachePool
