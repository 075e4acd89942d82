import CachePool.Proofs.Cache.Departures
import CachePool.Proofs.Cache.Ownership

/-!
# Metrics account for every entry and every lookup

Each call raises its counters so that they add up. A lookup is one request, and a hit
if it found its key in a generation; a call that gives a key a value inserts or updates.
What was inserted is cached, or it was evicted, removed, found gone or cleared; what was
promoted is old, or it was demoted or has left the cache from old. The equations hold
for one call, and from there for every history.
-/

namespace CachePool

open Metrics

namespace Operation

variable {κ α : Type}

/-- The call looks a key up and counts as a request. -/
def asks : Operation κ α → Bool
  | .get _ | .update _ _ | .getLive _ _ => true
  | _ => false

/-- The values that a clear frees. -/
def clears (o : Outcome (Answer α) α) : Operation κ α → List α
  | .clear => o.freed
  | _ => []

end Operation

namespace CacheMetrics

variable {m : CacheMetrics}

/-- Where no more hits than requests were counted, the misses are the difference. -/
theorem exists_misses (h : m.cacheHits.toNat ≤ m.requests.toNat) :
    ∃ misses, m.misses = .ok misses ∧
      misses.toNat = m.requests.toNat - m.cacheHits.toNat := by
  have hle := UInt64.le_iff_toNat_le.mpr h
  refine ⟨m.requests - m.cacheHits, ?_, UInt64.toNat_sub_of_le _ _ hle⟩
  rw [misses, Counter.subtract, if_pos hle]

/-- Where the misses are known, so is their rate. -/
theorem exists_missRate {misses : UInt64} (h : m.misses = .ok misses) :
    ∃ rate, m.missRate = .ok rate := by
  unfold missRate
  split
  · rw [h]
    exact ⟨_, rfl⟩
  · exact ⟨0, rfl⟩

/-- Where the misses are known, everything can be reported. -/
theorem exists_report {misses : UInt64} (h : m.misses = .ok misses) :
    (∃ report, m.coreReport = .ok report) ∧ ∃ report, m.report = .ok report := by
  obtain ⟨rate, hrate⟩ := exists_missRate h
  obtain ⟨core, hcore⟩ : ∃ core, m.coreMeasurements = .ok core := by
    rw [coreMeasurements, h, hrate]
    exact ⟨_, rfl⟩
  constructor
  · rw [coreReport, hcore]
    exact ⟨_, rfl⟩
  · rw [report, hcore]
    exact ⟨_, rfl⟩

end CacheMetrics

namespace CacheModel

variable {κ α : Type} [DecidableEq κ] {m : CacheModel κ α} {op : Operation κ α} {s : Step κ α}
  {key : κ} {v : α}

/-- The counters that a call raises add up with what it does to the entries. -/
structure AddsUp (m : CacheModel κ α) (op : Operation κ α) (s : Step κ α) : Prop where
  requests : s.raised.count .requests = if op.asks then 1 else 0
  hits : s.raised.count .cacheHits = s.raised.count .youngHits + s.raised.count .oldHits
  hits_le : s.raised.count .cacheHits ≤ s.raised.count .requests
  writes : s.raised.count .insertions + s.raised.count .updates =
    if op.assigns.isSome then 1 else 0
  entries : m.pairs.length + s.raised.count .insertions =
    s.next.pairs.length + s.raised.count .evictions + s.raised.count .removals +
      s.raised.count .expired + (op.clears s.outcome).length
  old : m.old.length + s.raised.count .promotions =
    s.next.old.length + s.raised.count .demotions + (lost s.next m.old).length

/-- A call that changes nothing and raises nothing adds up. -/
theorem addsUp_quiet (hasks : op.asks = false) (hassigns : op.assigns = none)
    (outcome : Outcome (Answer α) α) (hclears : op.clears outcome = []) :
    m.AddsUp op { outcome, next := m } := by
  constructor
  case requests => simp [hasks]
  case writes => simp [hassigns]
  case entries => simp [hclears]
  case old => simp [(Keeps.refl m).lost_old]
  all_goals simp

/-- What a hit raises and moves: an item comes to old or goes from there with its counter. -/
theorem hit_counts (h : m.Sound) (key : κ) :
    (m.hit key).1.count .requests = 1 ∧
    (m.hit key).1.count .cacheHits =
      (m.hit key).1.count .youngHits + (m.hit key).1.count .oldHits ∧
    (m.hit key).1.count .cacheHits ≤ 1 ∧
    m.old.length + (m.hit key).1.count .promotions =
      (m.hit key).2.old.length + (m.hit key).1.count .demotions := by
  rcases h.hit_cases key with ⟨item, -, -, heq⟩ | ⟨item, -, -, heq⟩ |
    ⟨item, as, o, -, -, ho, heq⟩ | ⟨item, -, hitem, heq⟩ | ⟨-, heq⟩
  · simp [heq]
  · simp [heq]
  · simp [heq, ho]
  · have hlength := (perm_without hitem).length_eq
    simp only [List.length_cons] at hlength
    simp [heq, hlength]
  · simp [heq]

/-- A hit counts no change of the entries. -/
theorem count_hit_of_changes (h : m.Sound) (key : κ) {counter : Counter}
    (hcounter : counter ∈ [.insertions, .updates, .evictions, .removals, .expired]) :
    (m.hit key).1.count counter = 0 := by
  apply List.count_eq_zero.mpr
  intro hmem
  rcases h.hit_cases key with ⟨item, -, -, heq⟩ | ⟨item, -, -, heq⟩ |
    ⟨item, as, o, -, -, -, heq⟩ | ⟨item, -, -, heq⟩ | ⟨-, heq⟩
  all_goals
    rw [heq] at hmem
    cases counter <;> simp at hcounter hmem

/-- A lookup that is a hit or a miss, and keeps every entry, adds up. -/
theorem addsUp_hit (h : m.Sound) (key : κ) (hasks : op.asks = true) (hassigns : op.assigns = none)
    (hclears : op.clears s.outcome = []) (hraised : s.raised = (m.hit key).1)
    (hpairs : s.next.pairs.length = m.pairs.length)
    (hold : s.next.old.length = (m.hit key).2.old.length) (hkeeps : m.Keeps s.next) :
    m.AddsUp op s := by
  obtain ⟨hrequests, hhits, hle, hmoved⟩ := hit_counts h key
  have hchanges : ∀ counter ∈ [Counter.insertions, .updates, .evictions, .removals, .expired],
      s.raised.count counter = 0 := by
    intro counter hcounter
    rw [hraised]
    exact count_hit_of_changes h key hcounter
  rw [← hraised] at hrequests hhits hle hmoved
  constructor
  case requests => rw [hrequests, hasks, if_pos rfl]
  case hits => exact hhits
  case hits_le => rwa [hrequests]
  case writes => simp [hchanges, hassigns]
  case entries => simp [hchanges, hclears, hpairs]
  case old => rw [hkeeps.lost_old, hold, hmoved, List.length_nil, Nat.add_zero]

theorem length_pairs_write (m : CacheModel κ α) (key : κ) (f : α → α) :
    (m.write key f).pairs.length = m.pairs.length := by
  simp [pairs, write, revise]

theorem length_old_write (m : CacheModel κ α) (key : κ) (f : α → α) :
    (m.write key f).old.length = m.old.length := by
  simp [write, revise]

/-- A put updates or inserts, and what it displaces is evicted. -/
theorem addsUp_put (h : m.Sound) (key : κ) (value : α) :
    m.AddsUp (.put key value) (m.put key value) := by
  cases hv : m.value? key with
  | some before =>
    rw [put_known hv]
    constructor
    case entries => simp [length_pairs_write, Operation.clears]
    case old => simp [length_old_write, (keeps_write m key fun _ => value).lost_old]
    all_goals simp [Operation.asks, Operation.assigns]
  | none =>
    have hlost : lost (m.step (.put key value)).next m.old = [] := lost_old_of_retains h trivial
    have hlength := (pairs_insert h key value).length_eq
    rw [put_new hv]
    rw [step, put_new hv] at hlost
    by_cases hlt : m.young.length < m.youngCapacity
    · rw [insert_room hlt] at hlost hlength ⊢
      rw [displaced_room hlt] at hlength
      constructor
      case entries => simpa [Operation.clears] using hlength.symm
      case old => simp [hlost]
      all_goals simp [Operation.asks, Operation.assigns]
    · have hfull := Nat.le_of_not_lt hlt
      obtain ⟨as, o, hy⟩ := exists_last h.youngRoom hfull
      rw [insert_full hfull hy] at hlost hlength ⊢
      rw [displaced_full hfull hy] at hlength
      constructor
      case entries =>
        simp only [Option.toList_some, List.map_cons, List.map_nil, List.length_append,
          List.length_cons, List.length_nil] at hlength
        simp [Operation.clears]
        omega
      case old => simp [hlost]
      all_goals simp [Operation.asks, Operation.assigns]

/-- A removal of a key that is there is counted as one. -/
theorem addsUp_remove (h : m.Sound) (key : κ) (hasks : op.asks = false)
    (hassigns : op.assigns = none) (hclears : op.clears (m.remove key).outcome = []) :
    m.AddsUp op (m.remove key) := by
  cases hv : m.value? key with
  | some before =>
    have hlength := (pairs_erase h hv).length_eq
    have hold := (perm_lost_erase_old h hv).length_eq
    rw [remove_known hv] at hclears ⊢
    constructor
    case requests => simp [hasks]
    case writes => simp [hassigns]
    case entries => simpa [hclears] using hlength
    case old =>
      rw [List.length_append] at hold
      simp
      omega
    all_goals simp
  | none =>
    rw [remove_absent hv] at hclears ⊢
    exact addsUp_quiet hasks hassigns _ hclears

/-- A lookup that finds its value gone is a miss, and counts the entry that it drops. -/
theorem addsUp_getLive (h : m.Sound) (key : κ) (alive : α → Bool) :
    m.AddsUp (.getLive key alive) (m.getLive key alive) := by
  rcases m.getLive_cases key alive with ⟨hv, heq⟩ | ⟨value, hv, -, heq⟩ | ⟨value, hv, -, heq⟩
  · have hmiss := hit_absent (value?_eq_none_iff.mp hv)
    rw [heq]
    apply addsUp_hit h key rfl rfl rfl
    · rw [hmiss]
    · rfl
    · rw [hmiss]
    · exact .refl m
  · rw [heq]
    exact addsUp_hit h key rfl rfl rfl rfl (pairs_hit h key).length_eq rfl (keeps_hit h key)
  · have hlength := (pairs_erase h hv).length_eq
    have hold := (perm_lost_erase_old h hv).length_eq
    rw [heq]
    constructor
    case entries => simpa [Operation.clears] using hlength
    case old =>
      rw [List.length_append] at hold
      simp
      omega
    all_goals simp [Operation.asks, Operation.assigns]

/-- A clear frees everything that is cached. -/
theorem addsUp_clear (m : CacheModel κ α) : m.AddsUp .clear (m.step .clear) := by
  have hlost : (lost (m.step .clear).next m.old).Perm m.old := by
    have hsplit : m.old.Perm (m.old ++ []) := by rw [List.append_nil]
    apply lost_perm hsplit
    · exact fun _ _ => rfl
    · simp
  constructor
  case entries => simp [step, pairs, Operation.clears, ending]
  case old =>
    rw [hlost.length_eq]
    simp [step]
  all_goals simp [step, Operation.asks, Operation.assigns]

/-- Every call adds up. -/
theorem addsUp_step (h : m.Sound) (op : Operation κ α) : m.AddsUp op (m.step op) := by
  cases op with
  | get key =>
    exact addsUp_hit h key rfl rfl rfl rfl (pairs_hit h key).length_eq rfl (keeps_hit h key)
  | update key f =>
    apply addsUp_hit h key rfl rfl rfl rfl
    · rw [step_update, length_pairs_write, (pairs_hit h key).length_eq]
    · rw [step_update, length_old_write]
    · exact keeps_update h key f
  | getLive key alive => exact addsUp_getLive h key alive
  | peek key => exact addsUp_quiet rfl rfl _ rfl
  | contains key => exact addsUp_quiet rfl rfl _ rfl
  | generationOf key => exact addsUp_quiet rfl rfl _ rfl
  | put key value => exact addsUp_put h key value
  | set key value =>
    cases value with
    | some value =>
      -- a put of the same value, under another name
      obtain ⟨hrequests, hhits, hle, hwrites, hentries, hold⟩ := addsUp_put h key value
      exact ⟨hrequests, hhits, hle, hwrites, hentries, hold⟩
    | none => exact addsUp_remove h key rfl rfl rfl
  | remove key => exact addsUp_remove h key rfl rfl rfl
  | clear => exact m.addsUp_clear

/-- What a lookup may raise besides the requests is raised by requests only. -/
theorem count_le_requests (h : m.Sound) (op : Operation κ α) {counter : Counter}
    (hcounter : counter ∈ [.cacheHits, .youngHits, .oldHits, .promotions, .demotions, .expired]) :
    (m.step op).raised.count counter ≤ (m.step op).raised.count .requests := by
  have hone := List.nodup_iff_count_le_one.mp (m.step_raised_nodup op) counter
  have hput : ∀ key value, counter ∉ (m.put key value).raised := by
    intro key value
    simp only [put, insert]
    split
    · cases counter <;> simp at hcounter ⊢
    · split <;> cases counter <;> simp at hcounter ⊢
  have hremove : ∀ key, counter ∉ (m.remove key).raised := by
    intro key
    simp only [remove]
    split <;> cases counter <;> simp at hcounter ⊢
  have hasks : op.asks = true → (m.step op).raised.count counter ≤
      (m.step op).raised.count .requests := by
    intro hasks
    rwa [(addsUp_step h op).requests, hasks, if_pos rfl]
  have hquiet : counter ∉ (m.step op).raised → (m.step op).raised.count counter ≤
      (m.step op).raised.count .requests := by
    intro hnot
    rw [List.count_eq_zero.mpr hnot]
    exact Nat.zero_le _
  cases op with
  | get | update | getLive => exact hasks rfl
  | put key value => exact hquiet (hput key value)
  | set key value =>
    cases value with
    | some value => exact hquiet (hput key value)
    | none => exact hquiet (hremove key)
  | remove key => exact hquiet (hremove key)
  | peek | contains | generationOf | clear => exact hquiet List.not_mem_nil

end CacheModel

namespace Cache

variable {κ α : Type} [DecidableEq κ] {start c : Cache κ α} {m : CacheModel κ α}
  {past : List (Operation κ α)} {op : Operation κ α} {o : Outcome (Answer α) α}

/-- The number that a measurement of the cache shows. -/
def counted (c : Cache κ α) (counter : Counter) : Nat := (c.metrics.get counter).toNat

/-- One more call that answers raises a counter as often as the rules say. -/
theorem Shows.counted_concat (h : (start.run past).2.Shows m)
    (ho : ((start.run past).2.step op).1 = .ok o) {counter : Counter} (hgrows : counter.grows) :
    (start.run (past ++ [op])).2.counted counter =
      (start.run past).2.counted counter + (m.step op).raised.count counter := by
  obtain ⟨-, -, hcounts⟩ := h.step ho
  rw [run_concat]
  exact hcounts counter hgrows

/-- The values that the clears of a history freed. -/
def cleared : Cache κ α → List (Operation κ α) → List α :=
  ledger fun op o => op.clears o

/-- The counters add up over a history, with its calls and with what became of the entries. -/
structure Balances (start : Cache κ α) (past : List (Operation κ α)) : Prop where
  /-- Every lookup is a request, and nothing else is. -/
  requests : (start.run past).2.counted .requests = past.countP Operation.asks
  /-- A hit is young or old. -/
  hits : (start.run past).2.counted .cacheHits =
    (start.run past).2.counted .youngHits + (start.run past).2.counted .oldHits
  hits_le : (start.run past).2.counted .cacheHits ≤ (start.run past).2.counted .requests
  /-- A call that gives a key a value inserts or updates. -/
  writes : (start.run past).2.counted .insertions + (start.run past).2.counted .updates =
    past.countP fun op => op.assigns.isSome
  /-- What was inserted is cached, or it was evicted, removed, found gone or cleared. -/
  entries : (start.run past).2.counted .insertions =
    (start.run past).2.length + (start.run past).2.counted .evictions +
      (start.run past).2.counted .removals + (start.run past).2.counted .expired +
      (start.cleared past).length
  /-- What was promoted is old, or it was demoted, or it left the cache from old. -/
  old : (start.run past).2.counted .promotions =
    (start.run past).2.counted .demotions + (start.run past).2.old.length +
      (start.departed .old past).length

/-- One more call that answers adds up. -/
theorem Balances.concat (h : start.Balances past) (hm : (start.run past).2.Shows m)
    (ho : ((start.run past).2.step op).1 = .ok o) : start.Balances (past ++ [op]) := by
  have hcall := CacheModel.addsUp_step hm.sound op
  have hcount : ∀ counter : Counter, counter.grows →
      (start.run (past ++ [op])).2.counted counter =
        (start.run past).2.counted counter + (m.step op).raised.count counter :=
    fun _ hgrows => hm.counted_concat ho hgrows
  obtain ⟨rfl, hnext, -⟩ := hm.step ho
  have hlength := hm.length_eq
  have hlength' := hnext.length_eq
  have hold := hm.old_length
  have hold' := hnext.old_length
  have hcleared : (start.cleared (past ++ [op])).length =
      (start.cleared past).length + (op.clears (m.step op).outcome).length := by
    rw [cleared, ledger_concat _ _ ho, List.length_append]
  have hdeparted : (start.departed .old (past ++ [op])).length =
      (start.departed .old past).length + (CacheModel.lost (m.step op).next m.old).length := by
    rw [departed_concat, List.length_append, ← hm.old_eq, ← hnext.map_departures, List.length_map]
  rw [← run_concat] at hlength' hold'
  constructor
  case requests =>
    rw [hcount _ rfl, h.requests, hcall.requests, List.countP_append, List.countP_singleton]
  case hits =>
    rw [hcount _ rfl, hcount _ rfl, hcount _ rfl, h.hits, hcall.hits]
    omega
  case hits_le =>
    rw [hcount _ rfl, hcount _ rfl]
    exact Nat.add_le_add h.hits_le hcall.hits_le
  case writes =>
    have hbefore := h.writes
    have hone := hcall.writes
    rw [hcount _ rfl, hcount _ rfl, List.countP_append, List.countP_singleton]
    omega
  case entries =>
    have hbefore := h.entries
    have hone := hcall.entries
    rw [hcount _ rfl, hcount _ rfl, hcount _ rfl, hcount _ rfl, hcleared]
    omega
  case old =>
    have hbefore := h.old
    have hone := hcall.old
    rw [hcount _ rfl, hcount _ rfl, hdeparted]
    omega

/-- The counters of a new cache add up. -/
theorem balances_nil (config : CacheConfig) (hasher : Hasher κ) :
    (ofConfig config hasher : Cache κ α).Balances [] := by
  constructor <;> rfl

/-- The metrics account for every entry and every lookup of a history, and can be reported. -/
structure Accounts (start : Cache κ α) (past : List (Operation κ α)) : Prop
    extends start.Balances past where
  /-- The misses are the difference of requests and hits, which never falls below zero. -/
  misses : ∃ misses, (start.run past).2.metrics.misses = .ok misses ∧
    misses.toNat = (start.run past).2.counted .requests - (start.run past).2.counted .cacheHits
  missRate : ∃ rate, (start.run past).2.metrics.missRate = .ok rate
  reports : (∃ report, (start.run past).2.metrics.coreReport = .ok report) ∧
    ∃ report, (start.run past).2.metrics.report = .ok report
  demotions_le : (start.run past).2.counted .demotions ≤ (start.run past).2.counted .promotions
  /-- The next call takes an entry out of old only if it removes one, finds one gone, or clears. -/
  departures : ∀ op o, ((start.run past).2.step op).1 = .ok o →
    (start.run past).2.departures .old op ≠ [] → ¬ op.retains (start.run past).2.peek
  youngSize : (start.run past).2.counted .youngSize = (start.run past).2.young.length
  oldSize : (start.run past).2.counted .oldSize = (start.run past).2.old.length
  oldCapacity : (start.run past).2.counted .oldCapacity = (start.run past).2.old.capacity.val
  oldSize_le : (start.run past).2.counted .oldSize ≤ (start.run past).2.counted .oldCapacity

/-- A cache that shows a model accounts for a history over which its counters add up. -/
theorem Balances.accounts (h : start.Balances past) (hm : (start.run past).2.Shows m) :
    start.Accounts past := by
  obtain ⟨misses, hmisses, hdifference⟩ := CacheMetrics.exists_misses h.hits_le
  constructor
  case toBalances => exact h
  case misses => exact ⟨misses, hmisses, hdifference⟩
  case missRate => exact CacheMetrics.exists_missRate hmisses
  case reports => exact CacheMetrics.exists_report hmisses
  case demotions_le =>
    rw [h.old]
    omega
  case departures =>
    intro op o ho hleft hretains
    obtain ⟨-, hnext, -⟩ := hm.step ho
    have hlost := Shows.map_departures hnext .old
    rw [hm.lookup_eq] at hretains
    rw [hm.old_eq, CacheModel.lost_old_of_retains hm.sound hretains, List.map_eq_nil_iff] at hlost
    exact hleft hlost
  case youngSize => exact hm.youngSize
  case oldSize => exact hm.oldSize
  case oldCapacity => exact hm.oldSlots
  case oldSize_le =>
    change (start.run past).2.metrics.oldSize.toNat ≤ (start.run past).2.metrics.oldCapacity.toNat
    rw [hm.oldSize, hm.oldSlots, hm.old_length, hm.oldCapacity]
    exact hm.sound.oldBounded

/-- Throughout every history, the metrics of a cache account for every lookup and for every entry,
and no report of them stops at a fault. -/
theorem run_metrics_account (config : CacheConfig) (hasher : Hasher κ)
    (ops : List (Operation κ α)) :
    Throughout config hasher ops (ofConfig config hasher : Cache κ α).Accounts := by
  refine throughout_of_answers (fun past hanswers => ?_) ops
  obtain ⟨m, hm, hbalances⟩ := hanswers.induction
    (P := fun past _ => (ofConfig config hasher : Cache κ α).Balances past)
    (balances_nil config hasher) fun past op o m hm ho hbalances => hbalances.concat hm ho
  exact hbalances.accounts hm

end Cache

end CachePool
