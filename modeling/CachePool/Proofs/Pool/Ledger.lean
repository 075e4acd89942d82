import CachePool.Pool.Probe
import CachePool.Proofs.Pool.Course
import CachePool.Proofs.Pool.Shards
import Mathlib.Algebra.BigOperators.Fin
import Mathlib.Algebra.Order.BigOperators.Group.Finset

/-!
# The ledger of a pool

A pool counts a hook before it calls it, and a call that a hook aborts leaves its counts
behind. They still add up: a payload that came in, by a release or by being built, is
parked, was handed out, or was destroyed, where an acquire whose payload could not be
destroyed handed nothing out, and a release whose payload could not be readied brought
nothing in. No more is ever built than is asked for.
-/

namespace CachePool

variable {μ τ : Type}

/-- The answer is a fault, and it came from the hook. -/
def PoolEvent.abort {α : Type} (hook : Hook) (answer : Except Fault α)
    (events : List (PoolEvent τ)) : Bool :=
  match answer with
  | .ok _ => false
  | .error _ => events.any fun event => event.failing? = some hook

theorem PoolEvent.abort_map {α β : Type} (hook : Hook) (f : α → β) (answer : Except Fault α)
    (events : List (PoolEvent τ)) :
    abort hook (answer.map f) events = abort hook answer events := by
  cases answer <;> rfl

namespace PoolRecord

/-- The call asks for a payload. -/
def isAcquire (r : PoolRecord τ) : Bool :=
  match r.call with
  | .acquire => true
  | .release _ => false

/-- The call was aborted by a failure of the hook. -/
def abortedBy (hook : Hook) (r : PoolRecord τ) : Bool := PoolEvent.abort hook r.answer r.events

/-- The number of acquires that failed to destroy a payload. -/
def abortedAcquires (records : List (PoolRecord τ)) : Nat :=
  records.countP fun r => r.isAcquire && r.abortedBy .destroy

/-- The number of releases that failed to ready their payload. -/
def abortedReleases (records : List (PoolRecord τ)) : Nat :=
  records.countP fun r => !r.isAcquire && r.abortedBy .prepare

variable (records : List (PoolRecord τ)) (r : PoolRecord τ)

theorem abortedAcquires_concat :
    abortedAcquires (records ++ [r]) = abortedAcquires records + abortedAcquires [r] :=
  List.countP_append

theorem abortedReleases_concat :
    abortedReleases (records ++ [r]) = abortedReleases records + abortedReleases [r] :=
  List.countP_append

end PoolRecord

section Calls

variable {capacity n n' : Nat} {parked parked' : List (Numbered τ)} {x : Numbered τ}
  {events : List (PoolEvent τ)}

namespace PoolEvent

theorem calls_answered (hook hook' : Hook) (verdict : Bool) :
    calls hook (.answered hook' x verdict :: events) =
      calls hook events + if hook' = hook then 1 else 0 := by
  simp [calls, hook?, List.countP_cons]

theorem abort_answered {α : Type} (hook hook' : Hook) (verdict : Bool) (answer : Except Fault α) :
    abort hook answer (.answered hook' x verdict :: events) = abort hook answer events := by
  cases answer <;> simp [abort, failing?]

end PoolEvent

@[simp] theorem PoolRecord.tally_acquire (answer : Except Fault (Option (Numbered τ))) :
    tally ⟨.acquire, answer, events⟩ = ⟨PoolEvent.calls .create events, 1, 0,
      PoolEvent.calls .destroy events⟩ := by
  ext <;> simp [tally, PoolTally.ofEvents]

@[simp] theorem PoolRecord.tally_release (answer : Except Fault (Option (Numbered τ))) :
    tally ⟨.release x, answer, events⟩ = ⟨PoolEvent.calls .create events, 0, 1,
      PoolEvent.calls .destroy events⟩ := by
  ext <;> simp [tally, PoolTally.ofEvents]

theorem Disposed.calls_create {answer : Except Fault Unit} (h : Disposed x answer events) :
    PoolEvent.calls .create events = 0 := by
  cases h <;> rfl

theorem Disposed.calls_destroy {answer : Except Fault Unit} (h : Disposed x answer events) :
    PoolEvent.calls .destroy events = 1 := by
  cases h <;> rfl

theorem Disposed.abort_prepare {answer : Except Fault Unit} (h : Disposed x answer events) :
    PoolEvent.abort .prepare answer events = false := by
  cases h <;> rfl

/-- What an acquire builds makes up for what it finds parked, and for a failure to destroy. -/
theorem Served.balance {answer : Except Fault (Numbered τ)}
    (h : Served n parked answer events parked' n') :
    PoolEvent.calls .create events + (PoolEvent.abort .destroy answer events).toNat +
        parked.length =
      parked'.length + 1 + PoolEvent.calls .destroy events := by
  induction h with
  | built | unbuilt => rfl
  | accepted | unjudged | undisposed =>
    simp [PoolEvent.calls, PoolEvent.hook?, PoolEvent.abort, PoolEvent.failing?, Nat.add_comm]
  | rejected x h ih =>
    simp only [PoolEvent.calls_answered, PoolEvent.abort_answered, List.length_cons, reduceCtorEq,
      if_false, if_true]
    omega

/-- An acquire builds one payload at most, and destroys only what it finds parked. -/
theorem Served.bounds {answer : Except Fault (Numbered τ)}
    (h : Served n parked answer events parked' n') :
    PoolEvent.calls .create events ≤ 1 ∧
      PoolEvent.calls .destroy events + parked'.length ≤ parked.length := by
  induction h with
  | built | unbuilt => exact ⟨Nat.le_refl _, Nat.le_refl _⟩
  | accepted | unjudged | undisposed =>
    simp [PoolEvent.calls, PoolEvent.hook?, Nat.add_comm]
  | rejected x h ih =>
    simp only [PoolEvent.calls_answered, List.length_cons, reduceCtorEq, if_false, if_true]
    omega

/-- A release builds nothing, and parks its payload or disposes of it, if it can be readied. -/
theorem Returned.balance {answer : Except Fault Unit}
    (h : Returned capacity x parked answer events parked') :
    PoolEvent.calls .create events = 0 ∧
    1 + parked.length = parked'.length + PoolEvent.calls .destroy events +
      (PoolEvent.abort .prepare answer events).toNat := by
  cases h with
  | unready | parked =>
    simp [PoolEvent.calls, PoolEvent.hook?, PoolEvent.abort, PoolEvent.failing?, Nat.add_comm]
  | disposed payload ready hfull hdisposed =>
    simp only [PoolEvent.calls_answered, PoolEvent.abort_answered, hdisposed.calls_create,
      hdisposed.calls_destroy, hdisposed.abort_prepare]
    simp [Nat.add_comm]

/-- A call counts as one request, and what it counts adds up with what it parks. -/
theorem Course.balance {r : PoolRecord τ} (h : Course capacity parked n r parked' n') :
    r.tally.acquires + r.tally.releases = 1 ∧
    r.tally.releases + r.tally.creates + PoolRecord.abortedAcquires [r] + parked.length =
      parked'.length + r.tally.acquires + r.tally.destroyed + PoolRecord.abortedReleases [r] ∧
    r.tally.creates ≤ r.tally.acquires ∧
    r.tally.destroyed + parked'.length ≤ parked.length + r.tally.releases := by
  cases h with
  | @acquire answer events _ _ hserved =>
    have haborted : PoolRecord.abortedAcquires [⟨.acquire, answer.map some, events⟩] =
        (PoolEvent.abort .destroy answer events).toNat := by
      rw [PoolRecord.abortedAcquires, List.countP_singleton, PoolRecord.abortedBy,
        PoolEvent.abort_map]
      cases PoolEvent.abort .destroy answer events <;> rfl
    have hreleases : PoolRecord.abortedReleases [⟨.acquire, answer.map some, events⟩] = 0 := rfl
    have hbalance := hserved.balance
    have hbounds := hserved.bounds
    simp only [PoolRecord.tally_acquire, haborted, hreleases]
    refine ⟨trivial, ?_, ?_, ?_⟩ <;> omega
  | @release payload answer events _ hreturned =>
    have hacquires : PoolRecord.abortedAcquires
        [⟨.release ⟨payload, n⟩, answer.map fun _ => none, events⟩] = 0 := rfl
    have haborted : PoolRecord.abortedReleases
        [⟨.release ⟨payload, n⟩, answer.map fun _ => none, events⟩] =
          (PoolEvent.abort .prepare answer events).toNat := by
      rw [PoolRecord.abortedReleases, List.countP_singleton, PoolRecord.abortedBy,
        PoolEvent.abort_map]
      cases PoolEvent.abort .prepare answer events <;> rfl
    have hbalance := hreturned.balance
    simp only [PoolRecord.tally_release, haborted, hacquires]
    refine ⟨trivial, ?_, ?_, ?_⟩ <;> omega

end Calls

/-- What was counted adds up with what is parked. -/
structure Ledger (records : List (PoolRecord τ)) (parked : List (Numbered τ)) : Prop where
  requests : (PoolRecord.total records).acquires + (PoolRecord.total records).releases =
    records.length
  balance : (PoolRecord.total records).releases + (PoolRecord.total records).creates +
      PoolRecord.abortedAcquires records =
    parked.length + (PoolRecord.total records).acquires + (PoolRecord.total records).destroyed +
      PoolRecord.abortedReleases records
  creates_le : (PoolRecord.total records).creates ≤ (PoolRecord.total records).acquires
  destroyed_le : (PoolRecord.total records).destroyed + parked.length ≤
    (PoolRecord.total records).releases

namespace Ledger

variable {capacity n n' : Nat} {records : List (PoolRecord τ)} {parked parked' : List (Numbered τ)}
  {r : PoolRecord τ}

/-- Nothing was counted before the first call. -/
theorem nil : Ledger ([] : List (PoolRecord τ)) [] := ⟨rfl, rfl, Nat.le_refl _, Nat.le_refl _⟩

/-- Whichever way a call goes, the counts still add up. -/
theorem concat (h : Ledger records parked) (hcourse : Course capacity parked n r parked' n') :
    Ledger (records ++ [r]) parked' := by
  obtain ⟨hrequests, hbalance, hcreates, hdestroyed⟩ := h
  obtain ⟨hrequests', hbalance', hcreates', hdestroyed'⟩ := hcourse.balance
  constructor
  all_goals
    simp only [PoolRecord.total_concat, PoolRecord.abortedAcquires_concat,
      PoolRecord.abortedReleases_concat, PoolTally.creates_add, PoolTally.acquires_add,
      PoolTally.releases_add, PoolTally.destroyed_add, List.length_append, List.length_singleton]
    omega

/-- The counts of fewer calls than a word can count fit the word. -/
theorem fits (h : Ledger records parked) (hlength : records.length < UInt64.size) :
    (PoolRecord.total records).Fits := by
  obtain ⟨hrequests, -, hcreates, hdestroyed⟩ := h
  constructor <;> omega

end Ledger

namespace PoolRecord

variable {records : List (PoolRecord τ)}

/-- Calls that were all answered were not aborted. -/
theorem aborted_eq_zero (h : ∀ r ∈ records, ∀ fault, r.answer ≠ .error fault) :
    abortedAcquires records = 0 ∧ abortedReleases records = 0 := by
  have hnone : ∀ hook, ∀ r ∈ records, r.abortedBy hook = false := by
    intro hook r hr
    cases hanswer : r.answer with
    | ok payload => rw [abortedBy, hanswer, PoolEvent.abort]
    | error fault => exact (h r hr fault hanswer).elim
  constructor
  · apply List.countP_eq_zero.mpr
    intro r hr
    simp [hnone .destroy r hr]
  · apply List.countP_eq_zero.mpr
    intro r hr
    simp [hnone .prepare r hr]

end PoolRecord

namespace Pool

variable {capacity : Size} {records : List (PoolRecord τ)} {p : Pool (Numbered τ)}

/-- The counters of a pool add up with what it parks, aborted calls included. -/
structure Balances (p : Pool τ) (records : List (PoolRecord τ)) : Prop where
  requests : p.stats.acquires.toNat + p.stats.releases.toNat = records.length
  balance : p.stats.releases.toNat + p.stats.creates.toNat + PoolRecord.abortedAcquires records =
    p.idle.toNat + p.stats.acquires.toNat + p.stats.destroyed.toNat +
      PoolRecord.abortedReleases records
  creates_le : p.stats.creates.toNat ≤ p.stats.acquires.toNat
  recycled : p.stats.recycled.toNat + p.stats.creates.toNat = p.stats.acquires.toNat
  answered : (∀ r ∈ records, ∀ fault, r.answer ≠ .error fault) →
    p.stats.destroyed.toNat ≤ p.stats.releases.toNat ∧
      p.stats.releases.toNat - p.stats.destroyed.toNat =
        p.idle.toNat + p.stats.recycled.toNat

/-- As long as a word can count the calls, the counters are exact. -/
theorem Tells.tally_eq (h : p.Tells capacity records) (hledger : Ledger records p.parked)
    (hlength : records.length < UInt64.size) : p.stats.tally = PoolRecord.total records := by
  rw [h.stats]
  exact PoolCounts.tally_plus (hledger.fits hlength)

theorem Tells.balances (h : p.Tells capacity records) (hledger : Ledger records p.parked)
    (hlength : records.length < UInt64.size) : (p.map Numbered.payload).Balances records := by
  have htally := h.tally_eq hledger hlength
  have hidle := h.sound.idle_eq
  obtain ⟨hrequests, hbalance, hcreates, hdestroyed⟩ := hledger
  rw [← htally] at hrequests hbalance hcreates hdestroyed
  rw [← hidle] at hbalance hdestroyed
  have hrecycled := PoolCounts.recycled_toNat hcreates
  refine ⟨hrequests, hbalance, hcreates, hrecycled, ?_⟩
  intro hanswered
  obtain ⟨hacquires, hreleases⟩ := PoolRecord.aborted_eq_zero hanswered
  simp only [PoolCounts.tally, hacquires, hreleases] at hbalance hdestroyed
  simp only [map]
  omega

end Pool

namespace ShardedPool

variable {shards shardCapacity : Size} {records : Handle shards → List (PoolRecord τ)}
  {p : ShardedPool τ shards}

/-- The pool of every shard is between two calls, and what it counted adds up with what it parks. -/
def Keeps (shardCapacity : Size) (records : Handle shards → List (PoolRecord τ))
    (p : ShardedPool τ shards) : Prop :=
  ∀ h, ∃ q : Pool (Numbered τ), q.Tells shardCapacity (records h) ∧
    Ledger (records h) q.parked ∧ p.shard h = q.map Numbered.payload

/-- New pools have no calls to account for. -/
theorem keeps_ofShardCapacity (shards shardCapacity : Size) :
    Keeps shardCapacity (fun _ => []) (ofShardCapacity (τ := τ) shards shardCapacity) := by
  intro h
  refine ⟨_, Pool.tells_ofCapacity shardCapacity, ?_, ?_⟩
  · rw [(Pool.laid_ofCapacity shardCapacity).parked_eq]
    exact .nil
  · rw [Pool.map_ofCapacity]
    exact Vector.getElem_replicate h.isLt

/-- A call is recorded at its shard, and at no other one. -/
theorem Keeps.perform (h : Keeps shardCapacity records p) (manager : Manager μ τ)
    (call : ShardedCall τ shards) (m : μ) :
    ∃ records', Keeps shardCapacity records' ((perform manager call).attempt (p, m)).2.1 ∧
      ∑ k, (records' k).length ≤ ∑ k, (records k).length + 1 := by
  cases call with
  | bind => exact ⟨records, h, Nat.le_succ _⟩
  | through k call =>
    obtain ⟨q, htells, hledger, hpool⟩ := h k
    obtain ⟨htells', hcourse⟩ := htells.record manager call { manager := m }
    have hplain := Pool.attempt_plain manager call (q, { manager := m })
    rw [Pool.plain, ← hpool] at hplain
    rw [attempt_through, hplain]
    generalize Pool.record manager call (q, { manager := m }) = recorded at htells' hcourse
    obtain ⟨r, q', c'⟩ := recorded
    refine ⟨fun j => if j = k then records k ++ [r] else records j, ?_, ?_⟩
    · intro j
      simp only [shard_putShard]
      by_cases hj : j = k
      · simp only [if_pos hj]
        exact ⟨q', htells', hledger.concat hcourse, rfl⟩
      · simp only [if_neg hj]
        exact h j
    · have hlength : ∀ j, (if j = k then records k ++ [r] else records j).length =
          (records j).length + if j = k then 1 else 0 := by
        intro j
        by_cases hj : j = k
        · simp [hj]
        · simp [hj]
      simp [hlength, Finset.sum_add_distrib]

/-- After any calls, the pools together have no more calls to account for. -/
theorem Keeps.run (h : Keeps shardCapacity records p) (manager : Manager μ τ)
    (calls : List (ShardedCall τ shards)) (m : μ) :
    ∃ records', Keeps shardCapacity records' (ShardedPool.run manager calls (p, m)).2.1 ∧
      ∑ k, (records' k).length ≤ ∑ k, (records k).length + calls.length := by
  induction calls generalizing p records m with
  | nil => exact ⟨records, h, Nat.le_refl _⟩
  | cons call calls ih =>
    obtain ⟨records', h', hlength⟩ := h.perform manager call m
    obtain ⟨records'', h'', hlength'⟩ :=
      ih h' ((ShardedPool.perform manager call).attempt (p, m)).2.2
    refine ⟨records'', h'', ?_⟩
    rw [List.length_cons]
    omega

/-- What was counted in a shard. -/
def counted (p : ShardedPool τ shards) (k : Handle shards) : PoolTally := (p.shard k).stats.tally

/-- What was counted in all shards, as sums over the shards. -/
theorem totals_pools (p : ShardedPool τ shards) :
    PoolCounts.totals (p.pools.toList.map (·.stats)) =
      ⟨∑ k, (p.counted k).creates, ∑ k, (p.counted k).acquires, ∑ k, (p.counted k).releases,
        ∑ k, (p.counted k).destroyed⟩ := by
  simp only [PoolCounts.totals, map_pools, List.map_map, Fin.sum_univ_def]
  rfl

/-- In every shard no more was built than asked for, and no more destroyed than handed back. -/
theorem Keeps.shard (h : Keeps shardCapacity records p)
    (hlength : ∑ k, (records k).length < UInt64.size) (k : Handle shards) :
    (p.counted k).acquires + (p.counted k).releases = (records k).length ∧
      (p.counted k).creates ≤ (p.counted k).acquires ∧
      (p.counted k).destroyed ≤ (p.counted k).releases := by
  obtain ⟨q, htells, hledger, hpool⟩ := h k
  have hle : (records k).length ≤ ∑ j, (records j).length :=
    Finset.single_le_sum (f := fun j => (records j).length) (fun _ _ => Nat.zero_le _)
      (Finset.mem_univ k)
  have htally : p.counted k = PoolRecord.total (records k) := by
    rw [counted, hpool]
    exact htells.tally_eq hledger (Nat.lt_of_le_of_lt hle hlength)
  obtain ⟨hrequests, -, hcreates, hdestroyed⟩ := hledger
  rw [htally]
  exact ⟨hrequests, hcreates, Nat.le_trans (Nat.le_add_right _ _) hdestroyed⟩

/-- The counters of all shards have a sum as long as a word can count the calls, and no more was
built than asked for. -/
theorem Keeps.stats (h : Keeps shardCapacity records p)
    (hlength : ∑ k, (records k).length < UInt64.size) :
    ∃ total, p.stats = .ok total ∧ total.tally = PoolCounts.totals (p.pools.toList.map (·.stats)) ∧
      total.creates.toNat ≤ total.acquires.toNat := by
  have hrequests : ∑ k, (p.counted k).acquires + ∑ k, (p.counted k).releases =
      ∑ k, (records k).length := by
    rw [← Finset.sum_add_distrib]
    exact Finset.sum_congr rfl fun k _ => (h.shard hlength k).1
  have hcreates : ∑ k, (p.counted k).creates ≤ ∑ k, (p.counted k).acquires :=
    Finset.sum_le_sum fun k _ => (h.shard hlength k).2.1
  have hdestroyed : ∑ k, (p.counted k).destroyed ≤ ∑ k, (p.counted k).releases :=
    Finset.sum_le_sum fun k _ => (h.shard hlength k).2.2
  have hfits : (PoolCounts.totals (p.pools.toList.map (·.stats))).Fits := by
    rw [totals_pools]
    constructor <;> simp only <;> omega
  obtain ⟨total, htotal⟩ := PoolCounts.exists_tally hfits
  refine ⟨total, PoolCounts.sum_eq_ok_iff.mpr htotal, htotal, ?_⟩
  change total.tally.creates ≤ total.tally.acquires
  rw [htotal, totals_pools]
  exact hcreates

end ShardedPool

/-- The ledger of a pool is exact after any calls that a word can count, whichever of them a hook
aborted; and neither for a pool nor for the sum over sharded pools was more built than asked for, so
that what was handed out again is the exact difference. -/
theorem Pool.run_balances_ledger (manager : Manager μ τ) (m : μ) :
    (∀ capacity calls, calls.length < UInt64.size → ∃ records p c,
      chronicle manager capacity m calls = (records, p, c) ∧
      run manager calls (ofCapacity capacity, m) =
        (records.map PoolRecord.plain, p.map Numbered.payload, c.manager) ∧
      (p.map Numbered.payload).Balances records) ∧
    ∀ (shards shardCapacity : Size) (calls : List (ShardedCall τ shards)),
      calls.length < UInt64.size → ∃ answers p m' total,
      ShardedPool.run manager calls (.ofShardCapacity shards shardCapacity, m) =
        (answers, p, m') ∧
      p.stats = .ok total ∧
      total.tally = PoolCounts.totals (p.pools.toList.map (·.stats)) ∧
      total.creates.toNat ≤ total.acquires.toNat ∧
      total.recycled.toNat + total.creates.toNat = total.acquires.toNat := by
  constructor
  · intro capacity calls hcalls
    obtain ⟨records, p, c, hchronicle, htells, hledger⟩ := chronicle_induction manager capacity m
      calls (P := fun records parked _ => Ledger records parked) .nil
      fun _ _ _ _ _ _ _ h hcourse => h.concat hcourse
    rw [← length_of_chronicle hchronicle] at hcalls
    exact ⟨records, p, c, hchronicle, run_of_chronicle hchronicle,
      htells.balances hledger hcalls⟩
  · intro shards shardCapacity calls hcalls
    obtain ⟨records, hkeeps, hlength⟩ :=
      (ShardedPool.keeps_ofShardCapacity (τ := τ) shards shardCapacity).run manager calls m
    simp only [List.length_nil, Finset.sum_const_zero, Nat.zero_add] at hlength
    obtain ⟨total, hstats, htally, hcreates⟩ :=
      hkeeps.stats (Nat.lt_of_le_of_lt hlength hcalls)
    exact ⟨_, _, _, total, rfl, hstats, htally, hcreates, PoolCounts.recycled_toNat hcreates⟩

/-- An acquire that cannot destroy a stale payload is one that the ledger makes up for. -/
theorem Pool.run_balances_ledger_stale :
    (∃ records p c,
      chronicle ProbeBench.judging ⟨1, by decide, by decide⟩ { failing := some .destroy }
        [.release { id := 7, stale := true }, .acquire] = (records, p, c) ∧
      PoolRecord.abortedAcquires records = 1 ∧ (p.map Numbered.payload).Balances records) ∧
    ∃ answers, ∃ p : ShardedPool Probe ⟨2, by decide, by decide⟩, ∃ m' total,
      ShardedPool.run ProbeBench.judging
        [.bind, .through (0 : Fin 2) (.release { id := 7, stale := true }),
          .through (1 : Fin 2) .acquire, .through (0 : Fin 2) .acquire]
        (.ofShardCapacity _ ⟨1, by decide, by decide⟩, { failing := some .destroy }) =
          (answers, p, m') ∧
      p.stats = .ok total ∧ total.creates.toNat ≤ total.acquires.toNat := by
  constructor
  · obtain ⟨records, p, c, hchronicle, -, hbalances⟩ :=
      (run_balances_ledger ProbeBench.judging { failing := some .destroy }).1
        ⟨1, by decide, by decide⟩ [.release { id := 7, stale := true }, .acquire] (by decide)
    have haborted : PoolRecord.abortedAcquires (chronicle ProbeBench.judging
        ⟨1, by decide, by decide⟩ { failing := some .destroy }
        [.release { id := 7, stale := true }, .acquire]).1 = 1 := by decide
    rw [hchronicle] at haborted
    exact ⟨records, p, c, hchronicle, haborted, hbalances⟩
  · obtain ⟨answers, p, m', total, hrun, hstats, -, hcreates, -⟩ :=
      (run_balances_ledger ProbeBench.judging { failing := some .destroy }).2
        ⟨2, by decide, by decide⟩ ⟨1, by decide, by decide⟩
        [.bind, .through (0 : Fin 2) (.release { id := 7, stale := true }),
          .through (1 : Fin 2) .acquire, .through (0 : Fin 2) .acquire] (by decide)
    exact ⟨answers, p, m', total, hrun, hstats, hcreates⟩

end CachePool
