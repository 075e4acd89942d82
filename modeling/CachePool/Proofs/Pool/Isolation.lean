import CachePool.Proofs.Pool.Clients
import CachePool.Proofs.Pool.Ledger

/-!
# Shards do not interfere

A sharded pool is so many pools under one manager. Each shard is what a pool of its
share becomes that serves the visits to that shard alone, so its ledger balances on its
own, also if it parks payloads that another shard built. The counters and the parked
payloads of the whole are sums over the shards, and the shares together hold what was
asked for, with less than one payload for each shard beyond it.
-/

namespace CachePool

variable {μ τ : Type}

namespace ShardingConfig

/-- The shares together reach the capacity, and exceed it by less than the number of shards. -/
theorem mul_shardCapacity (c : ShardingConfig) (shards : Size) :
    c.capacity.val ≤ shards.val * (c.shardCapacity shards).val ∧
      shards.val * (c.shardCapacity shards).val < c.capacity.val + shards.val := by
  have hshare : (c.shardCapacity shards).val = (c.capacity.val + shards.val - 1) / shards.val := rfl
  have hdivision := Nat.div_add_mod (c.capacity.val + shards.val - 1) shards.val
  have hrest := Nat.mod_lt (c.capacity.val + shards.val - 1) shards.pos
  rw [hshare]
  omega

end ShardingConfig

namespace Pool

variable {capacity : Size} {records : List (PoolRecord τ)} {q : Pool (Numbered τ)}

/-- Whatever states a pool finds its manager in, it records what it serves, and its ledger still
balances. -/
theorem Tells.serve (h : q.Tells capacity records) (hledger : Ledger records q.parked)
    (manager : Manager μ τ) (requests : List (PoolCall τ × μ)) :
    ∃ (q' : Pool (Numbered τ)) (records' : List (PoolRecord τ)),
      (Pool.serve manager requests (q.map Numbered.payload)).2 = q'.map Numbered.payload ∧
      q'.Tells capacity (records ++ records') ∧ Ledger (records ++ records') q'.parked ∧
      records'.map PoolRecord.plain =
        (Pool.serve manager requests (q.map Numbered.payload)).1.map Prod.fst := by
  induction requests generalizing q records with
  | nil =>
    exact ⟨q, [], rfl, by rwa [List.append_nil], by rwa [List.append_nil], rfl⟩
  | cons request requests ih =>
    obtain ⟨call, m⟩ := request
    obtain ⟨htells, hcourse⟩ := h.record manager call { manager := m }
    have hplain := attempt_plain manager call (q, { manager := m })
    generalize Pool.record manager call (q, { manager := m }) = recorded at htells hcourse hplain
    obtain ⟨r, q', c'⟩ := recorded
    obtain ⟨q'', records', hpool, htells', hledger', hanswers⟩ := ih htells (hledger.concat hcourse)
    rw [List.append_assoc, List.singleton_append] at htells' hledger'
    refine ⟨q'', r :: records', ?_, htells', hledger', ?_⟩
    · rw [serve_cons hplain]
      exact hpool
    · rw [serve_cons hplain, List.map_cons, hanswers]
      rfl

/-- The counters of a pool add up with what it parks: as words that wrap around, and as numbers as
long as a word can count the calls. -/
structure AddsUp (p : Pool τ) (calls : Nat) : Prop where
  words : p.stats.releases + p.stats.creates = p.idle + p.stats.acquires + p.stats.destroyed
  numbers : calls < UInt64.size →
    p.stats.releases.toNat + p.stats.creates.toNat =
      p.idle.toNat + p.stats.acquires.toNat + p.stats.destroyed.toNat

/-- As long as no call is aborted, the counters of a pool add up with what it parks, also where they
wrap around. -/
theorem Tells.stats_balance (h : q.Tells capacity records) (hledger : Ledger records q.parked)
    (hanswers : ∀ r ∈ records, ∀ fault, r.answer ≠ .error fault) :
    q.stats.releases + q.stats.creates = q.idle + q.stats.acquires + q.stats.destroyed := by
  obtain ⟨hacquires, hreleases⟩ := PoolRecord.aborted_eq_zero hanswers
  have hbalance := hledger.balance
  rw [hacquires, hreleases, Nat.add_zero, Nat.add_zero] at hbalance
  have hidle : q.idle = .ofNat q.parked.length := by
    rw [← h.sound.idle_eq, UInt64.ofNat_toNat]
  rw [hidle, h.stats]
  simp only [PoolCounts.plus, UInt64.zero_add, ← UInt64.ofNat_add, hbalance]

end Pool

namespace Visit

variable {shards : Size}

/-- Every visit is to one of the shards. -/
theorem sum_length_toShard (visits : List (Visit μ τ shards)) :
    ∑ k, (toShard k visits).length = visits.length := by
  induction visits with
  | nil => simp [toShard]
  | cons v visits ih =>
    have hlength : ∀ k, (toShard k (v :: visits)).length =
        (toShard k visits).length + if v.shard = k then 1 else 0 := by
      intro k
      by_cases hk : v.shard = k <;> simp [toShard, hk]
    simp [hlength, Finset.sum_add_distrib, ih]

/-- Every visit was answered. -/
def Answered (visits : List (Visit μ τ shards)) : Prop :=
  ∀ v ∈ visits, ∃ payload, v.answer = .ok payload

end Visit

namespace ShardClients

variable {shards share : Size} {s : ShardClients μ τ shards} {visited : List (Visit μ τ shards)}

/-- Clients make one visit a call at most. -/
theorem length_visits_le (manager : Manager μ τ) (calls : List (ClientCall τ))
    (s : ShardClients μ τ shards) : (visits manager calls s).length ≤ calls.length := by
  induction calls generalizing s with
  | nil => exact Nat.le_refl 0
  | cons call calls ih =>
    have hrest := ih ((perform manager call).attempt s).2
    rw [visits, List.length_append, List.length_cons]
    cases visit? manager call s <;> simp <;> omega

/-- A call that is answered makes a visit that is answered. -/
theorem answered_of_visit? (manager : Manager μ τ) {call : ClientCall τ}
    {s : ShardClients μ τ shards} {v : Visit μ τ shards} (hvisit : visit? manager call s = some v)
    {a : ClientAnswer τ shards} (h : ((perform manager call).attempt s).1 = .ok a) :
    v.answer = .ok a.payload? := by
  cases call with
  | bind => cases hvisit
  | copy position => cases hvisit
  | through position call =>
    obtain ⟨k, -, rfl⟩ := Option.map_eq_some_iff.mp hvisit
    simp only [h]
    rfl

/-- Where every call is answered, so is every visit. -/
theorem answered_visits (manager : Manager μ τ) {calls : List (ClientCall τ)}
    {s : ShardClients μ τ shards} (h : Action.Answers (perform manager) calls s) :
    Visit.Answered (visits manager calls s) := by
  induction calls generalizing s with
  | nil => exact fun v hv => absurd hv List.not_mem_nil
  | cons call calls ih =>
    intro v hv
    rcases List.mem_append.mp hv with hv | hv
    · obtain ⟨a, ha⟩ := h _ List.mem_cons_self
      exact ⟨_, answered_of_visit? manager (Option.mem_toList.mp hv) ha⟩
    · exact ih (fun answer hanswer => h answer (List.mem_cons_of_mem _ hanswer)) v hv

/-- The shards are pools of the share, each of which served the visits to it and nothing else. -/
def ServedApart (manager : Manager μ τ) (share : Size) (visited : List (Visit μ τ shards))
    (p : ShardedPool τ shards) : Prop :=
  ∀ k, Pool.serve manager ((Visit.toShard k visited).map Visit.request) (.ofCapacity share) =
    ((Visit.toShard k visited).map Visit.reply, p.shard k)

/-- What the shards served is recorded, and their ledgers balance. -/
theorem ServedApart.exists_records {manager : Manager μ τ} {p : ShardedPool τ shards}
    (h : ServedApart manager share visited p) :
    ∃ records : Handle shards → List (PoolRecord τ), p.Keeps share records ∧
      ∀ k, (records k).map PoolRecord.plain = (Visit.toShard k visited).map Visit.answer := by
  have hshard : ∀ k, ∃ records : List (PoolRecord τ), (∃ q : Pool (Numbered τ),
      q.Tells share records ∧ Ledger records q.parked ∧ p.shard k = q.map Numbered.payload) ∧
      records.map PoolRecord.plain = (Visit.toShard k visited).map Visit.answer := by
    intro k
    have hnew : Ledger ([] : List (PoolRecord τ)) (Pool.ofCapacity share).parked := by
      rw [(Pool.laid_ofCapacity share).parked_eq]
      exact .nil
    obtain ⟨q, records, hpool, htells, hledger, hanswers⟩ :=
      (Pool.tells_ofCapacity share).serve hnew manager ((Visit.toShard k visited).map Visit.request)
    rw [Pool.map_ofCapacity, h k] at hpool hanswers
    rw [List.nil_append] at htells hledger
    refine ⟨records, ⟨q, htells, hledger, hpool⟩, ?_⟩
    rw [hanswers, List.map_map]
    rfl
  choose records hkeeps hanswers using hshard
  exact ⟨records, hkeeps, hanswers⟩

end ShardClients

namespace ShardedPool

variable {shards share : Size} {records : Handle shards → List (PoolRecord τ)}
  {p : ShardedPool τ shards}

/-- What is read off the whole is the sum over the shards, field by field. -/
structure Sums (p : ShardedPool τ shards) : Prop where
  shardStats : ∀ k : Handle shards, p.shardStats k = some (p.shard k).stats
  idle : p.idle = ∑ k, (p.shard k).idle.toNat
  capacity : p.capacity = ∑ k, (p.shard k).capacity.val
  stats : ∀ total, p.stats = .ok total ↔
    total.creates.toNat = ∑ k, (p.shard k).stats.creates.toNat ∧
    total.acquires.toNat = ∑ k, (p.shard k).stats.acquires.toNat ∧
    total.releases.toNat = ∑ k, (p.shard k).stats.releases.toNat ∧
    total.destroyed.toNat = ∑ k, (p.shard k).stats.destroyed.toNat

/-- A sum over the pools is one over the shards. -/
theorem sum_pools (p : ShardedPool τ shards) (f : Pool τ → Nat) :
    (p.pools.toList.map f).foldr (· + ·) 0 = ∑ k, f (p.shard k) := by
  rw [map_pools, ← List.sum_eq_foldr, Fin.sum_univ_def]

theorem sums (p : ShardedPool τ shards) : p.Sums where
  shardStats k := by
    rw [shardStats, Vector.getElem?_eq_getElem k.isLt]
    rfl
  idle := p.sum_pools _
  capacity := p.sum_pools _
  stats total := by
    rw [stats, PoolCounts.sum_eq_ok_iff, totals_pools, PoolTally.ext_iff]
    rfl

/-- The shards together park what fits their shares, and no more. -/
theorem Keeps.idle_le (h : Keeps share records p) :
    p.capacity = shards.val * share.val ∧ p.idle ≤ p.capacity := by
  have hcapacity : ∀ k, (p.shard k).capacity.val = share.val := by
    intro k
    obtain ⟨q, htells, -, hpool⟩ := h k
    rw [hpool, Pool.map, htells.capacity]
  have hidle : ∀ k, (p.shard k).idle.toNat ≤ (p.shard k).capacity.val := by
    intro k
    obtain ⟨q, htells, -, hpool⟩ := h k
    rw [hcapacity, hpool, Pool.map, htells.sound.idle_eq]
    exact htells.length_le
  constructor
  · simp [p.sums.capacity, hcapacity]
  · rw [p.sums.idle, p.sums.capacity]
    exact Finset.sum_le_sum fun k _ => hidle k

/-- In a shard where no call was aborted, the counters add up with what is parked. -/
theorem Keeps.addsUp (h : Keeps share records p) (k : Handle shards)
    (hanswers : ∀ r ∈ records k, ∀ fault, r.answer ≠ .error fault) {calls : Nat}
    (hcalls : (records k).length ≤ calls) : (p.shard k).AddsUp calls := by
  obtain ⟨q, htells, hledger, hpool⟩ := h k
  refine ⟨?_, fun hfits => ?_⟩
  · rw [hpool]
    exact htells.stats_balance hledger hanswers
  · obtain ⟨hacquires, hreleases⟩ := PoolRecord.aborted_eq_zero hanswers
    have hbalance := (htells.balances hledger (Nat.lt_of_le_of_lt hcalls hfits)).balance
    rw [hacquires, hreleases, ← hpool] at hbalance
    exact hbalance

end ShardedPool

namespace ShardClients

variable {shards share : Size} {visited : List (Visit μ τ shards)}

/-- A sharded pool of a configuration on a machine, for which no handles were made yet. -/
def ofConfig (config : ShardingConfig) (parallelism : Option Size) (m : μ) :
    ShardClients μ τ (ShardedPool.shardsOf config parallelism) where
  pool := .ofConfig config parallelism
  manager := m

/-- A sharded pool that clients worked with from the start is so many pools of its share. -/
theorem servedApart_visits (config : ShardingConfig) (parallelism : Option Size)
    (manager : Manager μ τ) (m : μ) (calls : List (ClientCall τ)) :
    ServedApart manager (config.shardCapacity (ShardedPool.shardsOf config parallelism))
      (visits manager calls (ofConfig config parallelism m))
      (run manager calls (ofConfig config parallelism m)).2.pool := by
  intro k
  have hnew : (ofConfig (τ := τ) config parallelism m).pool.shard k =
      .ofCapacity (config.shardCapacity (ShardedPool.shardsOf config parallelism)) :=
    Vector.getElem_replicate k.isLt
  rw [← hnew]
  exact serve_visits manager calls (ofConfig config parallelism m) k

/-- After visits that were all answered, every shard balances. -/
theorem ServedApart.addsUp {manager : Manager μ τ} {p : ShardedPool τ shards}
    (h : ServedApart manager share visited p) (hanswered : Visit.Answered visited) {calls : Nat}
    (hcalls : visited.length ≤ calls) (k : Handle shards) : (p.shard k).AddsUp calls := by
  obtain ⟨records, hkeeps, hanswers⟩ := h.exists_records
  refine hkeeps.addsUp k ?_ ?_
  · intro r hr fault hfault
    have hplain : r.plain ∈ (records k).map PoolRecord.plain := List.mem_map_of_mem hr
    rw [hanswers k, List.mem_map] at hplain
    obtain ⟨v, hv, hanswer⟩ := hplain
    obtain ⟨payload, hpayload⟩ := hanswered v (List.mem_of_mem_filter hv)
    rw [hpayload, PoolRecord.plain, hfault] at hanswer
    cases hanswer
  · have hlength : (records k).length = (Visit.toShard k visited).length := by
      simpa using congrArg List.length (hanswers k)
    rw [hlength]
    exact Nat.le_trans (List.length_filter_le _ _) hcalls

/-- The counters of the shards have a sum as long as a word can count the calls. -/
theorem ServedApart.exists_stats {manager : Manager μ τ} {p : ShardedPool τ shards}
    (h : ServedApart manager share visited p) (hfits : visited.length < UInt64.size) :
    ∃ total, p.stats = .ok total := by
  obtain ⟨records, hkeeps, hanswers⟩ := h.exists_records
  have hlength : ∀ k, (records k).length = (Visit.toShard k visited).length := by
    intro k
    simpa using congrArg List.length (hanswers k)
  obtain ⟨total, htotal, -⟩ := hkeeps.stats (by simpa [hlength, Visit.sum_length_toShard])
  exact ⟨total, htotal⟩

/-- The shards do not interfere after these visits, nor in any next call; the whole is their sum. -/
structure Isolates (manager : Manager μ τ) (share : Size) (visited : List (Visit μ τ shards))
    (s : ShardClients μ τ shards) : Prop where
  servedApart : ServedApart manager share visited s.pool
  actsAlone : ∀ (position : Nat) (h : Handle shards) (call : PoolCall τ),
    s.handles[position]? = some h →
      ActsAlone manager h call s ((perform manager (.through position call)).attempt s)
  actsNowhere : ∀ call, visit? manager call s = none →
    ((perform manager call).attempt s).2.manager = s.manager ∧
      ∀ k, ((perform manager call).attempt s).2.pool.shard k = s.pool.shard k
  sums : s.pool.Sums
  capacity : s.pool.capacity = shards.val * share.val
  idle_le : s.pool.idle ≤ s.pool.capacity

/-- A sharded pool on any machine is so many pools of its share that do not interfere, whichever
calls its clients make, and parks what was asked for, rounded up to full shares. As long as no call
is aborted, every shard balances on its own, whichever shards the payloads came from. -/
theorem run_isolates_shards (config : ShardingConfig) (parallelism : Option Size)
    (manager : Manager μ τ) (m : μ) (calls : List (ClientCall τ)) :
    ∃ answers s, run manager calls (ofConfig config parallelism m) = (answers, s) ∧
      Isolates manager (config.shardCapacity (ShardedPool.shardsOf config parallelism))
        (visits manager calls (ofConfig config parallelism m)) s ∧
      config.capacity.val ≤ s.pool.capacity ∧
      s.pool.capacity < config.capacity.val + (ShardedPool.shardsOf config parallelism).val ∧
      (calls.length < UInt64.size → ∃ total, s.pool.stats = .ok total) ∧
      ((∀ answer ∈ answers, ∃ a, answer = .ok a) → ∀ k, (s.pool.shard k).AddsUp calls.length) := by
  have hapart := servedApart_visits config parallelism manager m calls
  have hlength := length_visits_le manager calls (ofConfig config parallelism m)
  obtain ⟨records, hkeeps, -⟩ := hapart.exists_records
  obtain ⟨hcapacity, hidle⟩ := hkeeps.idle_le
  obtain ⟨hreach, hexceed⟩ := config.mul_shardCapacity (ShardedPool.shardsOf config parallelism)
  refine ⟨_, _, rfl, ?_, hcapacity ▸ hreach, hcapacity ▸ hexceed, ?_, ?_⟩
  · exact {
      servedApart := hapart
      actsAlone := fun _ _ call hheld => actsAlone manager _ call hheld
      actsNowhere := fun _ => attempt_of_visit?_none manager
      sums := ShardedPool.sums _
      capacity := hcapacity
      idle_le := hidle }
  · intro hfits
    exact hapart.exists_stats (Nat.lt_of_le_of_lt hlength hfits)
  · intro hanswers
    exact hapart.addsUp (answered_visits manager hanswers) hlength

/-- The second shard is handed the probe that the first one builds. -/
def movingProbe : List (ClientCall Probe) :=
  [.bind, .bind, .through 0 .acquire, .through 1 (.release { id := 0 })]

/-- A shard balances that parks a probe which another shard built. -/
theorem run_isolates_shards_movingProbe :
    let config : ShardingConfig :=
      { capacity := ⟨3, by decide, by decide⟩, shards := some ⟨2, by decide, by decide⟩ }
    ∃ answers s, run ProbeBench.judging movingProbe (ofConfig config none {}) = (answers, s) ∧
      (∀ answer ∈ answers, ∃ a, answer = .ok a) ∧ s.pool.capacity < 5 ∧
      (∃ total, s.pool.stats = .ok total) ∧ ∀ k, (s.pool.shard k).AddsUp 4 := by
  intro config
  obtain ⟨answers, s, hrun, -, -, hexceed, hstats, haddsUp⟩ :=
    run_isolates_shards config none ProbeBench.judging {} movingProbe
  have hall : (run ProbeBench.judging movingProbe (ofConfig config none {})).1.all Except.isOk =
      true := by
    decide +kernel +zetaReduce
  rw [hrun] at hall
  have hanswers : ∀ answer ∈ answers, ∃ a, answer = .ok a := by
    intro answer hanswer
    have hok := List.all_eq_true.mp hall answer hanswer
    cases answer with
    | ok a => exact ⟨a, rfl⟩
    | error fault => cases hok
  exact ⟨answers, s, hrun, hanswers, hexceed, hstats (by decide), haddsUp hanswers⟩

end ShardClients

end CachePool
