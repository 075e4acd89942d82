import CachePool.Proofs.Pool.Isolation
import Mathlib.Algebra.Order.Floor.Div
import Mathlib.Data.Int.CardIntervalMod
import Mathlib.Data.List.FinRange
import Mathlib.Data.List.Induction

/-!
# Handles in turn

Handles are bound to the shards in turn, whatever else the clients do in between: to copy
a handle, to make a call through one and to look at the counters takes no turn. So the
shards are bound evenly, and any so many handles as there are shards are bound to each of
them once. A handle stays bound to its shard, which counts every call that is made
through the handle or one of its copies.
-/

namespace CachePool

variable {μ τ : Type} {shards : Size}

/-- The shard whose turn comes after so many others. -/
def turn (shards : Size) (n : Nat) : Handle shards := ⟨n % shards.val, Nat.mod_lt _ shards.pos⟩

/-- The shards of the first turns, in order. -/
def turns (shards : Size) (n : Nat) : List (Handle shards) := (List.range n).map (turn shards)

@[simp] theorem length_turns (shards : Size) (n : Nat) : (turns shards n).length = n := by
  simp [turns]

theorem turns_succ (shards : Size) (n : Nat) :
    turns shards (n + 1) = turns shards n ++ [turn shards n] := by
  simp [turns, List.range_succ]

/-- A shard has had one turn in each full round, and one more if it came in the round under way. -/
theorem count_turns (i : Handle shards) (n : Nat) :
    (turns shards n).count i = n / shards.val + if i.val < n % shards.val then 1 else 0 := by
  have hcount : (turns shards n).count i = n.count (· ≡ i.val [MOD shards.val]) := by
    induction n with
    | zero => rfl
    | succ n ih =>
      rw [turns_succ, List.count_append, ih, Nat.count_succ, List.count_singleton]
      have hiff : (turn shards n == i) = true ↔ n ≡ i.val [MOD shards.val] := by
        rw [beq_iff_eq, Nat.ModEq, Nat.mod_eq_of_lt i.isLt, Fin.ext_iff]
        rfl
      simp only [hiff]
  rw [hcount, Nat.count_modEq_card n shards.pos, Nat.mod_eq_of_lt i.isLt]

/-- The turns of a shard are those from its first one on, divided by the number of shards. -/
theorem count_turns_eq_ceilDiv (i : Handle shards) (n : Nat) :
    (turns shards n).count i = (n - i.val) ⌈/⌉ shards.val := by
  have hi := i.isLt
  have hrest := Nat.mod_lt n shards.pos
  have hn := Nat.div_add_mod' n shards.val
  rw [count_turns, Nat.ceilDiv_eq_add_pred_div]
  generalize n / shards.val = rounds at hn
  symm
  split
  · apply Nat.div_eq_of_lt_le <;> simp only [Nat.add_mul, Nat.one_mul] <;> omega
  · rcases Nat.eq_zero_or_pos rounds with rfl | hrounds
    · exact Nat.div_eq_of_lt (by omega)
    · have hround := Nat.le_mul_of_pos_left shards.val hrounds
      apply Nat.div_eq_of_lt_le <;> simp only [Nat.add_mul, Nat.one_mul, Nat.add_zero] <;> omega

/-- The turns of two shards differ by one at most. -/
theorem count_turns_le (i k : Handle shards) (n : Nat) :
    (turns shards n).count i ≤ (turns shards n).count k + 1 := by
  rw [count_turns, count_turns]
  split <;> omega

/-- Among as many turns in a row as there are shards, each shard has one. -/
theorem perm_of_infix_turns {n : Nat} {window : List (Handle shards)}
    (h : window <:+: turns shards n) (hlength : window.length = shards.val) :
    window.Perm (List.finRange shards.val) := by
  obtain ⟨before, after, hturns⟩ := h
  have hwindow : window = (List.range' before.length shards.val).map (turn shards) := by
    apply List.ext_getElem
    · simp [hlength]
    · intro k hk hk'
      have hget : (turns shards n)[before.length + k]? = some window[k] := by
        rw [← hturns, List.append_assoc, List.getElem?_append_right (Nat.le_add_right _ _),
          Nat.add_sub_cancel_left, List.getElem?_append_left hk, List.getElem?_eq_getElem hk]
      obtain ⟨hin, hget⟩ := List.getElem?_eq_some_iff.mp hget
      rw [← hget]
      simp [turns]
  have hnodup : window.Nodup := by
    rw [hwindow]
    refine List.Nodup.map_on ?_ List.nodup_range'
    intro x hx y hy hxy
    rw [List.mem_range'_1, ← Finset.mem_Ico] at hx hy
    exact Nat.mod_injOn_Ico _ _ hx hy (Fin.ext_iff.mp hxy)
  have huniv : window.toFinset = Finset.univ := by
    apply Finset.eq_univ_of_card
    rw [List.toFinset_card_of_nodup hnodup, hlength, Fintype.card_fin]
  apply List.perm_of_nodup_nodup_toFinset_eq hnodup (List.nodup_finRange _)
  rw [huniv, List.toFinset_finRange]

/-- The call asks for a payload. -/
def PoolCall.isAcquire : PoolCall τ → Bool
  | .acquire => true
  | .release _ => false

/-- A call is tallied as one request. -/
theorem PoolRecord.tally_requests (r : PoolRecord τ) :
    r.tally.acquires = (if r.isAcquire then 1 else 0) ∧
      r.tally.releases = if r.isAcquire then 0 else 1 := by
  obtain ⟨call, answer, events⟩ := r
  cases call <;> simp [isAcquire]

namespace Pool

variable {capacity : Size} {p : Pool τ}

/-- A pool between two calls, whatever the calls so far were. -/
def Told (capacity : Size) (p : Pool τ) : Prop :=
  ∃ (q : Pool (Numbered τ)) (records : List (PoolRecord τ)),
    q.Tells capacity records ∧ p = q.map Numbered.payload

theorem told_ofCapacity (capacity : Size) : Told capacity (ofCapacity capacity : Pool τ) :=
  ⟨_, [], tells_ofCapacity capacity, (map_ofCapacity _ capacity).symm⟩

/-- A pool counts the calls that ask for a payload, and those that hand one back. -/
structure Counts (p p' : Pool τ) (asked returned : Nat) : Prop where
  acquires : p'.stats.acquires = p.stats.acquires + .ofNat asked
  releases : p'.stats.releases = p.stats.releases + .ofNat returned

theorem Counts.refl (p : Pool τ) : Counts p p 0 0 :=
  ⟨(UInt64.add_zero _).symm, (UInt64.add_zero _).symm⟩

theorem Counts.trans {p' p'' : Pool τ} {asked returned asked' returned' : Nat}
    (h : Counts p p' asked returned) (h' : Counts p' p'' asked' returned') :
    Counts p p'' (asked + asked') (returned + returned') where
  acquires := by rw [h'.acquires, h.acquires, UInt64.ofNat_add, UInt64.add_assoc]
  releases := by rw [h'.releases, h.releases, UInt64.ofNat_add, UInt64.add_assoc]

/-- A call is counted as the one request that it is, whatever it comes to. -/
theorem Told.perform (h : p.Told capacity) (manager : Manager μ τ) (call : PoolCall τ) (m : μ) :
    let after := ((Pool.perform manager call).attempt (p, m)).2.1
    after.Told capacity ∧
      Counts p after (if call.isAcquire then 1 else 0) (if call.isAcquire then 0 else 1) := by
  intro after
  obtain ⟨q, records, h, rfl⟩ := h
  have hplain : (Pool.perform manager call).attempt (q.map Numbered.payload, m) = _ :=
    attempt_plain manager call (q, { manager := m })
  obtain ⟨htells, -⟩ := h.record manager call { manager := m }
  have hrequest : (record manager call (q, { manager := m })).1.isAcquire = call.isAcquire := by
    cases call <;> rfl
  generalize record manager call (q, { manager := m }) = recorded at hplain htells hrequest
  obtain ⟨r, q', c'⟩ := recorded
  have hafter : after = q'.map Numbered.payload := congrArg (fun outcome => outcome.2.1) hplain
  have hstats : after.stats = q.stats.plus r.tally := by
    rw [hafter]
    change q'.stats = _
    rw [htells.stats, h.stats, PoolRecord.total_concat, PoolCounts.plus_plus]
  obtain ⟨hacquires, hreleases⟩ := r.tally_requests
  rw [hrequest] at hacquires hreleases
  refine ⟨⟨q', _, htells, hafter⟩, ?_, ?_⟩
  · rw [hstats, PoolCounts.plus, hacquires]
    rfl
  · rw [hstats, PoolCounts.plus, hreleases]
    rfl

end Pool

/-- A look at the counters. -/
inductive StatsQuery where
  /-- The counters of all shards together. -/
  | total
  /-- The counters of a shard. -/
  | ofShard (shard : Nat)
  /-- The counters of the shard of a handle. -/
  | through (position : Nat)

/-- A call of a client, or a look at the counters. -/
inductive ClientRequest (τ : Type) where
  | call (call : ClientCall τ)
  | stats (query : StatsQuery)

/-- What a client is answered. -/
inductive ClientReply (τ : Type) (shards : Size) where
  | answer (answer : ClientAnswer τ shards)
  | stats (counts : Option PoolCounts)

/-- The request makes a handle. -/
def ClientRequest.isBind : ClientRequest τ → Bool
  | .call .bind => true
  | _ => false

/-- A call that is made through the handle at a position, and the shard of the handle. -/
structure HandleCall (τ : Type) (shards : Size) where
  position : Nat
  shard : Handle shards
  call : PoolCall τ

namespace HandleCall

/-- The call asks the shard for a payload. -/
def asks (k : Handle shards) (c : HandleCall τ shards) : Bool := c.shard = k ∧ c.call.isAcquire

/-- The call hands a payload back to the shard. -/
def returns (k : Handle shards) (c : HandleCall τ shards) : Bool := c.shard = k ∧ !c.call.isAcquire

end HandleCall

namespace ShardClients

variable {s : ShardClients μ τ shards} {share : Size} {manager : Manager μ τ}
  {request : ClientRequest τ} {requests : List (ClientRequest τ)}

/-- Answer a look at the counters. -/
def tell (s : ShardClients μ τ shards) : StatsQuery → Except Fault (Option PoolCounts)
  | .total => s.pool.stats.map some
  | .ofShard shard => .ok (s.pool.shardStats shard)
  | .through position => .ok (s.handles[position]?.map fun h => (s.pool.shard h).stats)

/-- Meet a request. -/
def meet (manager : Manager μ τ) :
    ClientRequest τ → Action (ShardClients μ τ shards) (ClientReply τ shards)
  | .call call => do return .answer (← perform manager call)
  | .stats query => fun s =>
    match s.tell query with
    | .ok counts => .ok (.stats counts) s
    | .error fault => .error fault s

/-- The shard that a handle is bound to, if the request makes one. -/
def bound? (manager : Manager μ τ) (request : ClientRequest τ) (s : ShardClients μ τ shards) :
    Option (Handle shards) :=
  match request, ((meet manager request).attempt s).1 with
  | .call .bind, .ok (.answer (.bound h)) => some h
  | _, _ => none

/-- The call that is made through a handle, if the request makes one and there is the handle. -/
def handleCall? (request : ClientRequest τ) (s : ShardClients μ τ shards) :
    Option (HandleCall τ shards) :=
  match request with
  | .call (.through position call) =>
    s.handles[position]?.map fun shard => { position, shard, call }
  | _ => none

/-- The clients and the pool after requests. -/
def after (manager : Manager μ τ) (requests : List (ClientRequest τ))
    (s : ShardClients μ τ shards) : ShardClients μ τ shards :=
  (Action.attemptAll (meet manager) requests s).2

/-- The shards that new handles are bound to, in order. -/
def boundBy (manager : Manager μ τ) (requests : List (ClientRequest τ))
    (s : ShardClients μ τ shards) : List (Handle shards) :=
  Action.noteAll (meet manager) (bound? manager) requests s

/-- The calls that are made through handles, in order. -/
def handleCalls (manager : Manager μ τ) (requests : List (ClientRequest τ))
    (s : ShardClients μ τ shards) : List (HandleCall τ shards) :=
  Action.noteAll (meet manager) handleCall? requests s

theorem attempt_call (manager : Manager μ τ) (call : ClientCall τ) (s : ShardClients μ τ shards) :
    (meet manager (.call call)).attempt s =
      (((perform manager call).attempt s).1.map .answer, ((perform manager call).attempt s).2) :=
  Action.attempt_bind_pure _ _ _

/-- To look at the counters changes nothing. -/
theorem attempt_stats (manager : Manager μ τ) (query : StatsQuery) (s : ShardClients μ τ shards) :
    ((meet manager (.stats query)).attempt s).2 = s := by
  simp only [Action.attempt, meet]
  cases s.tell query <;> rfl

/-- A new handle is bound to the shard whose turn it is. -/
theorem bound?_bind (h : request.isBind = true) (s : ShardClients μ τ shards) :
    bound? manager request s = some (turn shards s.pool.bound.toNat) := by
  unfold ClientRequest.isBind at h
  split at h
  · simp only [bound?, attempt_call, attempt_bind]
    rfl
  · cases h

/-- No other request binds a new handle. -/
theorem bound?_eq_none (h : request.isBind = false) (s : ShardClients μ τ shards) :
    bound? manager request s = none := by
  unfold bound?
  split
  · cases h
  · rfl

/-- A call through a handle names the handle and its shard. -/
theorem handleCall?_eq_some_iff {c : HandleCall τ shards} :
    handleCall? request s = some c ↔
      request = .call (.through c.position c.call) ∧ s.handles[c.position]? = some c.shard := by
  constructor
  · intro h
    unfold handleCall? at h
    split at h
    · obtain ⟨shard, hheld, rfl⟩ := Option.map_eq_some_iff.mp h
      exact ⟨rfl, hheld⟩
    · cases h
  · rintro ⟨rfl, hheld⟩
    rw [handleCall?, hheld]
    rfl

/-- The handles that a request makes: one whose turn it is, or a copy. -/
def made (request : ClientRequest τ) (s : ShardClients μ τ shards) : List (Handle shards) :=
  match request with
  | .call .bind => [turn shards s.pool.bound.toNat]
  | .call (.copy position) => s.handles[position]?.toList
  | _ => []

/-- The handles are those of before and the new ones, only to make a handle takes a turn, and a
shard to which no call is made is left as it was. -/
structure KeepsBinding (request : ClientRequest τ) (s s' : ShardClients μ τ shards) : Prop where
  handles : s'.handles = s.handles ++ made request s
  bound : s'.pool.bound = if request.isBind then s.pool.bound + 1 else s.pool.bound
  elsewhere : ∀ k, (∀ c, handleCall? request s = some c → c.shard ≠ k) →
    s'.pool.shard k = s.pool.shard k

/-- A request that changes nothing and makes no handle keeps everything in place. -/
theorem KeepsBinding.refl (hbind : request.isBind = false) (hmade : made request s = []) :
    KeepsBinding request s s where
  handles := by rw [hmade, List.append_nil]
  bound := by rw [if_neg (Bool.eq_false_iff.mp hbind)]
  elsewhere := fun _ _ => rfl

/-- Every request keeps the handles bound as they are. -/
theorem keepsBinding (manager : Manager μ τ) (request : ClientRequest τ)
    (s : ShardClients μ τ shards) :
    KeepsBinding request s ((meet manager request).attempt s).2 := by
  cases request with
  | stats query =>
    rw [attempt_stats]
    exact .refl rfl rfl
  | call call =>
    rw [attempt_call]
    cases call with
    | bind => exact ⟨rfl, rfl, fun _ _ => rfl⟩
    | copy position =>
      cases hheld : s.handles[position]? with
      | none =>
        rw [perform, attempt_withHandle_none s hheld]
        exact .refl rfl (by rw [made, hheld]; rfl)
      | some h =>
        rw [attempt_copy manager s hheld]
        exact ⟨by rw [made, hheld]; rfl, rfl, fun _ _ => rfl⟩
    | through position call =>
      cases hheld : s.handles[position]? with
      | none =>
        rw [attempt_through_none manager s call hheld]
        exact .refl rfl rfl
      | some h =>
        obtain ⟨-, hothers, hhandles, hbound⟩ := actsAlone manager s call hheld
        refine ⟨hhandles.trans (List.append_nil _).symm, hbound, fun k hk => hothers k ?_⟩
        exact (hk ⟨position, h, call⟩ (handleCall?_eq_some_iff.mpr ⟨rfl, hheld⟩)).symm

/-- Every shard counts the calls that a request makes to it. -/
theorem counts_attempt (h : ∀ k, (s.pool.shard k).Told share) (manager : Manager μ τ)
    (request : ClientRequest τ) (k : Handle shards) :
    (((meet manager request).attempt s).2.pool.shard k).Told share ∧
      Pool.Counts (s.pool.shard k) (((meet manager request).attempt s).2.pool.shard k)
        ((handleCall? request s).toList.countP (HandleCall.asks k))
        ((handleCall? request s).toList.countP (HandleCall.returns k)) := by
  have helsewhere := (keepsBinding manager request s).elsewhere k
  cases hcall : handleCall? request s with
  | none =>
    rw [helsewhere (by simp [hcall])]
    exact ⟨h k, .refl _⟩
  | some c =>
    by_cases hk : c.shard = k
    · subst hk
      obtain ⟨rfl, hheld⟩ := handleCall?_eq_some_iff.mp hcall
      obtain ⟨⟨answer, -, halone⟩, -⟩ := actsAlone manager s c.call hheld
      have hserved := (h c.shard).perform manager c.call s.manager
      rw [halone] at hserved
      rw [attempt_call]
      have hasked : [c].countP (HandleCall.asks c.shard) =
          if c.call.isAcquire then 1 else 0 := by
        simp [HandleCall.asks]
      have hreturned : [c].countP (HandleCall.returns c.shard) =
          if c.call.isAcquire then 0 else 1 := by
        cases hacquire : c.call.isAcquire <;> simp [HandleCall.returns, hacquire]
      rw [Option.toList_some, hasked, hreturned]
      exact hserved
    · rw [helsewhere (by simpa [hcall] using hk)]
      refine ⟨h k, ?_⟩
      simpa [HandleCall.asks, HandleCall.returns, hk] using Pool.Counts.refl _

theorem after_concat (manager : Manager μ τ) (requests : List (ClientRequest τ))
    (request : ClientRequest τ) (s : ShardClients μ τ shards) :
    after manager (requests ++ [request]) s =
      ((meet manager request).attempt (after manager requests s)).2 := by
  rw [after, Action.attemptAll_concat]
  rfl

/-- From the first turn on, handles are bound in turn as long as a word can count them. -/
theorem boundBy_eq_turns (hbound : s.pool.bound = 0) (manager : Manager μ τ)
    (hfits : requests.countP ClientRequest.isBind < UInt64.size) :
    boundBy manager requests s = turns shards (requests.countP ClientRequest.isBind) ∧
      (after manager requests s).pool.bound.toNat = requests.countP ClientRequest.isBind := by
  induction requests using List.reverseRecOn with
  | nil => exact ⟨rfl, congrArg UInt64.toNat hbound⟩
  | append_singleton requests request ih =>
    rw [List.countP_append, List.countP_singleton] at hfits ⊢
    obtain ⟨hturns, hcounter⟩ := ih (Nat.lt_of_le_of_lt (Nat.le_add_right _ _) hfits)
    have hkeeps := (keepsBinding manager request (after manager requests s)).bound
    rw [boundBy, Action.noteAll_concat, after_concat, hkeeps, ← boundBy, hturns]
    cases hbind : request.isBind with
    | false =>
      rw [bound?_eq_none hbind]
      exact ⟨List.append_nil _, hcounter⟩
    | true =>
      rw [hbind, if_pos rfl] at hfits
      rw [if_pos rfl, if_pos rfl, UInt64.toNat_add, hcounter, turns_succ, bound?_bind hbind]
      refine ⟨?_, Nat.mod_eq_of_lt hfits⟩
      rw [← after, hcounter]
      rfl

/-- A handle through which a call was made is bound to the shard of the call for good. -/
theorem handles_of_mem_handleCalls {c : HandleCall τ shards}
    (h : c ∈ handleCalls manager requests s) :
    (after manager requests s).handles[c.position]? = some c.shard := by
  induction requests using List.reverseRecOn with
  | nil => cases h
  | append_singleton requests request ih =>
    rw [handleCalls, Action.noteAll_concat, List.mem_append] at h
    have hheld : (after manager requests s).handles[c.position]? = some c.shard := by
      rcases h with h | h
      · exact ih h
      · exact (handleCall?_eq_some_iff.mp (Option.mem_toList.mp h)).2
    obtain ⟨hin, -⟩ := List.getElem?_eq_some_iff.mp hheld
    rw [after_concat, (keepsBinding manager request _).handles, List.getElem?_append_left hin,
      hheld]

/-- Every shard stays a pool between two calls. -/
theorem told_after (h : ∀ k, (s.pool.shard k).Told share) (manager : Manager μ τ)
    (requests : List (ClientRequest τ)) :
    ∀ k, ((after manager requests s).pool.shard k).Told share := by
  induction requests using List.reverseRecOn with
  | nil => exact h
  | append_singleton requests request ih =>
    intro k
    rw [after_concat]
    exact (counts_attempt ih manager request k).1

/-- Every shard counts the calls that are made to it. -/
theorem counts_after (h : ∀ k, (s.pool.shard k).Told share) (manager : Manager μ τ)
    (requests : List (ClientRequest τ)) (k : Handle shards) :
    Pool.Counts (s.pool.shard k) ((after manager requests s).pool.shard k)
      ((handleCalls manager requests s).countP (HandleCall.asks k))
      ((handleCalls manager requests s).countP (HandleCall.returns k)) := by
  induction requests using List.reverseRecOn with
  | nil => exact .refl _
  | append_singleton requests request ih =>
    obtain ⟨-, hstep⟩ := counts_attempt (told_after h manager requests) manager request k
    rw [after_concat, handleCalls, Action.noteAll_concat, ← handleCalls, List.countP_append,
      List.countP_append]
    exact ih.trans hstep

/-- A new sharded pool, for which no handles were made yet. -/
def ofShards (shards shardCapacity : Size) (m : μ) : ShardClients μ τ shards where
  pool := .ofShardCapacity shards shardCapacity
  manager := m

/-- After requests to a new sharded pool, its shards were bound in turn, so they were bound evenly,
and each handle is bound to the shard that counts the calls made through it. -/
structure BindsInTurn (manager : Manager μ τ) (requests : List (ClientRequest τ))
    (start : ShardClients μ τ shards) : Prop where
  /-- Every new handle is bound to a shard. -/
  length : (boundBy manager requests start).length = requests.countP ClientRequest.isBind
  /-- A shard is bound once in each round from its first turn on, the one under way included. -/
  count : ∀ i : Handle shards, (boundBy manager requests start).count i =
    (requests.countP ClientRequest.isBind - i.val) ⌈/⌉ shards.val
  even : ∀ i k : Handle shards,
    (boundBy manager requests start).count i ≤ (boundBy manager requests start).count k + 1
  /-- As many new handles in a row as there are shards are bound to each of these once. -/
  window : ∀ window, window <:+: boundBy manager requests start → window.length = shards.val →
    window.Perm (List.finRange shards.val)
  bound : (after manager requests start).pool.bound.toNat = requests.countP ClientRequest.isBind
  /-- From here on, no other request takes a turn, and none changes a handle that there is. -/
  keeps : ∀ request, KeepsBinding request (after manager requests start)
    ((meet manager request).attempt (after manager requests start)).2
  /-- The shard of a call is the one that its handle is bound to. -/
  handles : ∀ c ∈ handleCalls manager requests start,
    (after manager requests start).handles[c.position]? = some c.shard
  /-- The counters that are shown for a handle are those of its shard. -/
  told : ∀ position h, (after manager requests start).handles[position]? = some h →
    (after manager requests start).tell (.through position) =
        .ok (some ((after manager requests start).pool.shard h).stats) ∧
      (after manager requests start).tell (.ofShard h.val) =
        .ok (some ((after manager requests start).pool.shard h).stats)
  acquires : ∀ k, ((after manager requests start).pool.shard k).stats.acquires =
    .ofNat ((handleCalls manager requests start).countP (HandleCall.asks k))
  releases : ∀ k, ((after manager requests start).pool.shard k).stats.releases =
    .ofNat ((handleCalls manager requests start).countP (HandleCall.returns k))

/-- Over any number of shards, whatever clients do in between, handles are bound in turn as long as
a word can count them, and every shard counts the calls made through its handles. -/
theorem run_binds_in_turn (shards shardCapacity : Size) (manager : Manager μ τ) (m : μ)
    (requests : List (ClientRequest τ))
    (hfits : requests.countP ClientRequest.isBind < UInt64.size) :
    BindsInTurn manager requests (ofShards shards shardCapacity m) := by
  obtain ⟨hturns, hcounter⟩ :=
    boundBy_eq_turns (s := ofShards shards shardCapacity m) rfl manager hfits
  have hnew : ∀ k, (ofShards (τ := τ) shards shardCapacity m).pool.shard k =
      .ofCapacity shardCapacity := fun k => Vector.getElem_replicate k.isLt
  have hcounts := counts_after (s := ofShards shards shardCapacity m)
    (fun k => (hnew k).symm ▸ Pool.told_ofCapacity shardCapacity) manager requests
  constructor
  case length => rw [hturns, length_turns]
  case count => exact fun i => hturns ▸ count_turns_eq_ceilDiv i _
  case even => exact fun i k => hturns ▸ count_turns_le i k _
  case window => exact fun window hinfix hlength => perm_of_infix_turns (hturns ▸ hinfix) hlength
  case bound => exact hcounter
  case keeps => exact fun request => keepsBinding manager request _
  case handles => exact fun c => handles_of_mem_handleCalls
  case told =>
    intro position h hheld
    constructor
    · rw [tell, hheld]
      rfl
    · rw [tell, (ShardedPool.sums _).shardStats h]
  case acquires =>
    intro k
    rw [(hcounts k).acquires, hnew k]
    exact UInt64.zero_add _
  case releases =>
    intro k
    rw [(hcounts k).releases, hnew k]
    exact UInt64.zero_add _

/-- Seven handles over three shards, among which a handle is copied, payloads change hands and the
counters are looked at. -/
def busyProbes : List (ClientRequest Probe) :=
  [.call .bind, .call .bind, .call (.copy 0), .call (.through 2 .acquire), .stats .total,
    .call .bind, .call (.through 1 (.release { id := 9 })), .call .bind, .stats (.through 1),
    .call .bind, .call (.copy 7), .call .bind, .stats (.ofShard 2), .call (.through 9 .acquire),
    .call .bind, .call (.through 4 .acquire)]

/-- What is asked for through a copy and through a later handle is counted in the first shard. -/
theorem run_binds_in_turn_busyProbes :
    let start : ShardClients ProbeBench Probe ⟨3, by decide, by decide⟩ :=
      ofShards _ ⟨2, by decide, by decide⟩ {}
    boundBy ProbeBench.judging busyProbes start = [(0 : Fin 3), 1, 2, 0, 1, 2, 0] ∧
      ((after ProbeBench.judging busyProbes start).pool.shard (0 : Fin 3)).stats.acquires = 2 ∧
      BindsInTurn ProbeBench.judging busyProbes start := by
  intro start
  have hturn : BindsInTurn ProbeBench.judging busyProbes start :=
    run_binds_in_turn _ _ _ _ _ (by decide)
  have hasked : (handleCalls ProbeBench.judging busyProbes start).countP
      (HandleCall.asks (0 : Fin 3)) = 2 := by
    decide +kernel
  refine ⟨by decide +kernel, ?_, hturn⟩
  rw [hturn.acquires, hasked]
  rfl

end ShardClients

end CachePool
