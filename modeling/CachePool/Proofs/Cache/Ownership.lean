import CachePool.Proofs.Cache.History

/-!
# Every value is accounted for

Each value that a client passes in carries a token. A token that was passed in is
stored, or it was handed back to the client, or the cache freed it; and it is in as many
of these places, taken together, as it was passed in times. A call moves tokens from one
place to another: a put brings one in and hands back or frees what it displaces, an
update exchanges the token of its value or keeps it, a removal hands one back, and what
was stored at the end is freed then.
-/

namespace CachePool

/-- The values in an answer. -/
def Answer.values {α : Type} : Answer α → List α
  | .value v => v.toList
  | _ => []

namespace Operation

variable {κ α τ : Type} [DecidableEq τ]

/-- The tokens that a call passes in. An update passes one in if it replaces the one that was there. -/
def passesIn (token : α → τ) (answer : Answer α) : Operation κ α → List τ
  | .put _ value => [token value]
  | .set _ (some value) => [token value]
  | .update _ f =>
    (answer.values.filter fun before => token (f before) ≠ token before).map (token ∘ f)
  | _ => []

/-- The tokens that a call hands back. An update hands one back if it replaces it. -/
def handsBack (token : α → τ) (answer : Answer α) : Operation κ α → List τ
  | .put _ _ => answer.values.map token
  | .set _ _ => answer.values.map token
  | .remove _ => answer.values.map token
  | .update _ f => (answer.values.filter fun before => token (f before) ≠ token before).map token
  | _ => []

/-- The call may free values: it clears, it gives a new key a value, or it finds a value gone. -/
def frees (lookup : κ → Option α) : Operation κ α → Prop
  | .put key _ => lookup key = none
  | .set key (some _) => lookup key = none
  | .getLive key alive => (lookup key).any fun value => !alive value
  | .clear => True
  | _ => False

end Operation

namespace CacheModel

variable {κ α τ : Type} [DecidableEq κ] [DecidableEq τ] {m : CacheModel κ α} {key : κ} {v : α}

/-- The tokens of the values of a model. -/
def tokens (token : α → τ) (m : CacheModel κ α) : List τ := m.pairs.map fun pair => token pair.2

omit [DecidableEq κ] [DecidableEq τ] in
/-- What is freed at the end carries the tokens of the model. -/
theorem tokens_ending (token : α → τ) (m : CacheModel κ α) :
    (m.ending.map token).Perm (m.tokens token) := by
  rw [ending, tokens, pairs, List.map_map, List.map_map]
  exact ((List.reverse_perm _).append (List.reverse_perm _)).map _

omit [DecidableEq τ] in
/-- A hit, or a miss, keeps the tokens. -/
theorem tokens_hit (token : α → τ) (h : m.Sound) (key : κ) :
    ((m.hit key).2.tokens token).Perm (m.tokens token) := (pairs_hit h key).map _

omit [DecidableEq τ] in
/-- A write exchanges the token of its value. -/
theorem tokens_write (token : α → τ) (h : m.Sound) (hv : m.value? key = some v) (f : α → α) :
    (token (f v) :: m.tokens token).Perm ((m.write key f).tokens token ++ [token v]) :=
  ((pairs_write h hv f).map fun pair : κ × α => token pair.2).symm.trans
    (List.perm_append_singleton _ _).symm

omit [DecidableEq τ] in
/-- A key that is taken out takes its token along. -/
theorem tokens_erase (token : α → τ) (h : m.Sound) (hv : m.value? key = some v) :
    (m.tokens token).Perm ((m.erase key).tokens token ++ [token v]) :=
  ((pairs_erase h hv).map fun pair : κ × α => token pair.2).trans
    (List.perm_append_singleton _ _).symm

omit [DecidableEq κ] [DecidableEq τ] in
/-- A new key brings its token in, and the token of what it displaces is freed. -/
theorem tokens_insert (token : α → τ) (h : m.Sound) (key : κ) (value : α) :
    (token value :: m.tokens token).Perm ((m.insert key value).next.tokens token ++
      (m.insert key value).outcome.freed.map token) := by
  have hinsert := (pairs_insert h key value).map fun pair => token pair.2
  rw [insert_freed h, List.map_map]
  rw [List.map_append, List.map_map] at hinsert
  exact hinsert.symm.trans List.perm_append_comm

/-- The tokens that a call passes in and those that were stored are stored afterwards, handed back or
freed. -/
def Balanced (token : α → τ) (m : CacheModel κ α) (op : Operation κ α) (step : Step κ α) : Prop :=
  (op.passesIn token step.outcome.result ++ m.tokens token).Perm
    (step.next.tokens token ++ op.handsBack token step.outcome.result ++
      step.outcome.freed.map token)

/-- A put brings its token in; what it replaces is handed back, and what it displaces is freed. -/
theorem balanced_put (token : α → τ) (h : m.Sound) (key : κ) (value : α) :
    m.Balanced token (.put key value) (m.put key value) := by
  rw [Balanced]
  cases hv : m.value? key with
  | some before =>
    rw [put_known hv]
    exact (tokens_write token h hv fun _ => value).trans (.of_eq (List.append_nil _).symm)
  | none =>
    have hinsert := tokens_insert token h key value
    have hresult := m.put_result key value
    rw [put_new hv] at hresult ⊢
    rw [hresult, hv]
    simpa [Operation.passesIn, Operation.handsBack, Answer.values] using hinsert

/-- A removal hands the token of its key back. -/
theorem balanced_remove (token : α → τ) (h : m.Sound) (key : κ) :
    m.Balanced token (.remove key) (m.remove key) := by
  rw [Balanced]
  cases hv : m.value? key with
  | some before =>
    rw [remove_known hv]
    exact (tokens_erase token h hv).trans (.of_eq (List.append_nil _).symm)
  | none =>
    rw [remove_absent hv]
    simp [Operation.passesIn, Operation.handsBack, Answer.values]

/-- An update exchanges the token of its value, or keeps it. -/
theorem balanced_update (token : α → τ) (h : m.Sound) (key : κ) (f : α → α) :
    m.Balanced token (.update key f) (m.step (.update key f)) := by
  have hhit := tokens_hit token h key
  rw [Balanced, step_update]
  cases hv : m.value? key with
  | none =>
    have hout : (m.hit key).2.value? key = none := by rw [value?_hit h, hv]
    rw [write_absent (value?_eq_none_iff.mp hout)]
    simpa [Operation.passesIn, Operation.handsBack, Answer.values] using hhit.symm
  | some before =>
    have hwrite := tokens_write token (h.hit key) ((value?_hit h key key).trans hv) f
    by_cases hsame : token (f before) = token before
    · have hkept := hwrite.trans (List.perm_append_singleton _ _)
      rw [hsame, List.perm_cons] at hkept
      simpa [Operation.passesIn, Operation.handsBack, Answer.values, hsame] using
        hhit.symm.trans hkept
    · simpa [Operation.passesIn, Operation.handsBack, Answer.values, hsame] using
        (hhit.symm.cons _).trans hwrite

/-- A lookup that finds its value gone frees it, and any other moves no token. -/
theorem balanced_getLive (token : α → τ) (h : m.Sound) (key : κ) (alive : α → Bool) :
    m.Balanced token (.getLive key alive) (m.getLive key alive) := by
  rw [Balanced]
  rcases m.getLive_cases key alive with ⟨-, heq⟩ | ⟨value, -, -, heq⟩ | ⟨value, hv, -, heq⟩
  · rw [heq]
    simp [Operation.passesIn, Operation.handsBack]
  · rw [heq]
    simpa [Operation.passesIn, Operation.handsBack] using (tokens_hit token h key).symm
  · rw [heq]
    simpa [Operation.passesIn, Operation.handsBack] using tokens_erase token h hv

/-- Every call moves tokens, and neither loses one nor makes one. -/
theorem balanced_step (token : α → τ) (h : m.Sound) (op : Operation κ α) :
    m.Balanced token op (m.step op) := by
  have hquiet : ∀ tokens : List τ, tokens.Perm (tokens ++ [] ++ []) := fun tokens =>
    .of_eq (by rw [List.append_nil, List.append_nil])
  cases op with
  | get key => exact (tokens_hit token h key).symm.trans (hquiet _)
  | update key f => exact balanced_update token h key f
  | getLive key alive => exact balanced_getLive token h key alive
  | peek key => exact hquiet _
  | contains key => exact hquiet _
  | generationOf key => exact hquiet _
  | put key value => exact balanced_put token h key value
  | set key value =>
    cases value with
    | some value => exact balanced_put token h key value
    | none => exact balanced_remove token h key
  | remove key => exact balanced_remove token h key
  | clear => exact (m.tokens_ending token).symm

omit [DecidableEq τ] in
/-- A call that frees values is one of those that may. -/
theorem frees_of_freed {op : Operation κ α} (hfreed : (m.step op).outcome.freed ≠ []) :
    op.frees m.value? := by
  have hput : ∀ key value, (m.put key value).outcome.freed ≠ [] → m.value? key = none := by
    intro key value hfreed
    cases hv : m.value? key with
    | some before =>
      rw [put_known hv] at hfreed
      exact (hfreed rfl).elim
    | none => rfl
  have hremove : ∀ key, (m.remove key).outcome.freed = [] := by
    intro key
    cases hv : m.value? key with
    | some before => rw [remove_known hv]
    | none => rw [remove_absent hv]
  cases op with
  | get key => exact hfreed rfl
  | update key f => exact hfreed rfl
  | getLive key alive =>
    rw [step] at hfreed
    rcases m.getLive_cases key alive with ⟨-, heq⟩ | ⟨value, -, -, heq⟩ | ⟨value, hv, hgone, -⟩
    · rw [heq] at hfreed
      exact (hfreed rfl).elim
    · rw [heq] at hfreed
      exact (hfreed rfl).elim
    · rw [Operation.frees, hv, Option.any_some, hgone, Bool.not_false]
  | peek key => exact hfreed rfl
  | contains key => exact hfreed rfl
  | generationOf key => exact hfreed rfl
  | put key value => exact hput key value hfreed
  | set key value =>
    cases value with
    | some value => exact hput key value hfreed
    | none => exact hfreed (hremove key)
  | remove key => exact hfreed (hremove key)
  | clear => trivial

end CacheModel

namespace Cache

variable {κ α τ : Type} {c : Cache κ α} {m : CacheModel κ α}

/-- The tokens of the cached values, the young ones first. -/
def stored (token : α → τ) (c : Cache κ α) : List τ :=
  (c.contents .young ++ c.contents .old).map fun e => token e.value

/-- The cached values, young before old, the least recently used first. -/
def ending (c : Cache κ α) : List α :=
  ((c.contents .young).reverse ++ (c.contents .old).reverse).map (·.value)

theorem Shows.stored_eq (h : c.Shows m) (token : α → τ) : c.stored token = m.tokens token := by
  rw [stored, CacheModel.tokens, CacheModel.pairs, ← h.young_eq, ← h.old_eq, ← List.map_append,
    List.map_map, List.map_map]
  rfl

theorem Shows.ending_eq (h : c.Shows m) : c.ending = m.ending := by
  rw [ending, CacheModel.ending, ← h.young_eq, ← h.old_eq, ← List.map_reverse, ← List.map_reverse,
    ← List.map_append, List.map_map]
  rfl

variable [DecidableEq κ]

/-- What the calls of a history that answered contribute, in order. -/
def ledger (contribution : Operation κ α → Outcome (Answer α) α → List τ) (c : Cache κ α)
    (past : List (Operation κ α)) : List τ :=
  (c.transcript past).flatMap fun (op, outcome) =>
    match outcome with
    | .ok o => contribution op o
    | .error _ => []

/-- The tokens that were freed by the calls of a history. -/
def freed (token : α → τ) : Cache κ α → List (Operation κ α) → List τ :=
  ledger fun _ o => o.freed.map token

/-- One more call that answers adds its contribution. -/
theorem ledger_concat (contribution : Operation κ α → Outcome (Answer α) α → List τ)
    (c : Cache κ α) {past : List (Operation κ α)} {op : Operation κ α}
    {o : Outcome (Answer α) α} (ho : ((c.run past).2.step op).1 = .ok o) :
    ledger contribution c (past ++ [op]) = ledger contribution c past ++ contribution op o := by
  rw [ledger, transcript_concat, List.flatMap_append, ho]
  exact congrArg _ (List.flatMap_singleton _ _)

variable [DecidableEq τ]

/-- The tokens that were passed in by the calls of a history. -/
def passedIn (token : α → τ) : Cache κ α → List (Operation κ α) → List τ :=
  ledger fun op o => op.passesIn token o.result

/-- The tokens that were handed back by the calls of a history. -/
def handedBack (token : α → τ) : Cache κ α → List (Operation κ α) → List τ :=
  ledger fun op o => op.handsBack token o.result

/-- Every token that was passed in is accounted for. -/
structure Accounted (token : α → τ) (start : Cache κ α) (past : List (Operation κ α)) : Prop where
  /-- What was passed in is stored, was handed back, or was freed. -/
  balanced : (start.passedIn token past).Perm ((start.run past).2.stored token ++
    start.handedBack token past ++ start.freed token past)
  /-- Where no token was passed in twice, each of them is in one of the three places, and once. -/
  disjoint : (start.passedIn token past).Nodup → ((start.run past).2.stored token ++
    start.handedBack token past ++ start.freed token past).Nodup
  /-- The next call frees values only if it evicts, clears, or finds a value gone. -/
  freeing : ∀ op o, ((start.run past).2.step op).1 = .ok o → o.freed ≠ [] →
    op.frees (start.run past).2.peek
  /-- A clear answers, frees what is cached, and leaves nothing stored. -/
  cleared : ((start.run past).2.step .clear).1 =
      .ok { result := .done, freed := (start.run past).2.ending } ∧
    ((start.run past).2.step .clear).2.stored token = []
  /-- The end answers, frees what is cached, and leaves no entry; then all that was passed in was
  handed back or freed. -/
  dropped : ∃ last, freeContents (start.run past).2 = .ok (start.run past).2.ending last ∧
    (∀ n, last.entries.get n = none) ∧
    (start.passedIn token past).Perm (start.handedBack token past ++
      (start.freed token past ++ (start.run past).2.ending.map token))

/-- A cache that shows a model with the tokens that are left is accounted for. -/
theorem Shows.accounted {token : α → τ} {start : Cache κ α} {past : List (Operation κ α)}
    (h : (start.run past).2.Shows m) (hbalanced : (start.passedIn token past).Perm
      (m.tokens token ++ start.handedBack token past ++ start.freed token past)) :
    start.Accounted token past := by
  rw [← h.stored_eq token] at hbalanced
  refine ⟨hbalanced, fun hnodup => hbalanced.nodup_iff.mp hnodup, ?_, ?_, ?_⟩
  · intro op o ho hfreed
    obtain ⟨rfl, -, -⟩ := h.step ho
    rw [h.lookup_eq]
    exact CacheModel.frees_of_freed hfreed
  · have hclear := h.clear
    obtain ⟨-, hnext, -⟩ := h.step hclear
    rw [h.ending_eq, hnext.stored_eq]
    exact ⟨hclear, rfl⟩
  · obtain ⟨last, hrun, -, hempty⟩ := h.freeContents
    rw [← h.ending_eq] at hrun
    have hstored : ((start.run past).2.stored token).Perm
        ((start.run past).2.ending.map token) := by
      rw [h.stored_eq, h.ending_eq]
      exact (m.tokens_ending token).symm
    refine ⟨last, hrun, hempty, hbalanced.trans ?_⟩
    rw [List.append_assoc, ← List.append_assoc (start.handedBack token past)]
    exact (hstored.append_right _).trans List.perm_append_comm

/-- Throughout every history, each token that was passed in is stored, was handed back or was freed, as
many times as it was passed in. A clear and the end of the cache free what is stored, young before old
and the least recently used first, and nothing is left. -/
theorem run_accounted (token : α → τ) (config : CacheConfig) (hasher : Hasher κ)
    (ops : List (Operation κ α)) :
    Throughout config hasher ops ((ofConfig config hasher).Accounted token) := by
  refine throughout_of_answers (fun past hanswers => ?_) ops
  obtain ⟨m, hm, hbalanced⟩ := hanswers.induction
    (P := fun past m => ((ofConfig config hasher).passedIn token past).Perm
      (m.tokens token ++ (ofConfig config hasher).handedBack token past ++
        (ofConfig config hasher).freed token past)) (.refl _)
    fun past op o m hm ho hbalanced => by
      obtain ⟨rfl, -, -⟩ := hm.step ho
      have hstep := CacheModel.balanced_step token hm.sound op
      rw [passedIn, handedBack, freed, ledger_concat _ _ ho, ledger_concat _ _ ho,
        ledger_concat _ _ ho]
      refine List.perm_iff_count.mpr fun t => ?_
      have hbefore := hbalanced.count_eq t
      have hcall := hstep.count_eq t
      rw [passedIn, handedBack, freed] at hbefore
      simp only [List.count_append] at hbefore hcall ⊢
      omega
  exact hm.accounted hbalanced

end Cache

end CachePool
