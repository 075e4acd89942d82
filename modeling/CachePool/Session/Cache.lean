import CachePool.Cache.Operation

/-!
# Sessions with a cache

A session plays commands on a cache whose keys are texts. Each command gets one
line in the transcript: its reply or the fault that stopped it, the sizes of the
generations after it, the values that the cache freed during it, and where the
watched keys are.
-/

namespace CachePool.Session

open Text

/-- A command of a session with values `α`. -/
inductive CacheCommand (α : Type) where
  | get (key : String)
  | replace (key : String) (value : α)
  | peek (key : String)
  | contains (key : String)
  | generation (key : String)
  | put (key : String) (value : α)
  | set (key : String) (value : Option α)
  | remove (key : String)
  | clear
  | shape
  | length
  | metrics
  | rates
  | report
  | name
  | describe (form : Form)

/-- The command with its values replaced by a function of them. -/
def CacheCommand.map {α β : Type} (f : α → β) : CacheCommand α → CacheCommand β
  | .get key => .get key
  | .replace key value => .replace key (f value)
  | .peek key => .peek key
  | .contains key => .contains key
  | .generation key => .generation key
  | .put key value => .put key (f value)
  | .set key value => .set key (value.map f)
  | .remove key => .remove key
  | .clear => .clear
  | .shape => .shape
  | .length => .length
  | .metrics => .metrics
  | .rates => .rates
  | .report => .report
  | .name => .name
  | .describe form => .describe form

/-- The capacities of a cache and its promotion threshold. -/
structure CacheShape where
  capacity : Nat
  young : Nat
  old : Nat
  threshold : Nat

/-- The rates of a cache. -/
structure CacheRates where
  hit : Float
  miss : Float
  oldHit : Float
  oldUtilization : Float

/-- What a command replies. -/
inductive CacheReply (α : Type) where
  | answer (a : Answer α)
  | shape (s : CacheShape)
  | length (keys : Nat) (empty : Bool)
  | number (n : Nat)
  | metrics (m : CacheMetrics)
  | rates (r : CacheRates)
  | report (r : Report)
  | text (s : String)

/-- The shape of a cache. -/
def cacheShape {α : Type} (c : Cache String α) : CacheShape :=
  ⟨c.config.capacity.val, c.young.capacity.val, c.old.capacity.val,
    c.config.promotionThreshold.toNat⟩

/-- The rates of a cache. -/
def cacheRates (m : CacheMetrics) : Except Fault CacheRates := do
  let miss ← m.missRate
  return ⟨m.hitRate, miss, m.oldHitRatio, m.oldUtilization⟩

/-- Reply with something that is read off the state, or with a fault. -/
def query {σ α ρ : Type} (view : σ → Except Fault ρ) : Action σ (Outcome ρ α) := fun s =>
  match view s with
  | .ok result => .ok { result } s
  | .error fault => .error fault s

/-- Perform a call and reply with its answer. -/
def call {α : Type} (op : Operation String α) :
    Action (Cache String α) (Outcome (CacheReply α) α) :=
  Outcome.map .answer <$> Cache.perform op

/-- The reply to a command, with the values freed on the way. -/
def CacheCommand.reply {α : Type} :
    CacheCommand α → Action (Cache String α) (Outcome (CacheReply α) α)
  | .get key => call (.get key)
  | .replace key value => call (.update key fun _ => value)
  | .peek key => call (.peek key)
  | .contains key => call (.contains key)
  | .generation key => call (.generationOf key)
  | .put key value => call (.put key value)
  | .set key value => call (.set key value)
  | .remove key => call (.remove key)
  | .clear => call .clear
  | .shape => query fun c => .ok (.shape (cacheShape c))
  | .length => query fun c => .ok (.length c.length (c.length = 0))
  | .metrics => query fun c => .ok (.metrics c.metrics)
  | .rates => query fun c => .rates <$> cacheRates c.metrics
  | .report => query fun c => .report <$> c.metrics.report
  | .name => query fun _ => .ok (.text CacheMetrics.policyName)
  | .describe form => query fun c => .ok (.text (c.outline.write form))

/-- The transcript of one command. -/
structure CacheLine (α : Type) where
  reply : Except Fault (CacheReply α)
  young : Nat
  old : Nat
  freed : List α
  /-- One letter for each watched key, if any are watched. -/
  watched : Option String

/-- Where a key is, as a letter. -/
def whereabouts {α : Type} (c : Cache String α) (key : String) : Char :=
  match c.generationOf key with
  | some .young => 'Y'
  | some .old => 'O'
  | none => '-'

/-- The transcript of a command that was attempted with the given outcome. -/
def cacheLine {α : Type} (watch : Option (List String)) (c : Cache String α)
    (outcome : Except Fault (Outcome (CacheReply α) α)) : CacheLine α where
  reply := outcome.map (·.result)
  young := c.young.length
  old := c.old.length
  freed := match outcome with
    | .ok o => o.freed
    | .error _ => []
  watched := watch.map fun keys => String.ofList (keys.map (whereabouts c))

/-- Play a command. -/
def CacheCommand.play {α : Type} (watch : Option (List String)) (command : CacheCommand α) :
    StateM (Cache String α) (CacheLine α) := fun c =>
  let (outcome, c) := command.reply.attempt c
  (cacheLine watch c outcome, c)

/-- The transcript of a session. -/
structure CacheTranscript (α : Type) where
  shape : CacheShape
  lines : List (CacheLine α)
  /-- The values freed when the cache ends. -/
  ending : List α

/-- The values freed when a cache ends. -/
def cacheEnding {α : Type} (c : Cache String α) : List α :=
  match Cache.freeContents c with
  | .ok freed _ => freed
  | .error _ _ => []

/-- Play commands on a cache and end it. -/
def playCache {α : Type} (watch : Option (List String)) (c : Cache String α)
    (commands : List (CacheCommand α)) : CacheTranscript α :=
  let (lines, last) := (commands.mapM (CacheCommand.play watch)).run c
  { shape := cacheShape c, lines, ending := cacheEnding last }

end CachePool.Session
