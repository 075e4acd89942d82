import CachePool.Pool.Basic
import CachePool.Pool.Probe

/-!
# Sessions with a pool of probes

A session plays commands on a pool of probes and keeps the probes that were
handed out, by their numbers. Each command gets one line in the transcript: its
reply or the fault that stopped it, the number of parked probes and the counters
after it, and the events that the manager logged during it. The commands that do
not name a pool serve sharded pools as well.
-/

namespace CachePool.Session

open Text

/-- A command to the client or the manager of a pool. -/
inductive BenchCommand where
  /-- Build a probe behind the back of the pool. -/
  | build
  /-- Mark a probe in hand as unfit. -/
  | mark (id : Nat) (flaw : Flaw)
  /-- End a probe in hand. -/
  | lose (id : Nat)
  | refuse (refusing : Bool)
  | failIn (hook : Option Hook)

/-- What a command replies. -/
inductive PoolReply where
  | done
  /-- A probe that is now in hand. -/
  | probe (id uses : Nat)
  | notHeld
  | number (n : Nat)
  | stats (s : PoolCounts)
  | counters (s : Option PoolCounts)
  | text (s : String)

/-- A pool or sharded pool `π`, the state of its manager, and the probes in hand. -/
structure PoolWorld (π : Type) where
  pool : π
  bench : ProbeBench := {}
  held : List Probe := []

namespace PoolWorld

variable {π ρ : Type}

/-- Act on the pool and its manager. -/
def onPool (action : Action (π × ProbeBench) ρ) : Action (PoolWorld π) ρ :=
  action.within (fun w => (w.pool, w.bench)) fun w (pool, bench) => { w with pool, bench }

/-- Act on the manager. -/
def onBench (action : Action ProbeBench ρ) : Action (PoolWorld π) ρ :=
  action.within (·.bench) fun w bench => { w with bench }

/-- The probe in hand of a number. -/
def inHand (w : PoolWorld π) (id : Nat) : Option Probe := w.held.find? fun p => p.id = id

/-- Let go of a probe. -/
def letGo (w : PoolWorld π) (id : Nat) : PoolWorld π :=
  { w with held := w.held.filter fun p => p.id ≠ id }

/-- End a probe in hand, if there is one of that number. -/
def endHeld (id : Nat) : Action (PoolWorld π) Unit := modify fun w =>
  match w.inHand id with
  | none => w
  | some p => { w.letGo id with bench := w.bench.drop p }

/-- Take a probe into hand; it stands in for one of the same number, which is forgotten. -/
def hold (p : Probe) : Action (PoolWorld π) PoolReply := do
  modify fun w => { w with held := p :: (w.letGo p.id).held }
  return .probe p.id p.uses

/-- Do something with a probe in hand after letting go of it. -/
def withHeld (id : Nat) (action : Probe → Action (PoolWorld π) PoolReply) :
    Action (PoolWorld π) PoolReply := do
  match (← get).inHand id with
  | none => return .notHeld
  | some p =>
    modify (·.letGo id)
    action p

end PoolWorld

open PoolWorld

/-- The reply to a command to the client or the manager. -/
def BenchCommand.reply {π : Type} (manager : Manager ProbeBench Probe) :
    BenchCommand → Action (PoolWorld π) PoolReply
  | .build => do
    let p ← onBench manager.create
    hold p
  | .mark id flaw => withHeld id fun p => do
    modify fun w => { w with held := p.mark flaw :: w.held }
    return .done
  | .lose id => do
    endHeld id
    return .done
  | .refuse refusing => do
    onBench (modify fun b => { b with refusing })
    return .done
  | .failIn failing => do
    onBench (modify fun b => { b with failing })
    return .done

/-- A command of a session with a pool. -/
inductive PoolCommand where
  | bench (command : BenchCommand)
  | acquire
  | release (id : Nat)
  /-- Release a probe that the pool has not handed out. -/
  | releaseForeign (p : Probe)
  | capacity
  | stats
  | describe (form : Form)
  | describeFactory

/-- The reply to a command. -/
def PoolCommand.reply (manager : Manager ProbeBench Probe) :
    PoolCommand → Action (PoolWorld (Pool Probe)) PoolReply
  | .bench command => command.reply manager
  | .acquire => do
    let p ← onPool (Pool.acquire manager)
    hold p
  | .release id => withHeld id fun p => do
    onPool (Pool.release manager p)
    return .done
  | .releaseForeign p => do
    onPool (Pool.release manager p)
    return .done
  | .capacity => return .number (← get).pool.capacity.val
  | .stats => return .stats (← get).pool.stats
  | .describe form => return .text ((← get).pool.outline.write form)
  | .describeFactory =>
    return .text (Manager.factoryOutline.inline ++ " " ++ Manager.factoryOutline.indented)

/-- The transcript of one command. -/
structure PoolLine where
  reply : Except Fault PoolReply
  idle : Nat
  stats : Except Fault PoolCounts
  events : List ProbeEvent

/-- The transcript of a session. -/
structure PoolTranscript where
  lines : List PoolLine
  /-- The events when the pool ends. -/
  ending : List ProbeEvent

/-- Read the log of the manager. -/
def readLog {π : Type} (w : PoolWorld π) : List ProbeEvent × PoolWorld π :=
  let (events, bench) := w.bench.read
  (events, { w with bench })

/-- Attempt a command and write its line. -/
def playPoolCommand {π : Type} (idle : π → Nat) (stats : π → Except Fault PoolCounts)
    (reply : Action (PoolWorld π) PoolReply) : StateM (PoolWorld π) PoolLine := fun w =>
  let (reply, w) := reply.attempt w
  let (events, w) := readLog w
  ({ reply, idle := idle w.pool, stats := stats w.pool, events }, w)

/-- The events when a pool ends, whose manager does not fail any more. -/
def poolEnding {π : Type} (drain : Action (π × ProbeBench) Unit) (w : PoolWorld π) :
    List ProbeEvent :=
  let bench := { w.bench with failing := none }
  let (_, _, bench) := drain.attempt (w.pool, bench)
  bench.read.1

/-- Play commands on a pool and end it. -/
def playPool (manager : Manager ProbeBench Probe) (pool : Pool Probe)
    (commands : List PoolCommand) : PoolTranscript :=
  let play (command : PoolCommand) :=
    playPoolCommand (fun p : Pool Probe => p.idle.toNat) (fun p => .ok p.stats)
      (command.reply manager)
  let (lines, last) := (commands.mapM play).run { pool }
  { lines, ending := poolEnding (Pool.drain manager) last }

end CachePool.Session
