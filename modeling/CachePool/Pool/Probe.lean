import CachePool.Pool.Manager

/-!
# Probes

A probe is a payload that knows its number, how often it was readied, and whether
it is fit for use. The managers of probes keep a log of every call made to them
and of every probe that ends, and can be told to refuse probes or to fail in a
chosen hook.
-/

namespace CachePool

/-- The marks that make a probe unfit. -/
inductive Flaw where
  /-- The probe is not to be handed out again. -/
  | stale
  /-- The probe cannot be readied. -/
  | broken
  deriving DecidableEq

/-- A numbered payload. -/
structure Probe where
  id : Nat
  /-- How often the probe was readied. -/
  uses : Nat := 0
  stale : Bool := false
  broken : Bool := false

/-- Mark a probe as unfit. -/
def Probe.mark (p : Probe) : Flaw → Probe
  | .stale => { p with stale := true }
  | .broken => { p with broken := true }

/-- What a manager of probes writes into its log. -/
inductive ProbeEvent where
  | created (id : Nat)
  | judged (id : Nat) (reusable : Bool)
  | prepared (id : Nat) (ready : Bool)
  | destroyed (id : Nat)
  | dropped (id : Nat)
  | failed (hook : Hook)

/-- The state of a manager of probes. -/
structure ProbeBench where
  /-- The number of the next probe. -/
  nextId : Nat := 0
  /-- No probe can be readied. -/
  refusing : Bool := false
  /-- The hook that fails. -/
  failing : Option Hook := none
  /-- The events not read yet, the latest first. -/
  log : List ProbeEvent := []

namespace ProbeBench

/-- Write an event into the log. -/
def note (event : ProbeEvent) (b : ProbeBench) : ProbeBench := { b with log := event :: b.log }

/-- The events not read yet, in order, and the state in which all are read. -/
def read (b : ProbeBench) : List ProbeEvent × ProbeBench := (b.log.reverse, { b with log := [] })

/-- Run a hook, unless it is the one that fails. -/
def guarded {ρ : Type} (hook : Hook) (body : Action ProbeBench ρ) : Action ProbeBench ρ := fun b =>
  if b.failing = some hook then .error (.hookFailed hook) (b.note (.failed hook)) else body b

/-- A probe ends. -/
def drop (p : Probe) : ProbeBench → ProbeBench := note (.dropped p.id)

/-- Build the next probe. -/
def create : Action ProbeBench Probe := guarded .create fun b =>
  .ok { id := b.nextId } { b.note (.created b.nextId) with nextId := b.nextId + 1 }

/-- Take a probe for reusable unless it is stale. -/
def canReuse (p : Probe) : Action ProbeBench Bool := guarded .canReuse fun b =>
  .ok (!p.stale) (b.note (.judged p.id !p.stale))

/-- Ready a probe, unless it is broken or probes are refused. -/
def prepare (p : Probe) : Action ProbeBench (Bool × Probe) := guarded .prepare fun b =>
  let ready := !b.refusing && !p.broken
  .ok (ready, { p with uses := p.uses + 1 }) (b.note (.prepared p.id ready))

/-- Dispose of a probe, which then ends. -/
def destroy (p : Probe) : Action ProbeBench Unit := guarded .destroy fun b =>
  .ok () (drop p (b.note (.destroyed p.id)))

/-- The manager that judges and readies probes. -/
def judging : Manager ProbeBench Probe := { create, drop, canReuse, prepare, destroy }

/-- The manager that only builds probes. -/
def building : Manager ProbeBench Probe := .ofFactory create drop

end ProbeBench

end CachePool
