import CachePool.Cache.Referent
import CachePool.Session.Cache

/-!
# Sessions with a cache of weak references

The values of the cache are weak references. Beside it stand named owners, which
keep the referents alive. A value is given to the cache by the name of an owner,
and shown as the value of its referent, or as dead.
-/

namespace CachePool.Session

/-- A command of a session with weak references. -/
inductive WeakCommand where
  /-- A command to the cache, with owners for values. -/
  | cache (command : CacheCommand String)
  /-- Look a key up, and let a name own what was found alive. -/
  | getLive (key : String) (keep : Option String)
  /-- Let a name own a new referent. -/
  | own (name : String) (value : Int64)
  /-- Take from a name what it owns. -/
  | release (name : String)
  /-- Count the references to what a name owns. -/
  | count (name : String)

/-- What a weak reference shows. -/
inductive Shown where
  | live (value : Int64)
  | dead

/-- What a command replies. -/
inductive WeakReply where
  | cache (reply : CacheReply Shown)
  | value (v : Option Int64)
  | owned (before : Bool)
  /-- The owners and the cached references of a referent. -/
  | counts (c : Option (Nat × Nat))

/-- The cache of a session and the owners beside it. -/
structure WeakWorld where
  cache : Cache String WeakRef
  referents : Referents Int64 := {}

/-- What a weak reference shows at present. -/
def showWeak (r : Referents Int64) (w : WeakRef) : Shown :=
  match r.upgrade w with
  | none => .dead
  | some v => .live v

/-- The reply with its values shown. -/
def showReply (r : Referents Int64) : CacheReply WeakRef → CacheReply Shown
  | .answer (.value v) => .answer (.value (v.map (showWeak r)))
  | .answer (.found b) => .answer (.found b)
  | .answer (.generation g) => .answer (.generation g)
  | .answer .done => .answer .done
  | .shape s => .shape s
  | .length keys empty => .length keys empty
  | .number n => .number n
  | .metrics m => .metrics m
  | .rates rates => .rates rates
  | .report report => .report report
  | .text s => .text s

/-- The number of cached references to a referent. -/
def cachedReferences (c : Cache String WeakRef) (referent : Nat) : Nat :=
  (c.contents .young ++ c.contents .old).countP fun e => e.value = some referent

/-- Act on the cache of a session. -/
def onCache {ρ : Type} (action : Action (Cache String WeakRef) ρ) : Action WeakWorld ρ :=
  action.within (·.cache) fun w cache => { w with cache }

/-- The reply to a command. -/
def WeakCommand.reply : WeakCommand → Action WeakWorld WeakReply
  | .cache command => do
    let r := (← get).referents
    let o ← onCache (command.map r.weak).reply
    return .cache (showReply r o.result)
  | .getLive key keep => do
    let r := (← get).referents
    let o ← onCache (Cache.getLive key fun w => (r.upgrade w).isSome)
    let value := o.result.bind r.upgrade
    match keep, o.result, value with
    | some name, some (some referent), some v =>
      modify fun w => { w with referents := r.share name referent v }
    | _, _, _ => pure ()
    return .value value
  | .own name value => do
    let r := (← get).referents
    modify fun w => { w with referents := r.own name value }
    return .owned (r.owns name)
  | .release name => do
    let r := (← get).referents
    modify fun w => { w with referents := r.release name }
    return .owned (r.owns name)
  | .count name => do
    let w ← get
    return .counts <| (w.referents.weak name).map fun referent =>
      (w.referents.ownerCount referent, cachedReferences w.cache referent)

/-- The transcript of one command. -/
structure WeakLine where
  reply : Except Fault WeakReply
  young : Nat
  old : Nat
  /-- One letter for each watched key, if any are watched. -/
  watched : Option String

/-- Play a command. -/
def WeakCommand.play (watch : Option (List String)) (command : WeakCommand) :
    StateM WeakWorld WeakLine := fun w =>
  let (reply, w) := command.reply.attempt w
  ({ reply
     young := w.cache.young.length
     old := w.cache.old.length
     watched := watch.map fun keys => String.ofList (keys.map (whereabouts w.cache)) }, w)

/-- Play commands on a cache of weak references. -/
def playWeak (watch : Option (List String)) (c : Cache String WeakRef)
    (commands : List WeakCommand) : CacheShape × List WeakLine :=
  (cacheShape c, ((commands.mapM (WeakCommand.play watch)).run { cache := c }).1)

end CachePool.Session
