/-!
# Referents and weak references

A referent lives as long as somebody owns it. A weak reference does not own its
referent: it can be asked for the value while an owner is left. Owners are
registered by name, and one name owns at most one referent.
-/

namespace CachePool

/-- A reference that does not keep its referent alive; it may have had none from the start. -/
abbrev WeakRef := Option Nat

/-- A named owner of a referent. -/
structure Owner (ν : Type) where
  name : String
  /-- The number of the referent owned. -/
  referent : Nat
  /-- The value of the referent. -/
  value : ν

/-- All referents that are alive, by their owners. -/
structure Referents (ν : Type) where
  owners : List (Owner ν) := []
  /-- A number from which on no referent was ever used. -/
  unused : Nat := 0

namespace Referents

variable {ν : Type}

/-- The name owns a referent. -/
def owns (r : Referents ν) (name : String) : Bool := r.owners.any fun o => o.name = name

/-- Take from a name what it owns. -/
def release (r : Referents ν) (name : String) : Referents ν :=
  { r with owners := r.owners.filter fun o => o.name ≠ name }

/-- Make a name the owner of a new referent, instead of what it owned. -/
def own (r : Referents ν) (name : String) (value : ν) : Referents ν :=
  { owners := { name, referent := r.unused, value } :: (r.release name).owners
    unused := r.unused + 1 }

/-- Make a name one more owner of a referent, instead of what it owned. -/
def share (r : Referents ν) (name : String) (referent : Nat) (value : ν) : Referents ν :=
  { r with owners := { name, referent, value } :: (r.release name).owners }

/-- A weak reference to what a name owns. -/
def weak (r : Referents ν) (name : String) : WeakRef :=
  (r.owners.find? fun o => o.name = name).map (·.referent)

/-- The value of a referent, while an owner is left. -/
def upgrade (r : Referents ν) : WeakRef → Option ν
  | none => none
  | some referent => (r.owners.find? fun o => o.referent = referent).map (·.value)

/-- The number of owners of a referent. -/
def ownerCount (r : Referents ν) (referent : Nat) : Nat :=
  r.owners.countP fun o => o.referent = referent

end Referents

end CachePool
