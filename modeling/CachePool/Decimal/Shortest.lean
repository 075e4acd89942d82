/-!
# The fewest digits that identify a binary number

A binary number stands for the interval of reals that round to it. Its shortest
decimal is the point of that interval on the coarsest decimal grid that has one,
the nearer of two, and the larger where both are equally near. All comparisons
are exact, over natural numbers.
-/

namespace CachePool.Decimal

/-- A finite binary number without its sign, `mantissa * 2 ^ exponent`. -/
structure Binary where
  mantissa : Nat
  exponent : Int
  /-- The gap to the number below is half the gap to the number above. -/
  narrowBelow : Bool

/-- The magnitude held by the bits of a finite 64-bit float. -/
def Binary.ofBits (bits : UInt64) : Binary :=
  let exponent := ((bits >>> 52) &&& 0x7FF).toNat
  let fraction := (bits &&& 0xFFFFFFFFFFFFF).toNat
  if exponent = 0 then
    ⟨fraction, -1074, false⟩
  else
    ⟨(1 <<< 52) + fraction, (exponent : Int) - 1075, fraction = 0 ∧ 1 < exponent⟩

/-- A decimal number without sign, `digits * 10 ^ exponent`. -/
structure Numeral where
  digits : Nat
  exponent : Int
  deriving DecidableEq

/-- The power of ten at an exponent, and one where the exponent is negative. -/
def tenTo (exponent : Int) : Nat := Nat.pow 10 exponent.toNat

/-- Compare `a * 10 ^ i` with `b * 2 ^ j`. -/
def compareScaled (a : Nat) (i : Int) (b : Nat) (j : Int) : Ordering :=
  compare ((a * tenTo i) <<< (-j).toNat) ((b * tenTo (-i)) <<< j.toNat)

/--
The decimal lies among the reals that round to the binary number: those up to
halfway to its neighbours, the ends included where the mantissa is even.
-/
def Binary.readsBack (x : Binary) (d : Numeral) : Bool :=
  let low := 4 * x.mantissa - if x.narrowBelow then 1 else 2
  let high := 4 * x.mantissa + 2
  let closed := x.mantissa % 2 == 0
  let below := compareScaled d.digits d.exponent low (x.exponent - 2)
  let above := compareScaled d.digits d.exponent high (x.exponent - 2)
  (below == .gt || closed && below == .eq) && (above == .lt || closed && above == .eq)

/-- The largest point of the decimal grid at an exponent that is not above the number. -/
def Binary.floorOn (x : Binary) (grid : Int) : Numeral :=
  ⟨((x.mantissa * tenTo (-grid)) <<< x.exponent.toNat) /
    (tenTo grid <<< (-x.exponent).toNat), grid⟩

/-- The point of a grid that identifies the number, if one of its two neighbours does. -/
def Binary.onGrid? (x : Binary) (grid : Int) : Option Numeral :=
  let down := x.floorOn grid
  let up : Numeral := ⟨down.digits + 1, grid⟩
  match x.readsBack down, x.readsBack up with
  | true, false => some down
  | false, true => some up
  | false, false => none
  | true, true =>
    match compareScaled (2 * down.digits + 1) grid (2 * x.mantissa) x.exponent with
    | .gt => some down
    | _ => some up

/-- A decimal exponent whose power of ten is above the number. -/
def Binary.topExponent (x : Binary) : Int :=
  ((x.mantissa.log2 + 1 : Nat) + x.exponent) * 30103 / 100000 + 1

/-- Search the grids from coarse to fine, and settle for the finest if none has a point. -/
def Binary.search (x : Binary) : Nat → Int → Numeral
  | 0, grid => x.floorOn grid
  | fuel + 1, grid => (x.onGrid? grid).getD (x.search fuel (grid - 1))

/-- The shortest decimal of a number; seventeen digits always identify one. -/
def Binary.shortest (x : Binary) : Numeral :=
  if x.mantissa = 0 then ⟨0, 0⟩ else x.search 20 x.topExponent

end CachePool.Decimal
