import CachePool.Decimal.Shortest

/-!
# Written forms of floats

A written float has the fewest digits that identify it. A style says which
decimal exponents are written positionally and whether a whole number keeps a
fraction. Two styles are in use: `plain` for messages, `exact` for descriptions
of values.
-/

namespace CachePool.Decimal

/-- The layout decisions of a written float. -/
structure Style where
  /-- Whether a first digit with this decimal exponent is written without an exponent mark. -/
  positional : Int → Bool
  /-- Whether a whole number written positionally keeps one zero behind the point. -/
  wholeFraction : Bool

/-- Messages write all digits positionally, and whole numbers without a fraction. -/
def Style.plain : Style := ⟨fun _ => true, false⟩

/-- Descriptions use an exponent below `10 ^ -4` and from `10 ^ 16` on, and keep a fraction. -/
def Style.exact : Style := ⟨fun e => -4 ≤ e && e < 16, true⟩

/-- A run of zeros. -/
def zeros (n : Nat) : List Char := List.replicate n '0'

/-- The digits with the point in its place, and zeros where digits are missing. -/
def Style.layPositional (style : Style) (digits : List Char) (exponent : Int) : List Char :=
  let point := digits.length + exponent
  if 0 ≤ exponent then
    digits ++ zeros exponent.toNat ++ if style.wholeFraction then ['.', '0'] else []
  else if 0 < point then
    digits.take point.toNat ++ '.' :: digits.drop point.toNat
  else
    '0' :: '.' :: zeros (-point).toNat ++ digits

/-- One digit before the point, the others behind it, and the exponent of the first. -/
def layScientific (digits : List Char) (first : Int) : List Char :=
  let fraction := match digits.drop 1 with
    | [] => []
    | rest => '.' :: rest
  let sign := if first < 0 then ['-'] else []
  digits.take 1 ++ fraction ++ 'e' :: sign ++ Nat.toDigits 10 first.natAbs

/-- The written form of a decimal without sign. -/
def Style.layOut (style : Style) (d : Numeral) : List Char :=
  let digits := Nat.toDigits 10 d.digits
  let first := digits.length - 1 + d.exponent
  if style.positional first || d.digits == 0 then
    style.layPositional digits d.exponent
  else
    layScientific digits first

/-- The written form of a float. -/
def Style.write (style : Style) (x : Float) : String :=
  if x.isNaN then
    "NaN"
  else
    let sign := if x.toBits >>> 63 == 0 then "" else "-"
    if x.isInf then
      sign ++ "inf"
    else
      sign ++ String.ofList (style.layOut (Binary.ofBits x.toBits).shortest)

end CachePool.Decimal
