/-!
Binary64 numbers held as their bit pattern, and the nearest one to an exact quotient.

A finite number is `significand * 2 ^ scale`. Conversion, multiplication and division all go through
`ofRatio`, which rounds once, to nearest, ties to the even pattern.
-/

namespace ScriptSsa

/-- A binary64 number, by its bit pattern: sign, eleven exponent bits, fifty-two fraction bits. -/
structure Binary64 where
  bits : UInt64
deriving DecidableEq, Inhabited, Repr

/-- The largest `e` with `base ^ e ≤ num / den`, for positive `num` and `den`. -/
def floorLog (base num den : Nat) : Int :=
  -- The two digit counts leave only two candidates.
  let e : Int := (Nat.toDigits base num).length - (Nat.toDigits base den).length
  if den * base.pow e.toNat ≤ num * base.pow (-e).toNat then e else e - 1

/-- The natural number nearest to `num / den`, a half going to the even neighbour. -/
def roundHalfEven (num den : Nat) : Nat :=
  let q := num / den
  let r := num % den
  if 2 * r < den ∨ (2 * r = den ∧ q % 2 = 0) then q else q + 1

namespace Binary64

/-- The weight of the sign bit. -/
def signBit : Nat := Nat.pow 2 63

/-- The weight of the leading bit that a normal number leaves unwritten. -/
def leadingBit : Nat := Nat.pow 2 52

/-- The pattern of positive infinity. -/
def infinity : Nat := 2047 * leadingBit

def isNegative (x : Binary64) : Bool := x.bits.toNat / signBit == 1

def exponentField (x : Binary64) : Nat := x.bits.toNat / leadingBit % 2048

def fractionField (x : Binary64) : Nat := x.bits.toNat % leadingBit

def isNaN (x : Binary64) : Bool := x.exponentField == 2047 && x.fractionField != 0

def isInfinite (x : Binary64) : Bool := x.exponentField == 2047 && x.fractionField == 0

def isFinite (x : Binary64) : Bool := x.exponentField != 2047

def isZero (x : Binary64) : Bool := x.exponentField == 0 && x.fractionField == 0

/-- The fraction bits, with the leading one of a normal number. -/
def significand (x : Binary64) : Nat :=
  if x.exponentField = 0 then x.fractionField else x.fractionField + leadingBit

/-- The weight of the significand's last bit, as a power of two. -/
def scale (x : Binary64) : Int := (max x.exponentField 1 : Nat) - 1075

def ofMagnitude (negative : Bool) (magnitude : Nat) : Binary64 :=
  ⟨UInt64.ofNat ((if negative then signBit else 0) + magnitude)⟩

/-- The pattern of zero with the given sign. -/
def zero (negative : Bool) : Binary64 := ofMagnitude negative 0

/-- The number nearest to `num / den`, or `none` when that is past the largest finite one. -/
def ofRatio (negative : Bool) (num den : Nat) : Option Binary64 :=
  if num = 0 then some (zero negative)
  else
    let unit : Int := max (floorLog 2 num den - 52) (-1074)
    let m := roundHalfEven (num * Nat.pow 2 (-unit).toNat) (den * Nat.pow 2 unit.toNat)
    -- A significand that rounds up to a power of two carries into the exponent field by itself.
    let magnitude := (unit + 1074).toNat * leadingBit + m
    if magnitude < infinity then some (ofMagnitude negative magnitude) else none

/-- The number nearest to a natural number; past the largest finite one, infinity. -/
def ofNat (n : Nat) : Binary64 := (ofRatio false n 1).getD (ofMagnitude false infinity)

/-- The number nearest to the exact product of two finite numbers, or `none` on overflow. -/
def mul (x y : Binary64) : Option Binary64 :=
  let scale := x.scale + y.scale
  ofRatio (x.isNegative != y.isNegative)
    (x.significand * y.significand * Nat.pow 2 scale.toNat) (Nat.pow 2 (-scale).toNat)

/-- The number nearest to the exact quotient of two finite numbers, the second not zero, or `none` on
overflow. -/
def div (x y : Binary64) : Option Binary64 :=
  let scale := x.scale - y.scale
  ofRatio (x.isNegative != y.isNegative)
    (x.significand * Nat.pow 2 scale.toNat) (y.significand * Nat.pow 2 (-scale).toNat)

end Binary64

end ScriptSsa
