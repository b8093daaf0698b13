import ScriptSsa.Binary64.Shortest

/-!
The text of a number: the digits of its shortest decimal, positionally from `0.000001` up to but not
including `1e+21`, and with an exponent outside that range.
-/

namespace ScriptSsa

namespace Decimal

/-- The exponent of the leading digit. -/
def leadingExponent (d : Decimal) : Int := (Nat.toDigits 10 d.digits).length - 1 + d.exponent

/-- Whether the decimal is written without an exponent. -/
def isPositional (d : Decimal) : Bool := -6 ≤ d.leadingExponent && d.leadingExponent < 21

def positional (d : Decimal) : List Char :=
  let digits := Nat.toDigits 10 d.digits
  if 0 ≤ d.exponent then digits ++ List.replicate d.exponent.toNat '0'
  else
    let places := (-d.exponent).toNat
    if places < digits.length then
      digits.take (digits.length - places) ++ '.' :: digits.drop (digits.length - places)
    else '0' :: '.' :: List.replicate (places - digits.length) '0' ++ digits

/-- One digit before the point, and an exponent that always carries its sign. -/
def scientific (d : Decimal) : List Char :=
  let fraction := (Nat.toDigits 10 d.digits).drop 1
  let sign := if d.leadingExponent < 0 then '-' else '+'
  (Nat.toDigits 10 d.digits).take 1 ++ (if fraction.isEmpty then [] else '.' :: fraction) ++
    'e' :: sign :: Nat.toDigits 10 d.leadingExponent.natAbs

def text (d : Decimal) : List Char := if d.isPositional then d.positional else d.scientific

end Decimal

namespace Binary64

/-- The printed form of a number. Both zeros print alike. -/
def text (x : Binary64) : String :=
  if x.isNaN then "NaN"
  else if x.isInfinite then (if x.isNegative then "-Infinity" else "Infinity")
  else if x.isZero then "0"
  else String.ofList ((if x.isNegative then ['-'] else []) ++ x.shortest.text)

end Binary64

end ScriptSsa
