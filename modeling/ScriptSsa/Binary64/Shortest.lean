import ScriptSsa.Binary64.Basic

/-!
The shortest decimal that reads back as a given binary64 number.

The reals that round to a number form an interval around it. For one digit, two digits and so on, the
number's two neighbours on the decimal grid with that many digits are tested against the interval in
exact arithmetic. The first grid with a hit wins; of two hits the nearer wins, and the upper one when
they are equally near.
-/

namespace ScriptSsa

/-- The decimal `digits * 10 ^ exponent`. -/
structure Decimal where
  digits : Nat
  exponent : Int
deriving DecidableEq, Repr

namespace Decimal

/-- Moves up to `fuel` trailing zeros of the digits into the exponent. -/
def strip : Nat → Decimal → Decimal
  | 0, d => d
  | fuel + 1, d =>
    if d.digits ≠ 0 ∧ d.digits % 10 = 0 then strip fuel ⟨d.digits / 10, d.exponent + 1⟩ else d

/-- The same value with no trailing zero among its digits. -/
def normalize (d : Decimal) : Decimal := strip (Nat.toDigits 10 d.digits).length d

end Decimal

namespace Binary64

/-- Whether the next smaller number is only half as far away as the next larger one. -/
def hasNarrowBelow (x : Binary64) : Bool := x.fractionField == 0 && 1 < x.exponentField

/-- The decimal with `count` significant digits that reads back as `x`, if there is one. -/
def decimalWith? (x : Binary64) (count : Nat) : Option Decimal :=
  -- Everything is counted in quarters of the last significand bit, times `unit / den` on the grid.
  let quarter := x.scale - 2
  let value := 4 * x.significand
  let top := floorLog 10 (value * Nat.pow 2 quarter.toNat) (Nat.pow 2 (-quarter).toNat)
  let exponent := top - (count : Int) + 1
  let unit := Nat.pow 2 quarter.toNat * Nat.pow 10 (-exponent).toNat
  let den := Nat.pow 2 (-quarter).toNat * Nat.pow 10 exponent.toNat
  let low := (value - (if x.hasNarrowBelow then 1 else 2)) * unit
  let high := (value + 2) * unit
  let hit (n : Nat) : Bool :=
    if x.significand % 2 = 0 then low ≤ n * den && n * den ≤ high
    else low < n * den && n * den < high
  let below := value * unit / den
  let nearerBelow := 2 * (value * unit) < (2 * below + 1) * den
  match hit below, hit (below + 1) with
  | true, true => some ⟨if nearerBelow then below else below + 1, exponent⟩
  | true, false => some ⟨below, exponent⟩
  | false, true => some ⟨below + 1, exponent⟩
  | false, false => none

/-- All the digits of a finite number. -/
def exactDecimal (x : Binary64) : Decimal :=
  if 0 ≤ x.scale then ⟨x.significand * Nat.pow 2 x.scale.toNat, 0⟩
  else ⟨x.significand * Nat.pow 5 (-x.scale).toNat, x.scale⟩

/-- The shortest decimal that reads back as the magnitude of `x`, for a finite `x` other than zero.
Seventeen digits always suffice. -/
def shortest (x : Binary64) : Decimal :=
  (((List.range 17).findSome? fun i => x.decimalWith? (i + 1)).getD x.exactDecimal).normalize

end Binary64

end ScriptSsa
