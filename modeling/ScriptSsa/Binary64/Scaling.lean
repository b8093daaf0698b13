import ScriptSsa.Binary64.Basic

/-!
Scaling by powers of ten.

A decimal is read in steps: its leading digits, as far as they fit into 64 bits, become a number, and that
number is multiplied or divided by a power of ten. Every step rounds to nearest, so a long decimal may be
read as a neighbour of the number nearest to it.
-/

namespace ScriptSsa.Binary64

/-- The exponent of the largest power of ten that is finite. -/
def maxTen : Nat := 308

/-- The number nearest to a power of ten. -/
def tenTo (n : Nat) : Binary64 := ofNat (Nat.pow 10 n)

/-- Divides by `10 ^ n`, by at most `10 ^ maxTen` in one step. Once nothing is left, nothing changes. -/
def divTenTo (x : Binary64) (n : Nat) : Option Binary64 :=
  if _ : n ≤ maxTen then x.div (tenTo n)
  else if x.isZero then some x
  else (x.div (tenTo maxTen)).bind fun y => divTenTo y (n - maxTen)
termination_by n
decreasing_by unfold maxTen at *; omega

/-- Multiplies by `10 ^ n`, in one step; `none` on overflow. -/
def mulTenTo (x : Binary64) (n : Nat) : Option Binary64 :=
  if n ≤ maxTen then x.mul (tenTo n) else if x.isZero then some x else none

/-- Scales by a power of ten; `none` on overflow. -/
def scaleTen (x : Binary64) : Int → Option Binary64
  | .ofNat n => x.mulTenTo n
  | .negSucc n => x.divTenTo (n + 1)

/-- The number that `digits * 10 ^ exponent` is read as, or `none` on overflow. -/
def ofDecimal (negative : Bool) (digits : Nat) (exponent : Int) : Option Binary64 :=
  (ofRatio negative digits 1).bind fun x => x.scaleTen exponent

end ScriptSsa.Binary64
