/-
  What a 64-bit floating-point number stands for, and the roundings to whole numbers.

  `Float.view` reads a number as nothing, an infinity, or a sign and a dyadic fraction
  `mantissa * 2 ^ exponent`.  The roundings take the fraction apart with exact integer
  arithmetic: `Float.floored`, `Float.ceiled`, `Float.truncated` and `Float.nearest` (halves away
  from zero).  All keep the sign of a zero result and pass infinities and NaN on.  `Float.toMachineInt`
  goes to the integers between -2^63 and 2^63 - 1, taking the nearer end for what lies outside.
-/
namespace SignChart

/-- The value of a floating-point number. -/
inductive FloatView where
  | nan
  | infinite (negative : Bool)
  /-- The value `± mantissa * 2 ^ exponent`. -/
  | finite (negative : Bool) (mantissa : Nat) (exponent : Int)
deriving DecidableEq, Repr

/-- The exponent of the least positive number. -/
def minExponent : Int := -1074

/-- Reads the sign bit, eleven bits of exponent and fifty-two of fraction; the leading one of a
normal number is not stored. -/
def viewBits (bits : Nat) : FloatView :=
  let negative := bits >>> 63 % 2 == 1
  let exponent : Nat := bits >>> 52 % 2048
  let fraction := bits % (1 <<< 52)
  if exponent = 2047 then
    if fraction = 0 then .infinite negative else .nan
  else if exponent = 0 then .finite negative fraction minExponent
  else .finite negative ((1 <<< 52) + fraction) (minExponent + (exponent - 1 : Nat))

/-- A magnitude cut to a whole number, and whether anything, half or more was cut off. -/
structure Whole where
  part : Nat
  inexact : Bool
  half : Bool
deriving DecidableEq, Repr

/-- Cuts `mantissa * 2 ^ exponent` to a whole number. -/
def Whole.ofDyadic (mantissa : Nat) (exponent : Int) : Whole :=
  match exponent with
  | .ofNat e => ⟨mantissa <<< e, false, false⟩
  | .negSucc e =>
    let unit := 1 <<< (e + 1)
    let rest := mantissa % unit
    ⟨mantissa / unit, rest ≠ 0, unit ≤ 2 * rest⟩

end SignChart

namespace Float
open SignChart

/-- The value of a number. -/
def view (x : Float) : FloatView := viewBits x.toBits.toNat

/-- The whole number that `round` chooses from the sign and the cut magnitude, as a float of the
number's sign. -/
def roundWith (round : Bool → Whole → Nat) (x : Float) : Float :=
  match x.view with
  | .finite negative m e =>
    if 0 ≤ e then x
    else
      let n := Float.ofNat (round negative (.ofDyadic m e))
      if negative then -n else n
  | _ => x

/-- The greatest whole number that is not above `x`. -/
def floored : Float → Float :=
  roundWith fun negative w => if negative && w.inexact then w.part + 1 else w.part

/-- The least whole number that is not below `x`. -/
def ceiled : Float → Float :=
  roundWith fun negative w => if !negative && w.inexact then w.part + 1 else w.part

/-- The whole number towards zero. -/
def truncated : Float → Float := roundWith fun _ w => w.part

/-- The nearest whole number, a half away from zero. -/
def nearest : Float → Float := roundWith fun _ w => if w.half then w.part + 1 else w.part

/-- The greatest machine integer. -/
def maxMachineInt : Int := 0x7fffffffffffffff

/-- The least machine integer. -/
def minMachineInt : Int := -0x8000000000000000

/-- The machine integer towards zero, the nearest one outside the range, zero for NaN. -/
def toMachineInt (x : Float) : Int :=
  match x.view with
  | .nan => 0
  | .infinite negative => if negative then minMachineInt else maxMachineInt
  | .finite negative m e =>
    let n : Int := (Whole.ofDyadic m e).part
    max minMachineInt (min maxMachineInt (if negative then -n else n))

/-- A number's place in the total order of all bit patterns: from the negative NaNs up to the
positive ones, with -0 before 0. -/
def rank (x : Float) : Int :=
  let bits := x.toBits.toNat
  if bits < 1 <<< 63 then bits else -1 - (bits - (1 <<< 63) : Nat)

end Float
