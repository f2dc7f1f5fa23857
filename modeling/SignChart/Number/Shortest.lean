/-
  Numbers as text: the fewest digits that read back.

  A finite number is written with the shortest decimal that lies in the interval of reals that
  round to the number; of several that are equally short, the one nearest to the number is taken, and
  of two equally near the greater.  `shortest` searches the decimal grids from one digit on.  A point
  of a grid lies in the interval only if one of the two grid points next to the number does, so the
  two are all it has to try.  The digits are always written out in positions, never with an exponent.
-/
import SignChart.Number.Binary64
import SignChart.Text.Basic

namespace SignChart

/-! ## The interval of a number, and the decimal grids -/

/-- The reals that round to a number, and the number itself, in units of `2 ^ exponent`. -/
structure Neighbourhood where
  low : Nat
  value : Nat
  high : Nat
  exponent : Int
  /-- The ends of the interval round to the number too. -/
  closed : Bool
deriving DecidableEq, Repr

/-- The neighbourhood of `mantissa * 2 ^ exponent`.  Below a power of two the numbers lie half as far
apart as above it.  A tie goes to the even mantissa. -/
def Neighbourhood.ofDyadic (mantissa : Nat) (exponent : Int) : Neighbourhood :=
  let below := if mantissa = 1 <<< 52 ∧ exponent ≠ minExponent then 1 else 2
  ⟨4 * mantissa - below, 4 * mantissa, 4 * mantissa + 2, exponent - 2, mantissa % 2 = 0⟩

/-- A decimal `digits * 10 ^ scale`. -/
structure Decimal where
  digits : Nat
  scale : Int
deriving DecidableEq, Repr

/-- The number of decimal digits of a natural number; zero has none. -/
def digitCount (n : Nat) : Nat := if n = 0 then 0 else (Nat.toDigits 10 n).length

/-- The power of ten just above a number: `10 ^ (k - 1) ≤ n * 2 ^ e < 10 ^ k` for positive `n`. -/
def decimalExponent (n : Nat) (e : Int) : Int :=
  match e with
  | .ofNat e => digitCount (n <<< e)
  | .negSucc e =>
    let unit := 1 <<< (e + 1)
    if unit ≤ n then digitCount (n / unit)
    -- the least `z` with `unit ≤ n * 10 ^ z` counts the places up to the first digit that is not zero
    else 1 - digitCount ((unit - 1) / n)

/-- A neighbourhood measured in steps of a decimal grid: each of its numbers is that many
`1 / unit` of a step. -/
structure OnGrid where
  low : Nat
  value : Nat
  high : Nat
  unit : Nat
  closed : Bool
deriving DecidableEq, Repr

/-- The neighbourhood measured in steps of `10 ^ scale`. -/
def Neighbourhood.onGrid (v : Neighbourhood) (scale : Int) : OnGrid :=
  let factor := Nat.pow 10 (-scale).toNat <<< v.exponent.toNat
  let unit := Nat.pow 10 scale.toNat <<< (-v.exponent).toNat
  ⟨v.low * factor, v.value * factor, v.high * factor, unit, v.closed⟩

/-- The grid point `d` lies in the interval. -/
def OnGrid.contains (g : OnGrid) (d : Nat) : Bool :=
  let p := d * g.unit
  if g.closed then g.low ≤ p && p ≤ g.high else g.low < p && p < g.high

/-- The grid point of the interval that is nearest to the number. -/
def OnGrid.nearest? (g : OnGrid) : Option Nat :=
  let d := g.value / g.unit
  let rest := g.value % g.unit
  match g.contains d, g.contains (d + 1) with
  | true, true => some (if 2 * rest < g.unit then d else d + 1)
  | true, false => some d
  | false, true => some (d + 1)
  | false, false => none

/-- The first hit on the grids with `count`, `count + 1`, … digits; `fuel` more grids are tried. -/
def shortestFrom (v : Neighbourhood) (k : Int) : Nat → Nat → Option Decimal
  | 0, _ => none
  | fuel + 1, count =>
    match (v.onGrid (k - count)).nearest? with
    | some d => some ⟨d, k - count⟩
    | none => shortestFrom v k fuel (count + 1)

/-- The shortest decimal that reads back as `mantissa * 2 ^ exponent`, for a positive mantissa.
Seventeen digits always suffice. -/
def shortest (mantissa : Nat) (exponent : Int) : Decimal :=
  (shortestFrom (.ofDyadic mantissa exponent) (decimalExponent mantissa exponent) 17 1).getD ⟨0, 0⟩

/-! ## Writing -/

/-- The decimal in positional writing: no point in a whole number, no zeros at the end of a fraction,
one zero in front of a point that no other digit precedes. -/
def Decimal.text (d : Decimal) : Text :=
  let digits := Nat.toDigits 10 d.digits
  match d.scale with
  | .ofNat zeros => digits ++ List.replicate zeros '0'
  | .negSucc n =>
    let places := n + 1
    let padded := List.replicate (places + 1 - digits.length) '0' ++ digits
    let whole := padded.take (padded.length - places)
    match ((padded.drop (padded.length - places)).reverse.dropWhile (· = '0')).reverse with
    | [] => whole
    | fraction => whole ++ '.' :: fraction

end SignChart

namespace Float
open SignChart

/-- A number as text.  Zero keeps its sign, NaN has none. -/
def text (x : Float) : Text :=
  let signed (negative : Bool) (t : Text) : Text := if negative then '-' :: t else t
  match x.view with
  | .nan => "NaN".toList
  | .infinite negative => signed negative "inf".toList
  | .finite negative 0 _ => signed negative ['0']
  | .finite negative m e => signed negative (shortest m e).text

end Float
