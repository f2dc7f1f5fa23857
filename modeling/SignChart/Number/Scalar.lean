/-
  The arithmetic that charts are computed in.

  Points, domains, samples and root searches need an ordered set of numbers with the four operations,
  decimal constants, absolute values and a rounding to whole numbers.  `Scalar` lists these; the
  program computes with `Float`.  Nothing is assumed of the operations here: a fact that holds only in
  exact arithmetic says so by its instance.
-/
import SignChart.Number.Shortest

namespace SignChart

/-- Numbers to compute a chart with. -/
class Scalar (α : Type) extends
    Add α, Sub α, Neg α, Mul α, Div α, BEq α, LT α, LE α, OfScientific α where
  decLt : DecidableRel (α := α) (· < ·)
  decLe : DecidableRel (α := α) (· ≤ ·)
  ofNat : Nat → α
  abs : α → α
  /-- Neither infinite nor NaN. -/
  isFinite : α → Bool
  isNaN : α → Bool
  /-- The nearest whole number, a half away from zero. -/
  nearest : α → α
  /-- The machine integer towards zero. -/
  toMachineInt : α → Int
  /-- A total order that also places what the order relations leave out. -/
  order : α → α → Ordering
  text : α → Text

attribute [reducible, instance] Scalar.decLt Scalar.decLe

instance : Scalar Float where
  decLt := inferInstance
  decLe := inferInstance
  ofNat := Float.ofNat
  abs := Float.abs
  isFinite := Float.isFinite
  isNaN := Float.isNaN
  nearest := Float.nearest
  toMachineInt := Float.toMachineInt
  order x y := compare x.rank y.rank
  text := Float.text

namespace Scalar
variable {α : Type} [Scalar α]

/-- The greater of two numbers, the second of equals; of NaN and a number, the number. -/
@[specialize] def max (a b : α) : α := if b < a then a else if isNaN b then a else b

/-- The lesser of two numbers, the second of equals; of NaN and a number, the number. -/
@[specialize] def min (a b : α) : α := if a < b then a else if isNaN b then a else b

end Scalar
end SignChart
