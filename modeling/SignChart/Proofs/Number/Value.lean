/-
  Numbers that stand for rational numbers, and the rational numbers themselves.

  `HasValue` says of the numbers of a chart what each finite one stands for, and that they are compared by it.
  That is all that the greater of two numbers and the extremes of a list need:
    1. **`HasValue.value_max`**: the value of the greater number is the greater value;
    2. **`HasValue.foldl_max_spec`** and **`HasValue.foldl_min_spec`**: the extremes of a list are numbers of the list,
       and no other lies beyond them.
  With `open Exact` the rational numbers are such numbers themselves, and nothing is rounded: a fact of exact
  arithmetic is a fact of charts over them.
-/
import SignChart.Domain
import Mathlib.Algebra.Order.Round
import Mathlib.Algebra.Order.Floor.Ring
import Mathlib.Data.Rat.Floor

namespace SignChart

/-! ## Choosing from a list -/

/-- Choosing from a list one number after the other, by a choice `f` of the first in an order `r`.  The numbers
chosen between are of the list too, so whatever `P` says of the numbers that `f` needs is said of the list only. -/
theorem foldl_choice_spec {α : Type} {P : α → Prop} {r : α → α → Prop} {f : α → α → α} (hrefl : ∀ x, r x x)
    (htrans : ∀ x y z, r x y → r y z → r x z)
    (hf : ∀ x y, P x → P y → (f x y = x ∨ f x y = y) ∧ r (f x y) x ∧ r (f x y) y) (rest : List α) :
    ∀ first, (∀ y ∈ first :: rest, P y) →
      rest.foldl f first ∈ first :: rest ∧ ∀ y ∈ first :: rest, r (rest.foldl f first) y := by
  induction rest with
  | nil => simpa using fun x _ => hrefl x
  | cons z rest ih =>
    intro first hP
    simp only [List.mem_cons, forall_eq_or_imp] at hP
    obtain ⟨hone, hfirst, hz⟩ := hf first z hP.1 hP.2.1
    have hchosen : P (f first z) := by rcases hone with h | h <;> rw [h] <;> simp only [hP]
    obtain ⟨hmem, hr⟩ := ih (f first z) (by simpa [hchosen] using hP.2.2)
    simp only [List.mem_cons, forall_eq_or_imp] at hmem hr ⊢
    refine ⟨?_, htrans _ _ _ hr.1 hfirst, htrans _ _ _ hr.1 hz, hr.2⟩
    rcases hmem with h | h
    · exact (hone.imp h.trans h.trans).imp_right .inl
    · exact .inr (.inr h)

/-! ## Values -/

/-- Finite numbers are compared by what they stand for. -/
class HasValue (α : Type) [Scalar α] where
  value : α → ℚ
  lt_iff : ∀ {x y : α}, Scalar.isFinite x = true → Scalar.isFinite y = true → (x < y ↔ value x < value y)
  isNaN_eq_false : ∀ {x : α}, Scalar.isFinite x = true → Scalar.isNaN x = false

namespace HasValue
variable {α : Type} [Scalar α] [HasValue α] {x y : α}

/-- The greater of two finite numbers is one of them. -/
theorem max_spec (hx : Scalar.isFinite x = true) (hy : Scalar.isFinite y = true) :
    (Scalar.max x y = x ∨ Scalar.max x y = y) ∧ value x ≤ value (Scalar.max x y) ∧
      value y ≤ value (Scalar.max x y) := by
  simp only [Scalar.max, isNaN_eq_false hy, Bool.false_eq_true, if_false]
  by_cases h : y < x
  · simpa [h] using ((lt_iff hy hx).1 h).le
  · simpa [h] using mt (lt_iff hy hx).2 h

theorem min_spec (hx : Scalar.isFinite x = true) (hy : Scalar.isFinite y = true) :
    (Scalar.min x y = x ∨ Scalar.min x y = y) ∧ value (Scalar.min x y) ≤ value x ∧
      value (Scalar.min x y) ≤ value y := by
  simp only [Scalar.min, isNaN_eq_false hy, Bool.false_eq_true, if_false]
  by_cases h : x < y
  · simpa [h] using ((lt_iff hx hy).1 h).le
  · simpa [h] using mt (lt_iff hx hy).2 h

theorem value_max (hx : Scalar.isFinite x = true) (hy : Scalar.isFinite y = true) :
    value (Scalar.max x y) = max (value x) (value y) := by
  obtain ⟨h | h, hxle, hyle⟩ := max_spec hx hy <;> rw [h] at hxle hyle ⊢
  · exact (max_eq_left hyle).symm
  · exact (max_eq_right hxle).symm

/-- The greatest number of a list is one of the list, and no other is above it. -/
theorem foldl_max_spec (first : α) (rest : List α) (hfinite : ∀ y ∈ first :: rest, Scalar.isFinite y = true) :
    rest.foldl Scalar.max first ∈ first :: rest ∧
      ∀ y ∈ first :: rest, value y ≤ value (rest.foldl Scalar.max first) :=
  foldl_choice_spec (r := fun x y => value y ≤ value x) (fun _ => le_rfl) (fun _ _ _ hxy hyz => hyz.trans hxy)
    (fun _ _ => max_spec) rest first hfinite

/-- The least number of a list is one of the list, and no other is below it. -/
theorem foldl_min_spec (first : α) (rest : List α) (hfinite : ∀ y ∈ first :: rest, Scalar.isFinite y = true) :
    rest.foldl Scalar.min first ∈ first :: rest ∧
      ∀ y ∈ first :: rest, value (rest.foldl Scalar.min first) ≤ value y :=
  foldl_choice_spec (r := fun x y => value x ≤ value y) (fun _ => le_rfl) (fun _ _ _ => le_trans)
    (fun _ _ => min_spec) rest first hfinite

end HasValue

/-! ## Exact arithmetic -/

namespace Exact

/-- Nothing is infinite here, and nothing is rounded. -/
scoped instance : Scalar ℚ where
  decLt := inferInstance
  decLe := inferInstance
  ofNat n := n
  abs x := |x|
  isFinite _ := true
  isNaN _ := false
  nearest x := if 0 ≤ x then ⌊x + 1 / 2⌋ else ⌈x - 1 / 2⌉
  toMachineInt x := max Float.minMachineInt (min Float.maxMachineInt (x.num.tdiv x.den))
  order := compare
  text x := (toString x).toList

scoped instance : HasValue ℚ where
  value x := x
  lt_iff _ _ := Iff.rfl
  isNaN_eq_false _ := rfl

@[simp] theorem isFinite_rat (x : ℚ) : Scalar.isFinite x = true := rfl

@[simp] theorem value_rat (x : ℚ) : HasValue.value x = x := rfl

end Exact
end SignChart
