/-
  The automatic domain, case by case.

  Only finite values count, so with finite points the number of points decides:  none, one, or several that are
  covered.  Several points are covered by one interval with a margin on both sides (`Domain.widened`), from the
  least value to the greatest; when these have no difference, by the interval from 1 below to 1 above them.
-/
import SignChart.Proofs.Number.Value

namespace SignChart
variable {α : Type} [Scalar α]

/-- A domain with its margin added on both sides. -/
def Domain.widened (d : Domain α) : Domain α := ⟨d.min - marginFor d.span, d.max + marginFor d.span⟩

/-- The interval that `Domain.covering` adds the margin to. -/
def Domain.hull (first : α) (rest : List α) : Domain α :=
  let lo := rest.foldl Scalar.min first
  let hi := rest.foldl Scalar.max first
  if hi - lo == (0.0 : α) then ⟨lo - (1.0 : α), hi + (1.0 : α)⟩ else ⟨lo, hi⟩

/-- The domain that covers several points is their hull with a margin on both sides. -/
theorem Domain.covering_eq (first : α) (rest : List α) : covering first rest = (hull first rest).widened := by
  unfold covering hull
  dsimp only
  split <;> rfl

/-- Points with finite values, none of which is left out. -/
theorem filter_values {points : List (Point α)} (h : ∀ p ∈ points, Scalar.isFinite p.value = true) :
    (points.map Point.value).filter Scalar.isFinite = points.map Point.value := by
  rw [List.filter_eq_self]
  simpa using h

/-- Around one point the previous domain is moved, or a new one is taken if there is none. -/
theorem autoDomain_single {p : Point α} (h : Scalar.isFinite p.value = true) (previous : Option (Domain α)) :
    autoDomain [p] previous = ((previous.filter Domain.isValid).getD (.around p.value)).shiftTo p.value := by
  rw [autoDomain, filter_values (by simpa using h)]
  rfl

/-- Several points are covered, whatever the previous domain is. -/
theorem autoDomain_several {p q : Point α} {points : List (Point α)}
    (h : ∀ r ∈ p :: q :: points, Scalar.isFinite r.value = true) (previous : Option (Domain α)) :
    autoDomain (p :: q :: points) previous =
      (Domain.hull p.value ((q :: points).map Point.value)).widened := by
  rw [autoDomain, filter_values h]
  exact Domain.covering_eq ..

end SignChart
