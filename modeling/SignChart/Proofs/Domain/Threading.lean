/-
  Automatic domains handed from one list of points to the next, in exact arithmetic.

  A single point keeps the span of the domain before it.  The margin to both bounds is a fifth of the span and at
  least 1, and only a span of 2 has room for two margins of 1: a narrower domain handed on would lose its point.  None
  is ever narrower, and this is the invariant of the whole sequence:
    1. a span of at least 2 has room for both margins (`two_mul_marginFor_le`), so a domain of such a span, shifted,
       keeps its span and both margins (`Domain.clears_shiftTo`);
    2. the domain that covers several points has a margin of 1 beyond the least and the greatest
       (`Domain.mem_hull`, `Domain.clears_widened`), and the standard domain has a span of 10;
    3. so one step keeps spans at 2 or more and both bounds a unit away from all points
       (**`autoDomain_spec`**), and
    4. **`domainAfter_clears`** says so of the last domain of every sequence, which may be any of a longer one.
-/
import SignChart.Proofs.Domain.Cases
import Mathlib.Data.List.Induction

namespace SignChart
open Exact

/-- The automatic domain after lists of points one after the other, each after the domain of the one before. -/
def domainAfter {α : Type} [Scalar α] (lists : List (List (Point α))) : Option (Domain α) :=
  lists.foldl (fun previous points => some (autoDomain points previous)) none

/-! ## The margin -/

/-- In exact arithmetic the margin is a fifth of the span, and one at least. -/
theorem marginFor_rat (s : ℚ) : marginFor s = max (s / 5) 1 := by
  have h : marginFor s = max (s * (0.2 : ℚ)) (1.0 : ℚ) :=
    HasValue.value_max (α := ℚ) (x := s * (0.2 : ℚ)) (y := (1.0 : ℚ)) rfl rfl
  rw [h, div_eq_mul_inv]
  norm_num

theorem one_le_marginFor (s : ℚ) : 1 ≤ marginFor s := by
  rw [marginFor_rat]
  exact le_max_right ..

/-- A span of two or more has room for both margins. -/
theorem two_mul_marginFor_le {s : ℚ} (h : 2 ≤ s) : 2 * marginFor s ≤ s := by
  rw [marginFor_rat]
  rcases max_cases (s / 5) 1 with ⟨h', -⟩ | ⟨h', -⟩ <;> rw [h'] <;> linarith

/-! ## Domains around points -/

namespace Domain

theorem span_rat (d : Domain ℚ) : d.span = d.max - d.min := rfl

/-- In exact arithmetic every bound is finite, and only their order is left to ask for. -/
theorem isValid_rat (d : Domain ℚ) : d.isValid = true ↔ d.min < d.max := by
  simp [isValid]

theorem span_around (x : ℚ) : (around x).span = 4 := by
  show x + (4.0 : ℚ) / (2.0 : ℚ) - (x - (4.0 : ℚ) / (2.0 : ℚ)) = 4
  norm_num

/-- Both bounds are at least a unit away from a value. -/
def Clears (d : Domain ℚ) (x : ℚ) : Prop := d.min + 1 ≤ x ∧ x + 1 ≤ d.max

/-- A domain is moved without changing its span. -/
theorem span_shiftTo (d : Domain ℚ) (x : ℚ) : (d.shiftTo x).span = d.span := by
  show d.max + _ - (d.min + _) = d.max - d.min
  ring

/-- The value lies below the window of the two margins, above it, or in it; there must be a window. -/
theorem clears_shiftTo {d : Domain ℚ} (h : 2 ≤ d.span) (x : ℚ) : (d.shiftTo x).Clears x := by
  have hone := one_le_marginFor d.span
  have hroom : 2 * marginFor d.span ≤ d.max - d.min := two_mul_marginFor_le h
  unfold shiftTo Clears
  generalize marginFor d.span = m at hone hroom
  dsimp only
  split_ifs with hlow hhigh
  · exact ⟨by linarith, by linarith⟩
  · exact ⟨by linarith, by linarith⟩
  · have hzero : (0.0 : ℚ) = 0 := by norm_num
    exact ⟨by linarith, by linarith⟩

/-- A domain with its margin added clears all that was in it. -/
theorem clears_widened {d : Domain ℚ} (h : d.min ≤ d.max) {y : ℚ} (hmin : d.min ≤ y) (hmax : y ≤ d.max) :
    2 ≤ d.widened.span ∧ d.widened.Clears y := by
  have hone := one_le_marginFor d.span
  show 2 ≤ d.max + marginFor d.span - (d.min - marginFor d.span) ∧
    d.min - marginFor d.span + 1 ≤ y ∧ y + 1 ≤ d.max + marginFor d.span
  exact ⟨by linarith, by linarith, by linarith⟩

/-- The hull of the points has all of them in it. -/
theorem mem_hull (first : ℚ) (rest : List ℚ) :
    ∀ y ∈ first :: rest, (hull first rest).min ≤ y ∧ y ≤ (hull first rest).max := by
  obtain ⟨-, hmin⟩ := HasValue.foldl_min_spec first rest fun _ _ => rfl
  obtain ⟨-, hmax⟩ := HasValue.foldl_max_spec first rest fun _ _ => rfl
  intro y hy
  have hlo : rest.foldl Scalar.min first ≤ y := hmin y hy
  have hhi : y ≤ rest.foldl Scalar.max first := hmax y hy
  unfold hull
  dsimp only
  split_ifs
  · show rest.foldl Scalar.min first - (1.0 : ℚ) ≤ y ∧ y ≤ rest.foldl Scalar.max first + (1.0 : ℚ)
    norm_num
    exact ⟨by linarith, by linarith⟩
  · exact ⟨hlo, hhi⟩

end Domain

/-! ## Domains one after the other -/

/-- What one step of a sequence adds to the domain before it, if that had a span of at least 2. -/
theorem autoDomain_spec (points : List (Point ℚ)) {previous : Option (Domain ℚ)}
    (hprevious : ∀ e, previous = some e → 2 ≤ e.span) :
    2 ≤ (autoDomain points previous).span ∧
      (∀ p ∈ points, (autoDomain points previous).Clears p.value) ∧
      ∀ p e, points = [p] → previous = some e → (autoDomain points previous).span = e.span := by
  match points with
  | [] =>
    refine ⟨?_, by simp, by simp⟩
    show 2 ≤ (5.0 : ℚ) - (-5.0 : ℚ)
    norm_num
  | [p] =>
    rw [autoDomain_single rfl]
    match previous, hprevious with
    | none, _ =>
      have hspan : 2 ≤ (Domain.around p.value).span := by rw [Domain.span_around]; norm_num
      refine ⟨?_, ?_, by simp⟩
      · rw [Domain.span_shiftTo]
        exact hspan
      · simpa using Domain.clears_shiftTo hspan p.value
    | some e, hprevious =>
      have hspan : 2 ≤ e.span := hprevious e rfl
      have hvalid : e.isValid = true := by
        rw [Domain.isValid_rat]
        rw [Domain.span_rat] at hspan
        linarith
      rw [Option.filter_some_pos hvalid, Option.getD_some, Domain.span_shiftTo]
      exact ⟨hspan, by simpa using Domain.clears_shiftTo hspan p.value, by simp⟩
  | p :: q :: points =>
    have hmem := Domain.mem_hull p.value ((q :: points).map Point.value)
    rw [autoDomain_several fun _ _ => rfl]
    have hclears (r) (hr : r ∈ p :: q :: points) := hmem r.value (List.mem_map_of_mem hr)
    have hp := hclears p (by simp)
    refine ⟨(Domain.clears_widened (hp.1.trans hp.2) hp.1 hp.2).1, fun r hr => ?_, by simp⟩
    exact (Domain.clears_widened (hp.1.trans hp.2) (hclears r hr).1 (hclears r hr).2).2

/-- The last list of points is put into the domain that the others led to. -/
theorem domainAfter_concat (lists : List (List (Point ℚ))) (points : List (Point ℚ)) :
    domainAfter (lists ++ [points]) = some (autoDomain points (domainAfter lists)) := by
  simp [domainAfter]

/-- By induction on the lists: neither a move nor a new domain makes the span less than two. -/
theorem two_le_span_domainAfter (lists : List (List (Point ℚ))) :
    ∀ d, domainAfter lists = some d → 2 ≤ d.span := by
  induction lists using List.reverseRecOn with
  | nil => simp [domainAfter]
  | append_singleton lists points ih =>
    intro d hd
    rw [domainAfter_concat, Option.some.injEq] at hd
    rw [← hd]
    exact (autoDomain_spec points ih).1

/-- **Handing the domain on**: after every sequence of lists of points, the domain of the last list has a span of at
least 2, and a distance of at least 1 from both bounds to every point of that list; if the list is a single point
and there was a domain before it, the span is the span of that. -/
theorem domainAfter_clears (lists : List (List (Point ℚ))) (points : List (Point ℚ)) :
    ∃ d, domainAfter (lists ++ [points]) = some d ∧ 2 ≤ d.span ∧
      (∀ p ∈ points, d.min + 1 ≤ p.value ∧ p.value + 1 ≤ d.max) ∧
      ∀ p e, points = [p] → domainAfter lists = some e → d.span = e.span :=
  ⟨_, domainAfter_concat lists points, autoDomain_spec points (two_le_span_domainAfter lists)⟩

/-- Two points, then one beyond the margin of their domain: this is shifted, and as wide as before. -/
example : domainAfter (α := ℚ) [[⟨.zero, 0, 1, false⟩, ⟨.pole, 4, 1, false⟩], [⟨.zero, 10, 1, false⟩]] =
    some ⟨26 / 5, 56 / 5⟩ := by
  decide +kernel

end SignChart
