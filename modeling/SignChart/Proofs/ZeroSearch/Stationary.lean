/-
  The multiplicity that a closer look gives.

  Beside a sample that is exactly zero a scan looks at the function on both sides, and where it keeps its sign the zero
  has the multiplicity 2.  A sample that is only small gets a closer look, which can end at an exact zero as well, but
  the sides of that zero are not looked at: the multiplicity says only how it was reached.

  1. **One distance** (`zeroAround?_cases`).  The values at a distance from the sample can show a zero beside it
     (`ShowsZero`), which is given the multiplicity 1.  If they do not, all that they can find is a zero at the sample
     itself, with the multiplicity 2.

  2. **All distances** (`stationary_multiplicity_iff`).  A zero that the function touches lies beside the sample, where
     the function is not zero.  So it has the multiplicity 1 if there is a distance that shows a zero; otherwise it is a
     minimum of the magnitude, and has the multiplicity 2.

  Seen from 1, the double zero of `(x-0.999)*(x-0.999)` is met exactly by the first distance, and counted once
  (`stationary_multiplicity_lost`).
-/
import SignChart.Proofs.ZeroSearch.Touching

namespace SignChart
variable {f : Float → Float} {x : Float} {c : Candidate Float}

/-! ## One distance -/

/-- The values at the distance `h` from `x` are finite and show a zero: one of them is zero, or they differ in sign and
halving finds a zero between them. -/
structure ShowsZero (f : Float → Float) (x h : Float) : Prop where
  left_finite : Scalar.isFinite (f (x - h)) = true
  right_finite : Scalar.isFinite (f (x + h)) = true
  zero : (f (x - h) == 0.0) = true ∨ (f (x + h) == 0.0) = true ∨
    Sign.of (f (x - h)) ≠ Sign.of (f (x + h)) ∧ (bisect f (x - h) (x + h)).isSome = true

/-- **One distance.**  A zero that is shown beside the sample has the multiplicity 1; without one, all that can be found
is the sample itself, with the multiplicity 2. -/
theorem zeroAround?_cases (f : Float → Float) (x y h : Float) :
    (ShowsZero f x h ∧ ∃ r, zeroAround? f x y h = some ⟨r, 1⟩) ∨
      (¬ ShowsZero f x h ∧ ∀ c, zeroAround? f x y h = some c → c = ⟨x, 2⟩) := by
  unfold zeroAround?
  dsimp only
  split
  · next hinfinite =>
    refine Or.inr ⟨fun hshows => ?_, fun c hc => absurd hc (Option.some_ne_none c).symm⟩
    simp [hshows.left_finite, hshows.right_finite] at hinfinite
  · next hfinite =>
    obtain ⟨hleft, hright⟩ : Scalar.isFinite (f (x - h)) = true ∧ Scalar.isFinite (f (x + h)) = true := by
      simpa using hfinite
    split
    · next hzero => exact Or.inl ⟨⟨hleft, hright, Or.inl hzero⟩, _, rfl⟩
    split
    · next hzero => exact Or.inl ⟨⟨hleft, hright, Or.inr (Or.inl hzero)⟩, _, rfl⟩
    -- neither value is zero, so only a change of sign can show a zero
    have hshowsNot (hchange : ¬ (Sign.of (f (x - h)) ≠ Sign.of (f (x + h)) ∧
        (bisect f (x - h) (x + h)).isSome = true)) : ¬ ShowsZero f x h := by
      intro hshows
      rcases hshows.zero with hzero | hzero | hsome
      · contradiction
      · contradiction
      · exact hchange hsome
    split
    · next hsigns =>
      cases hbisect : bisect f (x - h) (x + h) with
      | some r =>
        exact Or.inl ⟨⟨hleft, hright, Or.inr (Or.inr ⟨hsigns, by rw [hbisect]; rfl⟩)⟩, r, rfl⟩
      | none =>
        refine Or.inr ⟨hshowsNot fun hchange => ?_, fun c hc => absurd hc (Option.some_ne_none c).symm⟩
        rw [hbisect] at hchange
        exact Bool.false_ne_true hchange.2
    · next hsigns =>
      refine Or.inr ⟨hshowsNot fun hchange => hsigns hchange.1, fun c hc => ?_⟩
      split at hc
      · exact (Option.some.inj hc).symm
      · exact absurd hc (Option.some_ne_none c).symm

/-! ## All distances -/

/-- The distances at which a closer look is taken. -/
def probeOffsets : List Float := [touchOffset, 5e-3, 1e-2, 5e-2]

/-- A closer look ends at the first distance that finds something, or else at a minimum. -/
theorem stationaryZero?_cases {y : Float} (hc : stationaryZero? f x y = some c) :
    (∃ h ∈ probeOffsets, zeroAround? f x y h = some c) ∨
      ((∀ h ∈ probeOffsets, zeroAround? f x y h = none) ∧ c.multiplicity = 2) := by
  unfold stationaryZero? at hc
  split at hc
  · next found hfound =>
    rw [← Option.some.inj hc]
    exact Or.inl (List.exists_of_findSome?_eq_some hfound)
  · next hnone =>
    refine Or.inr ⟨List.findSome?_eq_none_iff.1 hnone, ?_⟩
    split at hc
    · obtain ⟨r, -, rfl⟩ := Option.map_eq_some_iff.1 hc
      rfl
    · exact absurd hc (Option.some_ne_none c).symm

/-- What a closer look finds has the multiplicity 1 or 2. -/
theorem multiplicity_of_stationaryZero? {y : Float} (hc : stationaryZero? f x y = some c) :
    c.multiplicity = 1 ∨ c.multiplicity = 2 := by
  rcases stationaryZero?_cases hc with ⟨h, -, hfound⟩ | ⟨-, htwo⟩
  · rcases zeroAround?_cases f x y h with ⟨-, r, hr⟩ | ⟨-, hflat⟩
    · rw [hr] at hfound
      rw [← Option.some.inj hfound]
      exact Or.inl rfl
    · rw [hflat c hfound]
      exact Or.inr rfl
  · exact Or.inr htwo

/-- **A zero that is touched**, where a closer look from a sample that is no zero ends, has the multiplicity that it would
have as an exact sample exactly when no distance shows a zero. -/
theorem stationary_multiplicity_iff (hx : (f x == 0.0) = false) (hc : stationaryZero? f x (f x) = some c)
    (htouches : Touches f c.value) :
    (c.multiplicity = 1 ∨ c.multiplicity = 2) ∧ touchMultiplicity f c.value = 2 ∧
      (c.multiplicity = 2 ↔ ∀ h ∈ probeOffsets, ¬ ShowsZero f x h) := by
  refine ⟨multiplicity_of_stationaryZero? hc, htouches.touchMultiplicity_eq, ?_⟩
  rcases stationaryZero?_cases hc with ⟨h, hmem, hfound⟩ | ⟨hnone, htwo⟩
  · rcases zeroAround?_cases f x (f x) h with ⟨hshows, r, hr⟩ | ⟨-, hflat⟩
    · have hone : c.multiplicity = 1 := by
        rw [hr] at hfound
        rw [← Option.some.inj hfound]
      refine iff_of_false ?_ fun hall => hall h hmem hshows
      rw [hone]
      decide
    · -- the sample is no zero, so the zero that is touched is not the sample
      have hzero := htouches.zero
      rw [hflat c hfound, hx] at hzero
      exact absurd hzero Bool.false_ne_true
  · refine iff_of_true htwo fun h hmem hshows => ?_
    rcases zeroAround?_cases f x (f x) h with ⟨-, r, hr⟩ | ⟨hshowsNot, -⟩
    · rw [hnone h hmem] at hr
      exact absurd hr (Option.some_ne_none _).symm
    · exact hshowsNot hshows

/-! ### A zero that is counted once

Seen from 1, the double zero of `(x-0.999)*(x-0.999)` lies at the first distance. -/

/-- The function. -/
def doubleZero (x : Float) : Float := (x - 0.999) * (x - 0.999)

/-- What a closer look from 1 finds. -/
def probedZero : Candidate Float := ⟨0.999, 1⟩

theorem sample_doubleZero : (doubleZero 1.0 == 0.0) = false := by decide +kernel

theorem found_doubleZero : stationaryZero? doubleZero 1.0 (doubleZero 1.0) = some probedZero := by decide +kernel

theorem touches_doubleZero : Touches doubleZero probedZero.value := by constructor <;> decide +kernel

/-- **A multiplicity that is lost**: the sample at 1 is no zero, a closer look meets the zero at 0.999 exactly and gives it
the multiplicity 1, and the function touches zero there. -/
theorem stationary_multiplicity_lost :
    (doubleZero 1.0 == 0.0) = false ∧ stationaryZero? doubleZero 1.0 (doubleZero 1.0) = some probedZero ∧
      Touches doubleZero probedZero.value ∧ touchMultiplicity doubleZero probedZero.value = 2 ∧
      probedZero.multiplicity ≠ 2 :=
  ⟨sample_doubleZero, found_doubleZero, touches_doubleZero, touches_doubleZero.touchMultiplicity_eq, by decide⟩

/-- `stationary_multiplicity_iff` at the same zero. -/
theorem stationary_multiplicity_doubleZero :
    (doubleZero 1.0 == 0.0) = false ∧ stationaryZero? doubleZero 1.0 (doubleZero 1.0) = some probedZero ∧
      Touches doubleZero probedZero.value ∧
      ((probedZero.multiplicity = 1 ∨ probedZero.multiplicity = 2) ∧
        touchMultiplicity doubleZero probedZero.value = 2 ∧
        (probedZero.multiplicity = 2 ↔ ∀ h ∈ probeOffsets, ¬ ShowsZero doubleZero 1.0 h)) :=
  ⟨sample_doubleZero, found_doubleZero, touches_doubleZero,
    stationary_multiplicity_iff sample_doubleZero found_doubleZero touches_doubleZero⟩

end SignChart
