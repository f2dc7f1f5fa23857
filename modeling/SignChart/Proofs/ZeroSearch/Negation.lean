/-
  A search finds the same zeros in a function and in its negative.

  The two runs go in step: they look at the same places, and their values there differ in sign only.  What a step does
  with a value depends on whether it is finite, whether it is zero, its magnitude, and whether its sign is that of
  another value.  The last is the one point that needs care, because zero counts as positive and NaN as negative: signs
  are compared only of values that are finite and not zero, and then negation turns both of them round
  (`Float.sign_neg_eq_iff`).

  1. **Halving** (`bisect_neg`).  The sign that is kept is turned round at the start, and with it every sign that is
     compared with it; a value that is compared is not small, so it is not zero.

  2. **Minima** (`localMinimum?_neg`).  Only magnitudes are compared.

  3. **A closer look** (`stationaryZero?_neg`) and **scanning** (`candidates_neg`) put these together, and the zeros that
     are new are those of the same candidates (`findZeros_neg`).
-/
import SignChart.Proofs.Number.Negation
import SignChart.ZeroSearch

namespace SignChart
variable (f : Float → Float)

/-! ## Halving -/

/-- A place with its value, for the negated function. -/
def negated (p : Float × Float) : Float × Float := (p.1, -p.2)

/-- The values that the negated function takes between two places are negated. -/
theorem between?_neg (lo hi : Float) : between? (-f) lo hi = (between? f lo hi).map negated := by
  unfold between?
  rw [List.map_findSome?]
  congr 1
  funext t
  by_cases hfinite : Scalar.isFinite (f t) = true <;> simp [negated, hfinite]

/-- A value between two places is one that was found finite. -/
theorem isFinite_of_between? {lo hi t y : Float} (h : between? f lo hi = some (t, y)) : Scalar.isFinite y = true := by
  obtain ⟨s, -, hs⟩ := List.exists_of_findSome?_eq_some h
  dsimp only at hs
  split at hs
  · next hfinite =>
    rw [(Prod.mk.inj (Option.some.inj hs)).2] at hfinite
    exact hfinite
  · exact absurd hs (Option.some_ne_none _).symm

/-- By induction on the steps, the sign that is kept and the values that are compared with it are turned round
together. -/
theorem bisectFrom_neg (limit : Float) (s : Sign) (n : Nat) :
    ∀ lo hi, bisectFrom (-f) limit (.minus * s) n lo hi = bisectFrom f limit s n lo hi := by
  induction n with
  | zero =>
    intro lo hi
    simp only [bisectFrom, Pi.neg_apply, Float.abs_neg]
  | succ n ih =>
    intro lo hi
    rw [bisectFrom, bisectFrom, between?_neg]
    cases hbetween : between? f lo hi with
    | none => rfl
    | some p =>
      obtain ⟨mid, y⟩ := p
      simp only [Option.map_some, negated, Float.abs_neg]
      by_cases hsmall : Scalar.abs y < (1e-7 : Float) ∨ hi - lo < (1e-6 : Float)
      · rw [if_pos hsmall, if_pos hsmall]
      · have hzero : (y == 0.0) = false := by
          refine Bool.eq_false_iff.2 fun hzero => hsmall (Or.inl ?_)
          exact Float.abs_lt_of_beq_zero (by decide) (by decide) hzero
        have hsign : Sign.of (-y) = .minus * s ↔ Sign.of y = s := by
          rw [Float.sign_neg (isFinite_of_between? f hbetween) hzero]
          cases Sign.of y <;> cases s <;> decide
        rw [if_neg hsmall, if_neg hsmall, ih, ih]
        exact if_congr hsign rfl rfl

/-- Halving ends at the same place for a function and its negative. -/
theorem bisect_neg (a b : Float) : bisect (-f) a b = bisect f a b := by
  simp only [bisect, Pi.neg_apply, Float.isFinite_neg, Float.beq_zero_neg, Float.abs_neg]
  refine ite_congr rfl (fun _ => rfl) fun hfinite => ?_
  refine ite_congr rfl (fun _ => rfl) fun hzero => ?_
  refine ite_congr rfl (fun _ => rfl) fun _ => ?_
  have hlo : Scalar.isFinite (f (Scalar.min a b)) = true := by
    rw [Bool.or_eq_true, not_or] at hfinite
    simpa using hfinite.1
  rw [Float.sign_neg hlo (Bool.eq_false_iff.2 hzero), bisectFrom_neg]

/-! ## Minima of the magnitude -/

/-- A minimum is narrowed down by magnitudes, and these are the same. -/
theorem polishFrom_neg (n : Nat) : ∀ lo hi, polishFrom (-f) n lo hi = polishFrom f n lo hi := by
  induction n with
  | zero => exact fun lo hi => rfl
  | succ n ih =>
    intro lo hi
    simp only [polishFrom, Pi.neg_apply, Float.abs_neg, ih]

theorem minimumWithin?_neg (x width : Float) : minimumWithin? (-f) x width = minimumWithin? f x width := by
  simp only [minimumWithin?, Pi.neg_apply, Float.abs_neg, polishFrom_neg]

/-- The same minimum of the magnitude is found near a sample. -/
theorem localMinimum?_neg (x : Float) : localMinimum? (-f) x = localMinimum? f x := by
  unfold localMinimum?
  rw [funext (minimumWithin?_neg f x)]

/-! ## A closer look -/

/-- Whether the signs on the two sides of a zero are the same does not depend on which they are. -/
theorem touchMultiplicity_neg (x : Float) : touchMultiplicity (-f) x = touchMultiplicity f x := by
  simp only [touchMultiplicity, Pi.neg_apply, Float.isFinite_neg, Float.beq_zero_neg]
  refine if_congr ?_ rfl rfl
  refine and_congr_right fun hleft => and_congr_right fun hright => ?_
  refine and_congr_right fun hleftZero => and_congr_right fun hrightZero => ?_
  exact Float.sign_neg_eq_iff hleft (by simpa using hleftZero) hright (by simpa using hrightZero)

/-- The same zero is found around a value that is nearly zero. -/
theorem zeroAround?_neg (x y h : Float) : zeroAround? (-f) x (-y) h = zeroAround? f x y h := by
  simp only [zeroAround?, Pi.neg_apply, Float.isFinite_neg, Float.beq_zero_neg, Float.abs_neg, bisect_neg,
    Float.abs_neg_sub_neg_div]
  refine ite_congr rfl (fun _ => rfl) fun hfinite => ?_
  refine ite_congr rfl (fun _ => rfl) fun hleft => ?_
  refine ite_congr rfl (fun _ => rfl) fun hright => ?_
  obtain ⟨hl, hr⟩ : Scalar.isFinite (f (x - h)) = true ∧ Scalar.isFinite (f (x + h)) = true := by
    simpa using hfinite
  exact if_congr (not_congr (Float.sign_neg_eq_iff hl (Bool.eq_false_iff.2 hleft) hr (Bool.eq_false_iff.2 hright)))
    rfl rfl

/-- The same zero with the same multiplicity is found where both functions stay still. -/
theorem stationaryZero?_neg (x y : Float) : stationaryZero? (-f) x (-y) = stationaryZero? f x y := by
  simp only [stationaryZero?, funext (zeroAround?_neg f x y), Float.abs_neg, localMinimum?_neg]

/-! ## Scanning -/

/-- A sample shows the same by itself for both functions. -/
theorem atSample_neg (x y : Float) : atSample (-f) x (-y) = atSample f x y := by
  simp only [atSample, Float.beq_zero_neg, Float.abs_neg, touchMultiplicity_neg, stationaryZero?_neg]

/-- Two finite samples of the negated function change their sign exactly if those of the function do, and the same
candidates lie between them. -/
theorem betweenSamples_neg {prev : Option (Float × Float)} (hprev : ∀ p ∈ prev, Scalar.isFinite p.2 = true) (x : Float)
    {y : Float} (hy : Scalar.isFinite y = true) :
    betweenSamples (-f) (prev.map negated) x (-y) = betweenSamples f prev x y := by
  cases prev with
  | none => rfl
  | some p =>
    obtain ⟨px, py⟩ := p
    have hfinite : Scalar.isFinite py = true := hprev (px, py) (Option.mem_some_self _)
    simp only [Option.map_some, negated, betweenSamples, Float.beq_zero_neg, bisect_neg]
    cases hpy : py == 0.0 with
    | true => simp only [Bool.true_or, if_true]
    | false =>
      cases hyzero : y == 0.0 with
      | true => simp only [Bool.true_or, Bool.or_true, if_true]
      | false =>
        simp only [Bool.false_or, decide_eq_true_eq]
        exact if_congr (Float.sign_neg_eq_iff hfinite hpy hy hyzero) rfl rfl

/-- **Step and run.**  From samples that differ in sign only the two scans show the same. -/
theorem scan_neg (xs : List Float) :
    ∀ prev : Option (Float × Float), (∀ p ∈ prev, Scalar.isFinite p.2 = true) →
      scan (-f) (prev.map negated) xs = scan f prev xs := by
  induction xs with
  | nil => exact fun _ _ => rfl
  | cons x rest ih =>
    intro prev hprev
    rw [scan, scan]
    simp only [Pi.neg_apply, Float.isFinite_neg]
    refine ite_congr rfl (fun hfinite => ?_) fun _ => ?_
    · have hrest := ih (some (x, f x)) fun p hp => by rw [← Option.some.inj hp]; exact hfinite
      rw [atSample_neg, betweenSamples_neg f hprev x hfinite, ← hrest]
      rfl
    · exact ih none fun p hp => absurd hp (Option.not_mem_none p)

/-- The scan collects the same candidates from both functions. -/
theorem candidates_neg (ranges : List Float) : candidates (-f) ranges = candidates f ranges := by
  have hscan : (fun range => scan (-f) none (grid range)) = fun range => scan f none (grid range) :=
    funext fun range => scan_neg f (grid range) none fun p hp => absurd hp (Option.not_mem_none p)
  rw [candidates, candidates, hscan]

/-- Of a value it is only the magnitude that says whether it is zero. -/
theorem vanishes_neg : vanishes (-f) = vanishes f := by
  have hneg : -f = (fun y => -y) ∘ f := rfl
  have hfinite : Scalar.isFinite ∘ (fun y : Float => -y) = Scalar.isFinite := funext Float.isFinite_neg
  have hvalues : ((grid 10.0).map (-f)).filter Scalar.isFinite =
      (((grid 10.0).map f).filter Scalar.isFinite).map fun y => -y := by
    rw [hneg, ← List.map_map, List.filter_map, hfinite]
  simp only [vanishes, hvalues, List.isEmpty_map, List.all_map, Function.comp_def, Float.beq_zero_neg]

/-- **Negation.**  The search finds the same zeros in a function and in its negative: the same values with the same
multiplicities, in the same order. -/
theorem findZeros_neg (existing : List (Point Float)) : findZeros (fun x => -f x) existing = findZeros f existing := by
  show findZeros (-f) existing = findZeros f existing
  rw [findZeros, findZeros, vanishes_neg, candidates_neg]

end SignChart
