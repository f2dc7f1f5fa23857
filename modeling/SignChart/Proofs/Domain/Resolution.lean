/-
  Which automatic domains show their points, in floating-point arithmetic.

  Around several points there is a margin of 1 or more, and a single point is shifted into a window that leaves one:
  in exact arithmetic only a domain handed on from before, of a span of at most 1, can lose its point.  Computed bounds
  are off by some units in the last place, which is less than a margin of 1 as long as coordinates have no more than
  fifteen digits before the point, and less than what a span differs from 1 as long as that is not too little:
    1. the margin is 1, or at most a quarter of the span (`marginFor_spec`);
    2. a shifted bound lies where it should, up to one error for each of its three operations (`near_shift`), and so a
       shifted domain is one of three (`Domain.shifted_shiftTo`);
    3. the errors are less than the space there is between the value and the bounds, or than the space that is missing
       (`Domain.shift_room`), and a value is shown exactly if the span is more than 1 (**`Domain.shiftTo_shows_iff`**);
    4. the domain of four units around a value, and the one that covers several, are always wide enough
       (`Domain.around_spec`, `Domain.hull_spec`, `Domain.widened_shows`).
  **`autoDomain_shows_iff`** puts these together.  Beyond its bounds there are domains that end at their point
  (`autoDomain_hides`).
-/
import SignChart.Proofs.Domain.Cases
import SignChart.Proofs.Number.Rounding

namespace SignChart
open HasValue SignChart.Float Float.Model.UnpackedFloat

/-! ## Constants -/

theorem zero_spec : (0.0 : Float).isFinite = true ∧ value (0.0 : Float) = 0 := ⟨rfl, rfl⟩

theorem one_spec : (1.0 : Float).isFinite = true ∧ value (1.0 : Float) = 1 := by
  have hspec := spec_of_unpack (x := 1.0) (s := .positive) (m := 2 ^ 52) (e := -52) (h := by decide) rfl
  exact ⟨hspec.1, hspec.2.trans (by norm_num [Sign.apply])⟩

/-- Half the span of a domain around a single value. -/
theorem two_spec : ((4.0 : Float) / 2.0).isFinite = true ∧ value ((4.0 : Float) / 2.0) = 2 := by
  have hspec := spec_of_unpack (x := 4.0 / 2.0) (s := .positive) (m := 2 ^ 52) (e := -51) (h := by decide) rfl
  exact ⟨hspec.1, hspec.2.trans (by norm_num [Sign.apply])⟩

/-- The share of a span that its margins take is not exactly a fifth. -/
theorem ratio_spec : (0.2 : Float).isFinite = true ∧ value (0.2 : Float) = 3602879701896397 / 2 ^ 54 := by
  have hspec := spec_of_unpack (x := 0.2) (s := .positive) (m := 7205759403792794) (e := -55) (h := by decide) rfl
  exact ⟨hspec.1, hspec.2.trans (by norm_num [Sign.apply])⟩

/-- What bounds coordinates by the distance of a span from 1. -/
theorem scale_spec : (1e14 : Float).isFinite = true ∧ value (1e14 : Float) = 10 ^ 14 := by
  have hspec := spec_of_unpack (x := 1e14) (s := .positive) (m := 6400000000000000) (e := -6) (h := by decide) rfl
  exact ⟨hspec.1, hspec.2.trans (by norm_num [Sign.apply])⟩

/-- The greatest coordinate for which the domains are examined. -/
theorem limit_spec : (1e15 : Float).isFinite = true ∧ value (1e15 : Float) = 10 ^ 15 := by
  have hspec := spec_of_unpack (x := 1e15) (s := .positive) (m := 8000000000000000) (e := -3) (h := by decide) rfl
  exact ⟨hspec.1, hspec.2.trans (by norm_num [Sign.apply])⟩

theorem abs_value_le_limit {x : Float} (h : x.abs ≤ 1e15) : |value x| ≤ 10 ^ 15 :=
  limit_spec.2 ▸ abs_value_le limit_spec.1 h

/-! ## Margins and shifts -/

/-- The ratio is not exactly a fifth, and the product is rounded: a quarter of the span is above both. -/
theorem marginFor_spec {s : Float} (hs : s.isFinite = true) (hbound : |value s| ≤ 10 ^ 16) :
    (marginFor s).isFinite = true ∧ 1 ≤ value (marginFor s) ∧
      (value (marginFor s) = 1 ∨ value (marginFor s) ≤ value s / 4) := by
  obtain ⟨hfinite, hratio⟩ := ratio_spec
  have hproduct : |value s * value (0.2 : Float)| ≤ |value s| := by
    rw [abs_mul, hratio]
    refine mul_le_of_le_one_right (abs_nonneg _) ?_
    rw [abs_le]
    constructor <;> norm_num
  have hnear := near_mul hs hfinite hproduct (by linarith)
  have herror := abs_le.1 hnear.error
  rw [hratio] at herror
  obtain ⟨hor, -, hle⟩ := max_spec (x := s * 0.2) (y := (1.0 : Float)) hnear.isFinite one_spec.1
  rw [one_spec.2] at hle
  have hmargin : marginFor s = Scalar.max (s * 0.2) 1.0 := rfl
  rw [← hmargin] at hor hle
  rcases hor with h | h
  · refine ⟨h ▸ hnear.isFinite, hle, .inr ?_⟩
    rw [h] at hle ⊢
    rcases abs_cases (value s) with ⟨habs, hsign⟩ | ⟨habs, hsign⟩ <;> rw [habs] at herror <;> linarith
  · exact ⟨h ▸ one_spec.1, hle, .inl (h ▸ one_spec.2)⟩

/-- A bound `w` shifted so far that `a`, which is near `A`, comes to lie on `x`. -/
theorem near_shift {w x a : Float} {A K M Q : ℚ} (hw : w.isFinite = true) (hx : x.isFinite = true)
    (ha : Near a A ((K + M + 1 / 256) / 2 ^ 52)) (hA : |A| ≤ K + M) (hX : |value x| ≤ K)
    (hQ : |value w + value x - A| ≤ Q) (hK : K ≤ 2 * 10 ^ 15) (hM' : M ≤ 2 * 10 ^ 15)
    (hQ' : Q ≤ 10 ^ 16) :
    Near (w + (x - a)) (value w + value x - A) ((Q + 3 * K + 2 * M + 5) / 2 ^ 52) := by
  have ha' := abs_le.1 ha.error
  have hA' := abs_le.1 hA
  have hX' := abs_le.1 hX
  have hQ₁ := abs_le.1 hQ
  have hs := near_sub hx ha.isFinite (b := 2 * K + M + 1) (abs_le.2 ⟨by linarith, by linarith⟩) (by linarith)
  have hs' := abs_le.1 hs.error
  have hr := near_add hw hs.isFinite (b := Q + 3) (abs_le.2 ⟨by linarith, by linarith⟩) (by linarith)
  have hr' := abs_le.1 hr.error
  exact ⟨hr.isFinite, abs_le.2 ⟨by linarith, by linarith⟩⟩

namespace Domain

theorem isValid_iff {d : Domain Float} :
    d.isValid = true ↔ d.min.isFinite = true ∧ d.max.isFinite = true ∧ value d.min < value d.max := by
  unfold isValid
  simp only [Bool.and_eq_true, decide_eq_true_iff, and_assoc]
  constructor
  · rintro ⟨hmin, hmax, hlt⟩
    exact ⟨hmin, hmax, (lt_iff hmin hmax).1 hlt⟩
  · rintro ⟨hmin, hmax, hlt⟩
    exact ⟨hmin, hmax, (lt_iff hmin hmax).2 hlt⟩

/-- A domain of finite bounds shows a value that lies strictly between them. -/
theorem shows_iff {d : Domain Float} {x : Float} (hmin : d.min.isFinite = true) (hmax : d.max.isFinite = true)
    (hx : x.isFinite = true) : (d.isValid = true ∧ d.contains x = true) ↔
      value d.min < value x ∧ value x < value d.max := by
  unfold contains
  rw [isValid_iff, Bool.and_eq_true, decide_eq_true_iff, decide_eq_true_iff, lt_iff hmin hx, lt_iff hx hmax]
  exact ⟨fun h => h.2, fun h => ⟨⟨hmin, hmax, h.1.trans h.2⟩, h⟩⟩

/-! ## One point -/

/-- The span and the margin of a valid domain. -/
theorem span_spec {d : Domain Float} {K : ℚ} (hd : d.isValid = true) (hmin : |value d.min| ≤ K)
    (hmax : |value d.max| ≤ K) (hK : K ≤ 2 * 10 ^ 15) :
    Near d.span (value d.max - value d.min) ((value d.max - value d.min + 1 / 256) / 2 ^ 52) ∧
      (marginFor d.span).isFinite = true ∧ 1 ≤ value (marginFor d.span) ∧
      (value (marginFor d.span) = 1 ∨ value (marginFor d.span) ≤ value d.span / 4) ∧
      value (marginFor d.span) ≤ 2 * 10 ^ 15 := by
  obtain ⟨hminFinite, hmaxFinite, hlt⟩ := isValid_iff.1 hd
  have hmin' := abs_le.1 hmin
  have hmax' := abs_le.1 hmax
  have hspan : Near d.span (value d.max - value d.min) ((value d.max - value d.min + 1 / 256) / 2 ^ 52) :=
    near_sub hmaxFinite hminFinite (abs_of_pos (by linarith)).le (by linarith)
  have hspan' := abs_le.1 hspan.error
  obtain ⟨hfinite, hone, hor⟩ := marginFor_spec hspan.isFinite (abs_le.2 ⟨by linarith, by linarith⟩)
  exact ⟨hspan, hfinite, hone, hor, by rcases hor with h | h <;> linarith⟩

/-- A domain `d'` that a domain of coordinates up to `K`, of margin `M` and exact span `S`, was shifted to for the
value `X`.  The bound on the side of the shift keeps the margin but for the errors of three operations; the other
bound is carried along.  Without a shift, the value lay in the window of the margins. -/
inductive Shifted (d : Domain Float) (X K M S : ℚ) (d' : Domain Float) : Prop
  | down (low : Near d'.min (X - M) ((4 * K + 3 * M + 5) / 2 ^ 52))
      (high : Near d'.max (X - M + S) ((4 * K + 3 * M + S + 5) / 2 ^ 52))
  | up (low : Near d'.min (X + M - S) ((4 * K + 3 * M + S + 5) / 2 ^ 52))
      (high : Near d'.max (X + M) ((4 * K + 3 * M + 5) / 2 ^ 52))
  | kept (low : Near d'.min (value d.min) ((K + M + 1) / 2 ^ 52))
      (high : Near d'.max (value d.max) ((K + M + 1) / 2 ^ 52))
      (above : value d.min + M - (K + M + 1) / 2 ^ 52 ≤ X) (below : X ≤ value d.max - M + (K + M + 1) / 2 ^ 52)

theorem shifted_shiftTo {d : Domain Float} {x : Float} {K : ℚ} (hd : d.isValid = true) (hx : x.isFinite = true)
    (hmin : |value d.min| ≤ K) (hmax : |value d.max| ≤ K) (hX : |value x| ≤ K) (hK : K ≤ 2 * 10 ^ 15) :
    Shifted d (value x) K (value (marginFor d.span)) (value d.max - value d.min) (d.shiftTo x) := by
  obtain ⟨-, hfinite, hone, -, hM⟩ := span_spec hd hmin hmax hK
  obtain ⟨hminFinite, hmaxFinite, hlt⟩ := isValid_iff.1 hd
  have hmin' := abs_le.1 hmin
  have hmax' := abs_le.1 hmax
  have hX' := abs_le.1 hX
  have hshift (t : Float) (ht : (if x < d.min + marginFor d.span then x - (d.min + marginFor d.span)
      else if d.max - marginFor d.span < x then x - (d.max - marginFor d.span) else (0.0 : Float)) = t) :
      d.shiftTo x = ⟨d.min + t, d.max + t⟩ := by
    rw [← ht]
    rfl
  generalize marginFor d.span = m at *
  have hA₁ : |value d.min + value m| ≤ K + value m := abs_le.2 ⟨by linarith, by linarith⟩
  have hA₂ : |value d.max - value m| ≤ K + value m := abs_le.2 ⟨by linarith, by linarith⟩
  have hlow := near_add hminFinite hfinite hA₁ (by linarith)
  have hhigh := near_sub hmaxFinite hfinite hA₂ (by linarith)
  by_cases hxlow : x < d.min + m
  · rw [hshift _ (if_pos hxlow)]
    refine .down ?_ ?_
    · exact (near_shift (Q := K + value m) hminFinite hx hlow hA₁ hX
        (abs_le.2 ⟨by linarith, by linarith⟩) hK hM (by linarith)).of_le (by ring) (by linarith)
    · exact (near_shift (Q := K + value m + (value d.max - value d.min)) hmaxFinite hx hlow hA₁ hX
        (abs_le.2 ⟨by linarith, by linarith⟩) hK hM (by linarith)).of_le (by ring) (by linarith)
  by_cases hxhigh : d.max - m < x
  · rw [hshift _ ((if_neg hxlow).trans (if_pos hxhigh))]
    refine .up ?_ ?_
    · exact (near_shift (Q := K + value m + (value d.max - value d.min)) hminFinite hx hhigh hA₂ hX
        (abs_le.2 ⟨by linarith, by linarith⟩) hK hM (by linarith)).of_le (by ring) (by linarith)
    · exact (near_shift (Q := K + value m) hmaxFinite hx hhigh hA₂ hX
        (abs_le.2 ⟨by linarith, by linarith⟩) hK hM (by linarith)).of_le (by ring) (by linarith)
  · rw [hshift _ ((if_neg hxlow).trans (if_neg hxhigh))]
    obtain ⟨hzeroFinite, hzero⟩ := zero_spec
    have hxlow' := not_lt.1 (mt (lt_iff hx hlow.isFinite).2 hxlow)
    have hxhigh' := not_lt.1 (mt (lt_iff hhigh.isFinite hx).2 hxhigh)
    have hlow' := abs_le.1 hlow.error
    have hhigh' := abs_le.1 hhigh.error
    refine .kept ?_ ?_ (by linarith) (by linarith)
    · exact (near_add hminFinite hzeroFinite (b := K) (by rw [hzero, add_zero]; exact hmin) (by linarith)).of_le
        (by rw [hzero, add_zero]) (by linarith)
    · exact (near_add hmaxFinite hzeroFinite (b := K) (by rw [hzero, add_zero]; exact hmax) (by linarith)).of_le
        (by rw [hzero, add_zero]) (by linarith)

/-- The margin, and what a wide domain has beyond it, or a narrow one lacks, are more than the errors of a shift.
The computed span is `s`, and 1 is where the least margin is the whole of it. -/
theorem shift_room {K M S s : ℚ} (hM : 1 ≤ M) (hor : M = 1 ∨ M ≤ s / 4) (hs : |s - S| ≤ (S + 1 / 256) / 2 ^ 52)
    (hK : K ≤ 11 * 10 ^ 14) (hS : 0 < S) (hSK : S ≤ 2 * K) (hres : K + 2 ≤ 6 * 10 ^ 14 * |s - 1|) :
    (4 * K + 3 * M + 5) / 2 ^ 52 < M ∧
      (1 < s → (4 * K + 3 * M + S + 5) / 2 ^ 52 < S - M) ∧
      (s ≤ 1 → (4 * K + 3 * M + S + 5) / 2 ^ 52 < M - S) := by
  have hs' := abs_le.1 hs
  refine ⟨by linarith, fun h => ?_, fun h => ?_⟩
  · rw [abs_of_pos (by linarith)] at hres
    rcases hor with rfl | hor <;> linarith
  · rw [abs_of_nonpos (by linarith)] at hres
    rcases hor with rfl | hor
    · linarith
    · exfalso
      linarith

/-- The domain before must be wider than the least margin.  Both margins have room on it from a span of 2 on only,
but the bounds lie on either side of the value from a span of 1 on. -/
theorem shiftTo_shows_iff {d : Domain Float} {x : Float} {K : ℚ} (hd : d.isValid = true) (hx : x.isFinite = true)
    (hmin : |value d.min| ≤ K) (hmax : |value d.max| ≤ K) (hX : |value x| ≤ K) (hK : K ≤ 11 * 10 ^ 14)
    (hres : K + 2 ≤ 6 * 10 ^ 14 * |value d.span - 1|) :
    ((d.shiftTo x).isValid = true ∧ (d.shiftTo x).contains x = true) ↔ 1 < value d.span := by
  have hshifted := shifted_shiftTo hd hx hmin hmax hX (by linarith)
  obtain ⟨hspan, -, hM, hor, -⟩ := span_spec hd hmin hmax (by linarith)
  have hlt : value d.min < value d.max := (isValid_iff.1 hd).2.2
  have hmin' := abs_le.1 hmin
  have hmax' := abs_le.1 hmax
  obtain ⟨hnear, hwide, hnarrow⟩ := shift_room hM hor hspan.error hK (by linarith) (by linarith) hres
  by_cases hs : 1 < value d.span
  · have hroom := hwide hs
    refine iff_of_true ?_ hs
    cases hshifted with
    | down low high | up low high | kept low high above below =>
      have hlow := abs_le.1 low.error
      have hhigh := abs_le.1 high.error
      rw [shows_iff low.isFinite high.isFinite hx]
      constructor <;> linarith
  · have hroom := hnarrow (not_lt.1 hs)
    refine iff_of_false ?_ hs
    cases hshifted with
    | down low high | up low high | kept low high above below =>
      have hlow := abs_le.1 low.error
      have hhigh := abs_le.1 high.error
      rw [shows_iff low.isFinite high.isFinite hx]
      rintro ⟨hbelow, habove⟩
      linarith

/-- What a bound relative to the distance of a span from 1 says of values, all roundings in it included. -/
theorem value_le_of_abs_le {x s : Float} (hs : s.isFinite = true) (hbound : |value s| ≤ 10 ^ 16)
    (h : x.abs ≤ 1e14 * (s - 1.0).abs) : |value x| ≤ 10001 * 10 ^ 10 * |value s - 1| + 1 / 100 := by
  obtain ⟨hscaleFinite, hscale⟩ := scale_spec
  have hbound' := abs_le.1 hbound
  have hdistance : |value s - 1| ≤ 10 ^ 16 + 1 := abs_le.2 ⟨by linarith, by linarith⟩
  have hsub := near_sub hs one_spec.1 (b := |value s - 1|) (by rw [one_spec.2]) (by linarith)
  rw [one_spec.2] at hsub
  have hsub' := abs_le.1 hsub.error
  have hvalue : value (s - 1.0).abs ≤ |value s - 1| + (|value s - 1| + 1 / 256) / 2 ^ 52 := by
    rw [value_abs hsub.isFinite]
    refine abs_le.2 ⟨?_, ?_⟩
    · linarith [neg_abs_le (value s - 1)]
    · linarith [le_abs_self (value s - 1)]
  have hpos : 0 ≤ value (s - 1.0).abs := by
    rw [value_abs hsub.isFinite]
    exact abs_nonneg _
  have hproduct := near_mul hscaleFinite (isFinite_abs hsub.isFinite)
    (b := 10 ^ 14 * value (s - 1.0).abs) (by rw [hscale, abs_of_nonneg (by positivity)]) (by linarith)
  rw [hscale] at hproduct
  have hproduct' := abs_le.1 hproduct.error
  have hx := abs_value_le hproduct.isFinite h
  linarith

/-- A span is at most twice the greatest coordinate.  So coordinates are not small when the span is near 1, and what
`value_le_of_abs_le` lost is little next to them. -/
theorem shiftTo_shows_iff_of_abs_le {d : Domain Float} {x : Float} (hd : d.isValid = true)
    (hcoordinates : ∀ y ∈ [x, d.min, d.max], y.abs ≤ 1e15 ∧ y.abs ≤ 1e14 * (d.span - 1.0).abs) :
    ((d.shiftTo x).isValid = true ∧ (d.shiftTo x).contains x = true) ↔ (1.0 : Float) < d.span := by
  have hbound (y) (hy : y ∈ [x, d.min, d.max]) : |value y| ≤ 10 ^ 15 := abs_value_le_limit (hcoordinates y hy).1
  obtain ⟨hminFinite, hmaxFinite, hlt⟩ := isValid_iff.1 hd
  have hmin := abs_le.1 (hbound d.min (by simp))
  have hmax := abs_le.1 (hbound d.max (by simp))
  have hspan : Near d.span _ _ := near_sub hmaxFinite hminFinite (abs_of_pos (by linarith)).le (by linarith)
  have hspan' := abs_le.1 hspan.error
  obtain ⟨K, hK⟩ : ∃ K : ℚ, K = 10 ^ 15 ⊓ (10001 * 10 ^ 10 * |value d.span - 1| + 1 / 100) := ⟨_, rfl⟩
  have hle (y) (hy : y ∈ [x, d.min, d.max]) : |value y| ≤ K := by
    rw [hK]
    exact le_inf (hbound y hy) (value_le_of_abs_le hspan.isFinite (abs_le.2 ⟨by linarith, by linarith⟩)
      (hcoordinates y hy).2)
  have hK₁ : K ≤ 10 ^ 15 := hK ▸ inf_le_left
  have hK₂ : K ≤ 10001 * 10 ^ 10 * |value d.span - 1| + 1 / 100 := hK ▸ inf_le_right
  have hmin' := abs_le.1 (hle d.min (by simp))
  have hmax' := abs_le.1 (hle d.max (by simp))
  have hres : K + 2 ≤ 6 * 10 ^ 14 * |value d.span - 1| := by
    rcases abs_cases (value d.span - 1) with ⟨h, -⟩ | ⟨h, -⟩ <;> rw [h] at hK₂ ⊢ <;> linarith
  rw [shiftTo_shows_iff hd (isFinite_of_abs_le limit_spec.1 (hcoordinates x (by simp)).1) (hle d.min (by simp))
    (hle d.max (by simp)) (hle x (by simp)) (by linarith) hres, ← one_spec.2]
  exact (lt_iff one_spec.1 hspan.isFinite).symm

/-- The domain of four units, whose bounds are a quarter of a unit off at most. -/
theorem around_spec {x : Float} (hx : x.isFinite = true) (hX : |value x| ≤ 10 ^ 15) :
    (around x).isValid = true ∧ |value (around x).min| ≤ 10 ^ 15 + 3 ∧ |value (around x).max| ≤ 10 ^ 15 + 3 ∧
      3 ≤ value (around x).span := by
  obtain ⟨htwoFinite, htwo⟩ := two_spec
  have hX' := abs_le.1 hX
  have hmin : Near (around x).min (value x - 2) ((10 ^ 15 + 2 + 1 / 256) / 2 ^ 52) :=
    (near_sub hx htwoFinite (b := 10 ^ 15 + 2) (by rw [htwo]; exact abs_le.2 ⟨by linarith, by linarith⟩)
      (by norm_num)).of_le (by rw [htwo]) le_rfl
  have hmax : Near (around x).max (value x + 2) ((10 ^ 15 + 2 + 1 / 256) / 2 ^ 52) :=
    (near_add hx htwoFinite (b := 10 ^ 15 + 2) (by rw [htwo]; exact abs_le.2 ⟨by linarith, by linarith⟩)
      (by norm_num)).of_le (by rw [htwo]) le_rfl
  have hmin' := abs_le.1 hmin.error
  have hmax' := abs_le.1 hmax.error
  have hspan : Near (around x).span _ _ := near_sub hmax.isFinite hmin.isFinite (b := 5)
    (abs_le.2 ⟨by linarith, by linarith⟩) (by norm_num)
  have hspan' := abs_le.1 hspan.error
  exact ⟨isValid_iff.2 ⟨hmin.isFinite, hmax.isFinite, by linarith⟩, abs_le.2 ⟨by linarith, by linarith⟩,
    abs_le.2 ⟨by linarith, by linarith⟩, by linarith⟩

/-! ## Several points -/

/-- All values lie in the hull; a hull that was widened by 1 both ways has room for the errors of that. -/
theorem hull_spec (first : Float) (rest : List Float) (hfinite : ∀ y ∈ first :: rest, y.isFinite = true)
    (hbound : ∀ y ∈ first :: rest, |value y| ≤ 10 ^ 15) :
    (hull first rest).min.isFinite = true ∧ (hull first rest).max.isFinite = true ∧
      |value (hull first rest).min| ≤ 10 ^ 15 + 2 ∧ |value (hull first rest).max| ≤ 10 ^ 15 + 2 ∧
      ∀ y ∈ first :: rest, value (hull first rest).min ≤ value y ∧ value y ≤ value (hull first rest).max := by
  obtain ⟨hlo, hmin⟩ := foldl_min_spec first rest hfinite
  obtain ⟨hhi, hmax⟩ := foldl_max_spec first rest hfinite
  have hlo' := abs_le.1 (hbound _ hlo)
  have hhi' := abs_le.1 (hbound _ hhi)
  unfold hull
  dsimp only
  split_ifs
  · have hbelow := near_sub (hfinite _ hlo) one_spec.1 (b := 10 ^ 15 + 1)
      (by rw [one_spec.2]; exact abs_le.2 ⟨by linarith, by linarith⟩) (by norm_num)
    have habove := near_add (hfinite _ hhi) one_spec.1 (b := 10 ^ 15 + 1)
      (by rw [one_spec.2]; exact abs_le.2 ⟨by linarith, by linarith⟩) (by norm_num)
    have hbelow' := abs_le.1 hbelow.error
    have habove' := abs_le.1 habove.error
    rw [one_spec.2] at hbelow' habove'
    refine ⟨hbelow.isFinite, habove.isFinite, abs_le.2 ⟨by linarith, by linarith⟩,
      abs_le.2 ⟨by linarith, by linarith⟩, fun y hy => ⟨?_, ?_⟩⟩
    · linarith [hmin y hy]
    · linarith [hmax y hy]
  · exact ⟨hfinite _ hlo, hfinite _ hhi, abs_le.2 ⟨by linarith, by linarith⟩,
      abs_le.2 ⟨by linarith, by linarith⟩, fun y hy => ⟨hmin y hy, hmax y hy⟩⟩

theorem widened_shows {d : Domain Float} {y : Float} (hminFinite : d.min.isFinite = true)
    (hmaxFinite : d.max.isFinite = true) (hmin : |value d.min| ≤ 10 ^ 15 + 2) (hmax : |value d.max| ≤ 10 ^ 15 + 2)
    (hyFinite : y.isFinite = true) (hy : value d.min ≤ value y ∧ value y ≤ value d.max) :
    d.widened.isValid = true ∧ d.widened.contains y = true := by
  have hmin' := abs_le.1 hmin
  have hmax' := abs_le.1 hmax
  have hspan : Near d.span _ _ := near_sub hmaxFinite hminFinite (b := 3 * 10 ^ 15)
    (abs_le.2 ⟨by linarith, by linarith⟩) (by norm_num)
  have hspan' := abs_le.1 hspan.error
  obtain ⟨hmFinite, hone, hor⟩ := marginFor_spec hspan.isFinite (abs_le.2 ⟨by linarith, by linarith⟩)
  have hM : value (marginFor d.span) ≤ 10 ^ 15 := by rcases hor with h | h <;> linarith
  have hlow : Near d.widened.min _ _ := near_sub hminFinite hmFinite
    (b := 10 ^ 15 + 2 + value (marginFor d.span)) (abs_le.2 ⟨by linarith, by linarith⟩) (by linarith)
  have hhigh : Near d.widened.max _ _ := near_add hmaxFinite hmFinite
    (b := 10 ^ 15 + 2 + value (marginFor d.span)) (abs_le.2 ⟨by linarith, by linarith⟩) (by linarith)
  have hlow' := abs_le.1 hlow.error
  have hhigh' := abs_le.1 hhigh.error
  rw [shows_iff hlow.isFinite hhigh.isFinite hyFinite]
  constructor <;> linarith

end Domain

/-- **Domains that show their points**: among coordinates up to 10^15 in magnitude, the automatic domain is finite, in
order and has all points strictly inside, exactly unless a domain at most 1 wide was taken over for a single point.
The coordinates of a domain taken over must not be so great that rounding hides its span's difference from 1. -/
theorem autoDomain_shows_iff (points : List (Point Float)) (previous : Option (Domain Float))
    (hpoints : ∀ p ∈ points, p.value.abs ≤ 1e15)
    (hprevious : ∀ p d, points = [p] → previous = some d → d.isValid = true →
      ∀ x ∈ [p.value, d.min, d.max], x.abs ≤ 1e15 ∧ x.abs ≤ 1e14 * (d.span - 1.0).abs) :
    ((autoDomain points previous).isValid = true ∧
        ∀ p ∈ points, (autoDomain points previous).contains p.value = true) ↔
      ∀ p d, points = [p] → previous = some d → d.isValid = true → (1.0 : Float) < d.span := by
  have hfinite (p) (hp : p ∈ points) : p.value.isFinite = true := isFinite_of_abs_le limit_spec.1 (hpoints p hp)
  have hbound (p) (hp : p ∈ points) : |value p.value| ≤ 10 ^ 15 := abs_value_le_limit (hpoints p hp)
  match points with
  | [] => exact iff_of_true ⟨show (Domain.standard : Domain Float).isValid = true from rfl, by simp⟩ (by simp)
  | [p] =>
    have hx := hfinite p (by simp)
    rw [autoDomain_single hx]
    by_cases hd : ∃ d, previous = some d ∧ d.isValid = true
    · obtain ⟨d, rfl, hd⟩ := hd
      rw [Option.filter_some_pos hd, Option.getD_some]
      simpa [hd] using Domain.shiftTo_shows_iff_of_abs_le hd (hprevious p d rfl rfl hd)
    · have hnone : previous.filter Domain.isValid = none := by
        simpa [Option.filter_eq_none_iff] using hd
      obtain ⟨hvalid, hmin, hmax, hspan⟩ := Domain.around_spec hx (hbound p (by simp))
      rw [hnone, Option.getD_none]
      refine iff_of_true ?_ fun _ d _ hprevious hvalid => absurd ⟨d, hprevious, hvalid⟩ hd
      simpa using (Domain.shiftTo_shows_iff hvalid hx hmin hmax ((hbound p (by simp)).trans (by norm_num))
        (by norm_num) (by rw [abs_of_pos (by linarith)]; linarith)).2 (by linarith)
  | p :: q :: points =>
    have hvalues (x) (h : x ∈ p.value :: (q :: points).map Point.value) : ∃ r ∈ p :: q :: points, r.value = x :=
      List.mem_map.1 h
    obtain ⟨hminFinite, hmaxFinite, hmin, hmax, hmem⟩ := Domain.hull_spec p.value ((q :: points).map Point.value)
      (fun y hy => by obtain ⟨r, hr, rfl⟩ := hvalues y hy; exact hfinite r hr)
      (fun y hy => by obtain ⟨r, hr, rfl⟩ := hvalues y hy; exact hbound r hr)
    have hshows (r) (hr : r ∈ p :: q :: points) := Domain.widened_shows hminFinite hmaxFinite hmin hmax (hfinite r hr)
      (hmem r.value (List.mem_map_of_mem hr))
    rw [autoDomain_several hfinite]
    exact iff_of_true ⟨(hshows p (by simp)).1, fun r hr => (hshows r hr).2⟩ (by simp)

/-- A domain half a unit wide is handed on, and shifted off the point in the middle of it. -/
theorem autoDomain_shows_iff_half :
    ((0.25 : Float).abs ≤ 1e15 ∧
      ∀ x ∈ [(0.25 : Float), 0.0, 0.5], x.abs ≤ 1e15 ∧ x.abs ≤ 1e14 * ((⟨0.0, 0.5⟩ : Domain Float).span - 1.0).abs) ∧
      ¬ ((autoDomain [⟨.zero, (0.25 : Float), 1, false⟩] (some ⟨0.0, 0.5⟩)).isValid = true ∧
        ∀ p ∈ [(⟨.zero, 0.25, 1, false⟩ : Point Float)],
          (autoDomain [⟨.zero, (0.25 : Float), 1, false⟩] (some ⟨0.0, 0.5⟩)).contains p.value = true) := by
  have hpoint : (0.25 : Float).abs ≤ 1e15 := by decide +kernel
  have hcoordinates : ∀ x ∈ [(0.25 : Float), 0.0, 0.5],
      x.abs ≤ 1e15 ∧ x.abs ≤ 1e14 * ((⟨0.0, 0.5⟩ : Domain Float).span - 1.0).abs := by decide +kernel
  refine ⟨⟨hpoint, hcoordinates⟩, fun h => ?_⟩
  have hspan := (autoDomain_shows_iff [⟨.zero, 0.25, 1, false⟩] (some ⟨0.0, 0.5⟩) (by simpa using hpoint) (by
    rintro p d hp hd -
    obtain rfl := List.singleton_inj.1 hp
    obtain rfl := Option.some.inj hd
    exact hcoordinates)).1 h _ _ rfl rfl (by decide +kernel)
  exact absurd hspan (by decide +kernel)

/-- A point that a narrow domain before it hides, a far one whose domain is empty, and one in the widest domains, whose
span overflows. -/
theorem autoDomain_hides :
    ((⟨0.0, 0.5⟩ : Domain Float).isValid = true ∧
      (autoDomain [⟨.zero, (0.0 : Float), 1, false⟩] (some ⟨0.0, 0.5⟩)).contains 0.0 = false) ∧
    (autoDomain [⟨.zero, (1e17 : Float), 1, false⟩] none).isValid = false ∧
    ((⟨-1.7e308, 1.7e308⟩ : Domain Float).isValid = true ∧
      (autoDomain [⟨.zero, (0.0 : Float), 1, false⟩] (some ⟨-1.7e308, 1.7e308⟩)).isValid = false) := by
  decide +kernel

end SignChart
