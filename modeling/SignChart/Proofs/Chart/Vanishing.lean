/-
  The chart of a function that vanishes.

  A function that is zero wherever it is finite among the first samples has no zeros to search for, as every place
  is one.  `vanishes` sees this, and the search gives up.  What it does not stop is taking the expression apart:
  `0*(x-1)` has the factor `x-1`, the constant before it counts for its sign only, and the root of the factor becomes
  a critical point of a function that has none (`vanishing_chart_not_empty`).

  1. **Points.**  Without a search the points are those of the factors (`criticalPoints_of_vanishes`), and there is one
     of these exactly when a token that can be taken apart has a linear part with a finite root
     (`points_eq_nil_iff`).

  2. **The chart.**  Where there are no points, the chart has the standard domain.  Its one sign is taken at 0 or, where
     the function is not finite, at four other places; all five are among the samples, so that the sign is that of a
     zero (`sampleSign_of_vanishes`).  Hence the chart is blank, or it has a point that a factor shows, and nothing
     lies between (`vanishing_chart_empty_iff`).
-/
import SignChart.Proofs.Chart.Shape
import SignChart.Proofs.Number.Magnitude
import SignChart.Proofs.Number.Rounding

namespace SignChart
open Float.Model Float.Model.UnpackedFloat

/-! ## Points -/

/-- Taking the text apart shows a critical point: a token that has a product has a linear part with a finite root. -/
def ShowsPoint (text : Text) : Prop :=
  ∃ op token part g, (op, token) ∈ factorTokens text ∧ product? token ≠ none ∧
    part ∈ tokenParts (stripParens token) ∧ linearFactor? (stripParens part) = some g ∧
    Scalar.isFinite g.root = true

theorem mem_finiteFactors_iff {text : Text} {f : Factor Float} :
    f ∈ finiteFactors text ↔ ∃ op token part g, (op, token) ∈ factorTokens text ∧ product? token ≠ none ∧
      part ∈ tokenParts (stripParens token) ∧ linearFactor? (stripParens part) = some g ∧
      Scalar.isFinite g.root = true ∧ f = g.place op.pointType := by
  constructor
  · intro hf
    obtain ⟨hmem, hfinite⟩ := List.mem_filter.1 hf
    rw [factorize_factors] at hmem
    obtain ⟨⟨op, token⟩, htoken, hf⟩ := List.mem_flatMap.1 hmem
    replace hf : f ∈ tokenFactors op token := hf
    unfold tokenFactors at hf
    split at hf
    · next p hp =>
      obtain ⟨g, hg, rfl⟩ := List.mem_map.1 hf
      rw [factors_of_product? hp] at hg
      obtain ⟨part, hpart, hlinear⟩ := List.mem_filterMap.1 hg
      exact ⟨op, token, part, g, htoken, by rw [hp]; exact Option.some_ne_none p, hpart, hlinear, hfinite, rfl⟩
    · exact absurd hf List.not_mem_nil
  · rintro ⟨op, token, part, g, htoken, hp, hpart, hg, hfinite, rfl⟩
    exact List.mem_filter.2 ⟨(holds_of_linearFactor? htoken hpart hg hp).1, hfinite⟩

theorem showsPoint_iff {text : Text} : ShowsPoint text ↔ finiteFactors text ≠ [] := by
  rw [Ne, List.eq_nil_iff_forall_not_mem, not_forall_not]
  simp only [mem_finiteFactors_iff]
  constructor
  · rintro ⟨op, token, part, g, htoken, hp, hpart, hg, hfinite⟩
    exact ⟨_, op, token, part, g, htoken, hp, hpart, hg, hfinite, rfl⟩
  · rintro ⟨_, op, token, part, g, htoken, hp, hpart, hg, hfinite, -⟩
    exact ⟨op, token, part, g, htoken, hp, hpart, hg, hfinite⟩

/-- A point stands at the first factor of each key, so there is none exactly when there is no factor. -/
theorem points_eq_nil_iff {text : Text} : (factorize text).points = [] ↔ ¬ ShowsPoint text := by
  rw [showsPoint_iff, not_not]
  constructor
  · intro hpoints
    cases hfactors : finiteFactors text with
    | nil => rfl
    | cons f rest =>
      have hfirst : firstPlace? text f.point.place.key = some f.point.place := by
        rw [firstPlace?, hfactors, List.map_cons, List.find?_cons_of_pos (by simp)]
      have hmem := mem_places_points.2 hfirst
      rw [hpoints] at hmem
      exact absurd hmem List.not_mem_nil
  · intro hfactors
    rw [← List.map_eq_nil_iff (f := Point.place), List.eq_nil_iff_forall_not_mem]
    intro x hx
    have hfirst := mem_places_points.1 hx
    rw [firstPlace?, hfactors] at hfirst
    exact absurd hfirst (Option.some_ne_none x).symm

theorem mergePoints_nil {points : List (Point Float)} (h : (points.map Point.place).Pairwise fun a b => a.le b) :
    mergePoints points [] = points :=
  List.mergeSort_of_pairwise (List.pairwise_map.1 h)

/-- **Points.**  Nothing is searched for, so all points come from factors. -/
theorem criticalPoints_of_vanishes {f : Float → Float} (hf : vanishes f = true) (text : Text) :
    criticalPoints (factorize text) f = (factorize text).points := by
  have hnone : findZeros f (factorize text).points = [] := by rw [findZeros, if_pos hf]
  have hcases : criticalPoints (factorize text) f =
      if (factorize text).points = [] ∨ (factorize text).unparsed ≠ [] then
        mergePoints (factorize text).points (findZeros f (factorize text).points)
      else (factorize text).points := rfl
  have hsorted : ((factorize text).points.map Point.place).Pairwise fun a b => a.le b := places_sortPoints_sorted _
  rw [hcases, hnone, mergePoints_nil hsorted, ite_self]

/-! ## The sign -/

/-- What is equal to zero counts as positive. -/
theorem sign_of_beq_zero {y : Float} (h : (y == 0.0) = true) : Sign.of y = .plus := by
  have hfinite := Float.isFinite_of_beq_zero h
  have hzero : (0.0 : Float).isFinite = true := by decide
  have hcompare : (y.toModel.unpack.compare (0.0 : Float).toModel.unpack == some .eq) = true := h
  rw [compare_unpacked (packable_unpack hfinite) (packable_unpack hzero), beq_iff_eq, Option.some.injEq,
    compare_eq_iff_eq] at hcompare
  exact if_pos ((Float.le_iff hzero hfinite).2 hcompare.ge)

theorem beq_zero_of_vanishes {f : Float → Float} (hf : vanishes f = true) {i : Nat} (hi : i ≤ gridSteps)
    (hfinite : Scalar.isFinite (f (gridPoint 10.0 i)) = true) : (f (gridPoint 10.0 i) == 0.0) = true := by
  have hgrid : gridPoint (10.0 : Float) i ∈ grid 10.0 := List.mem_map.2 ⟨i, List.mem_range.2 (by omega), rfl⟩
  have hall : (((grid 10.0).map f).filter Scalar.isFinite).all (· == (0.0 : Float)) = true := by
    rw [vanishes, Bool.and_eq_true] at hf
    exact hf.2
  have hmem : f (gridPoint 10.0 i) ∈ ((grid 10.0).map f).filter Scalar.isFinite :=
    List.mem_filter.2 ⟨List.mem_map_of_mem hgrid, hfinite⟩
  exact List.all_eq_true.1 hall _ hmem

/-- The places where the sign of a chart without points is looked for are places of the first grid. -/
theorem standard_samples :
    sampleBetween (Domain.standard : Domain Float).min Domain.standard.max ::
        ([0.25, 0.75, 0.1, 0.9] : List Float).map (fun ratio =>
          (Domain.standard : Domain Float).min + (Domain.standard.max - Domain.standard.min) * ratio) =
      [300, 225, 375, 180, 420].map (gridPoint 10.0) := by
  decide +kernel

/-- **The sign.**  A function that vanishes has the sign of zero between the bounds of the standard domain. -/
theorem sampleSign_of_vanishes {f : Float → Float} (hf : vanishes f = true) :
    sampleSign f Domain.standard.min Domain.standard.max none = .plus := by
  have hbounds : (Scalar.isFinite (Domain.standard : Domain Float).min &&
      Scalar.isFinite (Domain.standard : Domain Float).max) = true := by decide
  unfold sampleSign
  dsimp only
  rw [if_pos hbounds, standard_samples]
  split
  · next y hy =>
    obtain ⟨x, hx, rfl⟩ := List.mem_map.1 (List.mem_of_find?_eq_some hy)
    obtain ⟨i, hi, rfl⟩ := List.mem_map.1 hx
    have hsteps : ∀ i ∈ [300, 225, 375, 180, 420], i ≤ gridSteps := by decide
    exact sign_of_beq_zero (beq_zero_of_vanishes hf (hsteps i hi) (List.find?_some hy))
  · rfl

/-! ## The chart -/

/-- A chart that shows nothing: no points, one segment and no rows. -/
def Chart.IsEmpty (c : Chart) : Prop := c.points = [] ∧ c.segments.length = 1 ∧ c.rows = []

/-- Without points there are no rows and one segment. -/
theorem Chart.WellShaped.isEmpty_iff {c : Chart} (h : c.WellShaped) : c.IsEmpty ↔ c.points = [] := by
  refine ⟨And.left, fun hnil => ⟨hnil, ?_, h.no_rows ?_⟩⟩
  · rw [h.segments, hnil]
    rfl
  · rw [hnil]
    decide

/-- The blank chart of a text: positive all over the standard domain. -/
def Chart.blank (text : Text) : Chart where
  points := []
  segments := [.plus]
  domain := .standard
  expression := text
  rows := []

theorem ofFunction_isEmpty_iff {text : Text} {f : Float → Float} (hf : vanishes f = true)
    (previous : Option (Domain Float)) : (Chart.ofFunction text f previous).IsEmpty ↔ ¬ ShowsPoint text := by
  rw [(wellShaped_ofFunction text f previous).isEmpty_iff, ← points_eq_nil_iff, ← criticalPoints_of_vanishes hf text]
  rfl

/-- **The chart of a function that vanishes** is empty exactly when taking the text apart shows no critical point.  It
is the blank chart then, whatever the domain before it; otherwise its points are those that the factors show. -/
theorem vanishing_chart_empty_iff {text : Text} {f : Float → Float} (hf : vanishes f = true)
    (previous : Option (Domain Float)) :
    ((Chart.ofFunction text f previous).IsEmpty ↔ ¬ ShowsPoint text) ∧
      (¬ ShowsPoint text → Chart.ofFunction text f previous = .blank text) ∧
      (Chart.ofFunction text f previous).points = (factorize text).points := by
  have hpoints := criticalPoints_of_vanishes hf text
  have hempty : (Chart.ofFunction text f previous).IsEmpty ↔ ¬ ShowsPoint text := ofFunction_isEmpty_iff hf previous
  refine ⟨hempty, fun hshows => ?_, hpoints⟩
  obtain ⟨hnil, -, hrows⟩ := hempty.2 hshows
  have hdomain : autoDomain (criticalPoints (factorize text) f) previous = .standard := by
    rw [show criticalPoints (factorize text) f = [] from hnil]
    rfl
  have hsegments : intervalSigns f (criticalPoints (factorize text) f)
      (autoDomain (criticalPoints (factorize text) f) previous) = [.plus] := by
    rw [hdomain, show criticalPoints (factorize text) f = [] from hnil]
    exact congrArg (fun s => [s]) (sampleSign_of_vanishes hf)
  exact congr (congr (congr (congrArg (fun points segments domain rows =>
    (⟨points, segments, domain, text, rows⟩ : Chart)) hnil) hsegments) hdomain) hrows

/-! ### A factor beside a zero

The product `0*(x-1)` is zero everywhere, and its second factor shows a zero at 1 all the same. -/

theorem Float.beq_zero_of_zero_mul {y : Float} (h : (0.0 * y).isFinite = true) : (0.0 * y == 0.0) = true := by
  have hunpack : (0.0 * y).toModel.unpack = UnpackedFloat.unpack Format.binary64
      (UnpackedFloat.pack _ (UnpackedFloat.mul _ (.zero .positive) y.toModel.unpack)) := rfl
  have hzero (s : UnpackedFloat.Sign) : ((UnpackedFloat.unpack Format.binary64
      (UnpackedFloat.pack _ (.zero s))).compare (.zero .positive) == some .eq) = true := by cases s <;> rfl
  replace h : (0.0 * y).toModel.unpack.isFinite = true := h
  show ((0.0 * y).toModel.unpack.compare (.zero .positive) == some .eq) = true
  rw [hunpack] at h ⊢
  -- zero times an infinity is no number, and that is not finite
  cases hy : y.toModel.unpack with
  | notANumber => rw [hy] at h; exact absurd h (by decide)
  | infinity s => rw [hy] at h; cases s <;> exact absurd h (by decide)
  | zero s => exact hzero _
  | finite s m e hm => exact hzero _

/-- A product with zero vanishes, if one of the samples of the other factor is finite. -/
theorem vanishes_zero_mul (g : Float → Float) {i : Nat} (hi : i ≤ gridSteps)
    (hfinite : (0.0 * g (gridPoint 10.0 i)).isFinite = true) : vanishes (fun x => 0.0 * g x) = true := by
  have hgrid : gridPoint (10.0 : Float) i ∈ grid 10.0 := List.mem_map.2 ⟨i, List.mem_range.2 (by omega), rfl⟩
  have hmem : 0.0 * g (gridPoint 10.0 i) ∈ ((grid 10.0).map fun x => 0.0 * g x).filter Scalar.isFinite :=
    List.mem_filter.2 ⟨List.mem_map_of_mem hgrid, hfinite⟩
  rw [vanishes, Bool.and_eq_true, Bool.not_eq_true', List.isEmpty_eq_false_iff, List.all_eq_true]
  refine ⟨List.ne_nil_of_mem hmem, fun y hy => ?_⟩
  obtain ⟨hy, hfinite⟩ := List.mem_filter.1 hy
  obtain ⟨x, -, rfl⟩ := List.mem_map.1 hy
  exact Float.beq_zero_of_zero_mul hfinite

/-- The product. -/
def nothingTimes : Text := "0*(x-1)".toList

theorem compile_nothingTimes : ∃ f, compile nothingTimes = .ok f ∧ f.call = fun x => 0.0 * (x - 1.0) := by
  have htokens : (Lexer.ofText nothingTimes).tokens =
      [.ok ⟨.number, 0, ['0']⟩, .ok ⟨.op .mul, 1, ['*']⟩, .ok ⟨.openParen, 2, ['(']⟩, .ok ⟨.ident, 3, ['x']⟩,
        .ok ⟨.op .sub, 4, ['-']⟩, .ok ⟨.number, 5, ['1']⟩, .ok ⟨.closeParen, 6, [')']⟩] := by cbv
  have hparse : parse standardTable nothingTimes = .ok
      [⟨.push 0.0, 0, ['0']⟩, ⟨.load ['x'], 3, ['x']⟩, ⟨.push 1.0, 5, ['1']⟩, ⟨.operate .sub, 4, ['-']⟩,
        ⟨.operate .mul, 1, ['*']⟩] := by
    rw [parse, htokens]; rfl
  exact ⟨_, by rw [compile, hparse]; rfl, rfl⟩

theorem vanishes_nothingTimes : vanishes (fun x => 0.0 * (x - 1.0)) = true :=
  vanishes_zero_mul (· - 1.0) (Nat.zero_le _) (by decide +kernel)

/-- The second factor. -/
def unitLineToken : Text := "(x-1)".toList

theorem showsPoint_nothingTimes : ShowsPoint nothingTimes := by
  have hstrip : stripParens unitLineToken = unitLine := by cbv
  have hparts : tokenParts unitLine = [unitLine] := by decide
  have hlinear : linearFactor? (stripParens unitLine) = some ⟨1.0, 1, .plus, unitLine⟩ := by
    rw [stripParens_unitLine, linearFactor?_unitLine]
  have hpart : unitLine ∈ tokenParts (stripParens unitLineToken) := by
    rw [hstrip, hparts]
    exact List.mem_singleton_self _
  refine ⟨.mul, unitLineToken, unitLine, _, by decide, ?_, hpart, hlinear, by decide⟩
  rw [Ne, product?_eq_none_iff, hstrip, hparts]
  rintro (hnil | ⟨part, hpart, hunrecognized, -⟩)
  · exact absurd hnil (by decide)
  · rw [List.mem_singleton.1 hpart, hlinear] at hunrecognized
    exact absurd hunrecognized (Option.some_ne_none _)

/-- **A vanishing function with a zero in its chart**: `0*(x-1)`. -/
theorem vanishing_chart_not_empty :
    canonical nothingTimes = nothingTimes ∧ ∃ f, compile nothingTimes = .ok f ∧ vanishes f.call = true ∧
      ∀ previous, ¬ (Chart.ofFunction nothingTimes f.call previous).IsEmpty := by
  obtain ⟨f, hf, hcall⟩ := compile_nothingTimes
  have hvanishes : vanishes f.call = true := by rw [hcall, vanishes_nothingTimes]
  refine ⟨by cbv, f, hf, hvanishes, fun previous hempty => ?_⟩
  exact (ofFunction_isEmpty_iff hvanishes previous).1 hempty showsPoint_nothingTimes

/-- `vanishing_chart_empty_iff` at the same product. -/
theorem vanishing_chart_nothingTimes :
    ∃ f, compile nothingTimes = .ok f ∧ vanishes f.call = true ∧
      ((Chart.ofFunction nothingTimes f.call none).IsEmpty ↔ ¬ ShowsPoint nothingTimes) ∧
      (¬ ShowsPoint nothingTimes → Chart.ofFunction nothingTimes f.call none = .blank nothingTimes) ∧
      (Chart.ofFunction nothingTimes f.call none).points = (factorize nothingTimes).points := by
  obtain ⟨f, hf, hcall⟩ := compile_nothingTimes
  have hvanishes : vanishes f.call = true := by rw [hcall, vanishes_nothingTimes]
  exact ⟨f, hf, hvanishes, vanishing_chart_empty_iff hvanishes none⟩

end SignChart
