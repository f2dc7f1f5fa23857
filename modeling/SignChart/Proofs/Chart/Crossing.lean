/-
  Where a row changes its sign, in exact arithmetic.

  The signs of a row are computed interval by interval, each at one sample, and nothing in that computation knows which
  point the row belongs to.  That the sign changes at the column of the row's own point, and at no other, takes three
  facts:

  1. **Samples.**  Between two boundaries that differ the sample lies strictly inside, also where the middle would be
     too close to one of them and the sample is moved away from it (`sampleBetween_rat`).

  2. **Columns.**  The boundaries of points in order are in order themselves (`boundaries_sorted`), and the interval of
     column `i` reaches from boundary `i` to the next one (`getElem?_intervals`).  So the samples of the columns up to
     `j` are below the value of point `j`, and all others above it (`lt_of_column_le`, `lt_of_lt_column`).

  3. **Rows.**  A row of even multiplicity does not look at the side, and one of odd multiplicity turns over what it has
     on the right (`turnsAt_rowSegments`).

  **`rows_turn`** says so of the rows of factors and of those made from a position.
-/
import SignChart.Proofs.Chart.Shape
import SignChart.Proofs.Number.Value
import Mathlib.Tactic.NormNum
import Mathlib.Tactic.Linarith

namespace SignChart
open Exact

/-- The other sign. -/
def Sign.opposite : Sign → Sign
  | .minus => .plus
  | .plus => .minus

/-- A row of a chart with `n` points that changes its sign at the column of point `j`, if at all: its sign is `s` to the
right of that point, and to the left of it as well if the multiplicity is even. -/
structure Row.TurnsAt {α : Type} (r : Row α) (n j : Nat) (s : Sign) : Prop where
  length : r.segments.length = n + 1
  even : r.multiplicity % 2 = 0 → ∀ t ∈ r.segments, t = s
  left : r.multiplicity % 2 = 1 → ∀ i t, i ≤ j → r.segments[i]? = some t → t = s.opposite
  right : r.multiplicity % 2 = 1 → ∀ i t, j < i → r.segments[i]? = some t → t = s

/-! ## Samples -/

/-- A share of a gap lies inside it. -/
theorem inside_of_share {left right share : ℚ} (h : left < right) (h0 : 0 < share) (h1 : share < 1) :
    left < left + (right - left) * share ∧ left + (right - left) * share < right := by
  have hgap : 0 < right - left := sub_pos.2 h
  have hlow : 0 < (right - left) * share := mul_pos hgap h0
  have hhigh : (right - left) * share < right - left := mul_lt_of_lt_one_right hgap h1
  exact ⟨by linarith, by linarith⟩

/-- **Samples** lie strictly inside. -/
theorem sampleBetween_rat {left right : ℚ} (h : left < right) :
    left < sampleBetween left right ∧ sampleBetween left right < right := by
  unfold sampleBetween
  simp only [isFinite_rat]
  split_ifs
  · exact inside_of_share h (by norm_num) (by norm_num)
  · -- three tenths from the right are seven tenths from the left
    have hshare : right - (right - left) * (0.3 : ℚ) = left + (right - left) * (7 / 10) := by ring
    rw [hshare]
    exact inside_of_share h (by norm_num) (by norm_num)
  · rw [div_eq_mul_inv]
    exact inside_of_share h (by norm_num) (by norm_num)

/-! ## Columns -/

/-- The interval of column `i` reaches from boundary `i` to the next one. -/
theorem getElem?_intervals {α : Type} (bs : List α) :
    ∀ {i : Nat} {x y : α}, (intervals bs)[i]? = some (x, y) → bs[i]? = some x ∧ bs[i + 1]? = some y := by
  fun_induction intervals bs with
  | case1 a b rest ih =>
    intro i x y h
    cases i with
    | zero =>
      obtain ⟨rfl, rfl⟩ : a = x ∧ b = y := by simpa using h
      exact ⟨rfl, rfl⟩
    | succ i => exact ih (by simpa using h)
  | case2 bs hshort =>
    intro i x y h
    exact absurd h (by simp)

variable {points : List (Point ℚ)} {d : Domain ℚ}

/-- Points in order, strictly between the bounds of a domain. -/
structure OrderedWithin (points : List (Point ℚ)) (d : Domain ℚ) : Prop where
  increasing : (points.map Point.value).Pairwise (· < ·)
  above : ∀ p ∈ points, d.min < p.value
  below : ∀ p ∈ points, p.value < d.max

theorem boundaries_sorted (h : OrderedWithin points d) {p : Point ℚ} (hp : p ∈ points) :
    (boundaries points d).Pairwise (· < ·) := by
  have hwide : d.min < d.max := (h.above p hp).trans (h.below p hp)
  rw [boundaries, List.cons_append, List.pairwise_cons, List.pairwise_append]
  refine ⟨?_, h.increasing, List.pairwise_singleton .., ?_⟩
  · intro x hx
    rcases List.mem_append.1 hx with hx | hx
    · obtain ⟨q, hq, rfl⟩ := List.mem_map.1 hx
      exact h.above q hq
    · exact List.mem_singleton.1 hx ▸ hwide
  · intro x hx y hy
    obtain ⟨q, hq, rfl⟩ := List.mem_map.1 hx
    exact List.mem_singleton.1 hy ▸ h.below q hq

theorem getElem?_boundaries {j : Nat} {p : Point ℚ} (hp : points[j]? = some p) (d : Domain ℚ) :
    (boundaries points d)[j + 1]? = some p.value := by
  obtain ⟨hj, rfl⟩ := List.getElem?_eq_some_iff.1 hp
  have hmap : j < (points.map Point.value).length := by simpa using hj
  rw [boundaries, List.cons_append, List.getElem?_cons_succ, List.getElem?_append_left hmap, List.getElem?_map, hp]
  rfl

section
variable {bs : List ℚ} {i j : Nat} {x y v : ℚ}

theorem le_of_index_le (hbs : bs.Pairwise (· < ·)) (hx : bs[i]? = some x) (hy : bs[j]? = some y) (hij : i ≤ j) :
    x ≤ y := by
  obtain ⟨hi, rfl⟩ := List.getElem?_eq_some_iff.1 hx
  obtain ⟨hj, rfl⟩ := List.getElem?_eq_some_iff.1 hy
  rcases Nat.lt_or_eq_of_le hij with hlt | rfl
  · exact (List.pairwise_iff_getElem.1 hbs i j hi hj hlt).le
  · exact le_rfl

theorem lt_of_column (hbs : bs.Pairwise (· < ·)) (hi : (intervals bs)[i]? = some (x, y)) : x < y := by
  obtain ⟨hx, hy⟩ := getElem?_intervals bs hi
  obtain ⟨hleft, rfl⟩ := List.getElem?_eq_some_iff.1 hx
  obtain ⟨hright, rfl⟩ := List.getElem?_eq_some_iff.1 hy
  exact List.pairwise_iff_getElem.1 hbs i (i + 1) hleft hright (Nat.lt_succ_self i)

/-- **Columns** up to that of a boundary are sampled below it. -/
theorem lt_of_column_le (hbs : bs.Pairwise (· < ·)) (hv : bs[j + 1]? = some v)
    (hi : (intervals bs)[i]? = some (x, y)) (hij : i ≤ j) : sampleBetween x y < v := by
  have hle : y ≤ v := le_of_index_le hbs (getElem?_intervals bs hi).2 hv (Nat.succ_le_succ hij)
  exact (sampleBetween_rat (lt_of_column hbs hi)).2.trans_le hle

/-- Columns beyond it are sampled above it. -/
theorem lt_of_lt_column (hbs : bs.Pairwise (· < ·)) (hv : bs[j + 1]? = some v)
    (hi : (intervals bs)[i]? = some (x, y)) (hij : j < i) : v < sampleBetween x y := by
  have hle : v ≤ x := le_of_index_le hbs hv (getElem?_intervals bs hi).1 hij
  exact hle.trans_lt (sampleBetween_rat (lt_of_column hbs hi)).1

/-! ## Rows -/

theorem sign_of_neg (h : x < 0) : Sign.of x = .minus := if_neg (by norm_num; exact h)

theorem sign_of_pos (h : 0 < x) : Sign.of x = .plus := if_pos (by norm_num; exact h.le)

theorem getElem?_rowSegments {n : Nat} {s t : Sign} (h : (rowSegments bs v n s)[i]? = some t) :
    ∃ x y, (intervals bs)[i]? = some (x, y) ∧ t = if n % 2 = 0 then s else s * .of (sampleBetween x y - v) := by
  rw [rowSegments, List.getElem?_map, Option.map_eq_some_iff] at h
  obtain ⟨⟨x, y⟩, hi, rfl⟩ := h
  exact ⟨x, y, hi, rfl⟩

end

/-- **Rows.**  The signs computed for a value change at its own column, if at all. -/
theorem turnsAt_rowSegments (h : OrderedWithin points d) {j : Nat} {p : Point ℚ} (hp : points[j]? = some p) {r : Row ℚ}
    {s : Sign} (hr : r.segments = rowSegments (boundaries points d) p.value r.multiplicity s) :
    r.TurnsAt points.length j s := by
  have hbs := boundaries_sorted h (List.mem_of_getElem? hp)
  have hv := getElem?_boundaries hp d
  refine ⟨?_, ?_, ?_, ?_⟩
  · rw [hr, rowSegments, List.length_map, length_intervals]
    simp [boundaries]
  · intro heven t ht
    obtain ⟨i, ht⟩ := List.mem_iff_getElem?.1 ht
    obtain ⟨x, y, -, rfl⟩ := getElem?_rowSegments (hr ▸ ht)
    exact if_pos heven
  · intro hodd i t hij ht
    obtain ⟨x, y, hi, rfl⟩ := getElem?_rowSegments (hr ▸ ht)
    rw [if_neg (by omega), sign_of_neg (sub_neg.2 (lt_of_column_le hbs hv hi hij))]
    cases s <;> rfl
  · intro hodd i t hij ht
    obtain ⟨x, y, hi, rfl⟩ := getElem?_rowSegments (hr ▸ ht)
    rw [if_neg (by omega), sign_of_pos (sub_pos.2 (lt_of_lt_column hbs hv hi hij))]
    cases s <;> rfl

/-- **Rows turn at their own point.**  Of points in order, inside a domain: each row of merged factors that has the
value of point `j` has the sign of these factors to the right of that point, and each row made from a position is
positive there; left of it they have the opposite sign if their multiplicity is odd, and the same if it is even. -/
theorem rows_turn (factors : List (Factor ℚ)) (h : OrderedWithin points d) :
    List.Forall₂ (fun m r => r.multiplicity = m.multiplicity ∧
        ∀ j p, points[j]? = some p → r.value = p.value → r.TurnsAt points.length j m.sign)
      (mergeFactors factors) (linearRows factors points d) ∧
    ∀ r ∈ positionRows points d, ∀ j p, points[j]? = some p → r.value = p.value →
      r.TurnsAt points.length j .plus := by
  constructor
  · rw [linearRows, List.forall₂_map_right_iff, List.forall₂_same]
    refine fun m _ => ⟨rfl, fun j p hp hvalue => turnsAt_rowSegments h hp ?_⟩
    rw [← hvalue]
    rfl
  · intro r hr j p hp hvalue
    obtain ⟨q, -, rfl⟩ := List.mem_map.1 hr
    refine turnsAt_rowSegments h hp ?_
    rw [← hvalue]
    rfl

/-- Three points, of which the first two leave a gap so narrow that its sample is not taken in the middle. -/
def narrowPoints : List (Point ℚ) := [⟨.zero, 0, 1, false⟩, ⟨.zero, 1 / 20000, 3, false⟩, ⟨.pole, 3, 2, false⟩]

/-- A factor that falls through zero at the second of them. -/
def fallingFactor : Factor ℚ := ⟨.zero, 1 / 20000, 3, .minus, "1-20000*x".toList⟩

/-- `rows_turn` at these points.  The second one has a row of the factor and one of its position. -/
theorem rows_turn_narrow :
    OrderedWithin narrowPoints ⟨-1, 4⟩ ∧
      (∃ r, linearRows [fallingFactor] narrowPoints ⟨-1, 4⟩ = [r] ∧ r.TurnsAt 3 1 .minus) ∧
      ∃ r s, positionRows narrowPoints ⟨-1, 4⟩ = [r, s] ∧ r.TurnsAt 3 0 .plus ∧ s.TurnsAt 3 1 .plus := by
  have hordered : OrderedWithin narrowPoints ⟨-1, 4⟩ := ⟨by decide +kernel, by decide +kernel, by decide +kernel⟩
  obtain ⟨hrows, hpositions⟩ := rows_turn [fallingFactor] hordered
  refine ⟨hordered, ?_, ?_⟩
  · have hmerged : mergeFactors [fallingFactor] = [⟨fallingFactor, 3, .minus⟩] := rfl
    rw [hmerged] at hrows
    obtain ⟨r, rest, ⟨-, hturns⟩, hnil, hlinear⟩ := List.forall₂_cons_left_iff.1 hrows
    obtain rfl := List.forall₂_nil_left_iff.1 hnil
    have hvalue : r.value = 1 / 20000 := by
      obtain ⟨rfl, -⟩ := List.cons.inj hlinear
      rfl
    exact ⟨r, hlinear, hturns 1 _ rfl hvalue⟩
  · obtain ⟨r, s, hlist, hr, hs⟩ : ∃ r s, positionRows narrowPoints ⟨-1, 4⟩ = [r, s] ∧ r.value = 0 ∧
        s.value = 1 / 20000 := ⟨_, _, rfl, rfl, rfl⟩
    rw [hlist] at hpositions
    exact ⟨r, s, hlist, hpositions r (by simp) 0 _ rfl hr, hpositions s (by simp) 1 _ rfl hs⟩

end SignChart
