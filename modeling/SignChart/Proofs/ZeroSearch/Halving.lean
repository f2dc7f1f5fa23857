/-
  What halving ends with.

  A sign change between two places is halved down to one place, whatever the function does in between: it may jump, have
  poles, or not be defined everywhere.  Halving has several exits, and at each of them two things hold:

  1. **No pole** (`bisect_bounded`).  The function is finite at the place that is returned, and no larger there than at
     the two ends: each exit compares the value with the same limit (`abs_le_of_bisectFrom`).

  2. **The bracket.**  The place that is looked at in between leaves at most three quarters of the interval on either
     side (`between?_rat`), and whichever side is kept, the function is finite at its ends and has different signs there
     (`Brackets.left`, `Brackets.right`).  So by induction the place returned lies between two such ends, and unless the
     value or the interval was small enough to stop, the interval has shrunk in every turn (`bisectFrom_brackets`).
     This is said of exact arguments; the values of the function stay floating-point numbers.

  **`bisect_brackets`** puts both together.
-/
import SignChart.Proofs.Number.Negation
import SignChart.ZeroSearch

namespace SignChart
open HasValue Float.Model

/-! ## The greater of two numbers -/

/-- What is above a finite number without being finite is above all finite numbers. -/
theorem compare_eq_lt_of_infinite {u v w : UnpackedFloat} (hu : u.isFinite = true) (hv : v.isFinite = true)
    (hw : w.isFinite = false) (hlt : v.compare w = some .lt) : u.compare w = some .lt := by
  match w with
  | .zero _ | .finite .. => exact absurd hw.symm Bool.false_ne_true
  | .notANumber => cases v <;> exact absurd hlt (by simp [UnpackedFloat.compare])
  | .infinity .negative =>
    match v, hv with
    | .zero _, _ | .finite .., _ => exact absurd hlt (by simp [UnpackedFloat.compare])
  | .infinity .positive =>
    match u, hu with
    | .zero _, _ | .finite .., _ => rfl

namespace Float
variable {x y q : Float}

theorem le_of_le_of_lt (hq : q.isFinite = true) (hx : x.isFinite = true) (hle : q ≤ x) (hlt : x < y) : q ≤ y := by
  cases hy : y.isFinite with
  | true => exact (le_iff hq hy).2 (((le_iff hq hx).1 hle).trans ((lt_iff hx hy).1 hlt).le)
  | false =>
    have hcompare : (x.toModel.unpack.compare y.toModel.unpack == some .lt) = true := of_decide_eq_true hlt
    have hinfinite := compare_eq_lt_of_infinite (u := q.toModel.unpack) hq hx hy (eq_of_beq hcompare)
    exact le_of_lt (decide_eq_true (beq_iff_eq.2 hinfinite))

/-- A bound of the second of two numbers bounds the greater one; the first may be infinite or NaN. -/
theorem le_max_right (hq : q.isFinite = true) (hy : y.isFinite = true) (hle : q ≤ y) : q ≤ Scalar.max x y := by
  have hnan : Scalar.isNaN y = false := isNaN_eq_false hy
  unfold Scalar.max
  rw [hnan]
  split
  · next hlt => exact le_of_le_of_lt hq hy hle hlt
  · exact hle

theorem isFinite_max (hx : x.isFinite = true) (hy : y.isFinite = true) : (Scalar.max x y).isFinite = true := by
  rcases (max_spec (x := x) (y := y) hx hy).1 with h | h <;> rw [h] <;> assumption

/-- Which number comes first makes no difference to a bound by the greater of two finite numbers. -/
theorem le_max_comm (hq : q.isFinite = true) (hx : x.isFinite = true) (hy : y.isFinite = true)
    (hle : q ≤ Scalar.max x y) : q ≤ Scalar.max y x := by
  rw [le_iff hq (isFinite_max hy hx), value_max hy hx, max_comm, ← value_max hx hy]
  exact (le_iff hq (isFinite_max hx hy)).1 hle

end Float

section Exits
variable {α β : Type} [Scalar α] [Scalar β]

/-! ## Exits -/

/-- A place in between is the middle or a quarter of the way from either end, and the function is finite there. -/
theorem between?_spec {f : α → β} {lo hi t : α} {y : β} (h : between? f lo hi = some (t, y)) :
    t ∈ [(lo + hi) / (2.0 : α), lo + (hi - lo) * (0.25 : α), lo + (hi - lo) * (0.75 : α)] ∧
      y = f t ∧ Scalar.isFinite (f t) = true := by
  obtain ⟨u, hu, hfound⟩ := List.exists_of_findSome?_eq_some h
  dsimp only at hfound
  split at hfound
  · next hfinite =>
    obtain ⟨rfl, rfl⟩ := Prod.mk.inj (Option.some.inj hfound)
    exact ⟨hu, rfl, hfinite⟩
  · exact absurd hfound (by simp)

/-- **No exit leaves the limit.** -/
theorem abs_le_of_bisectFrom {f : α → β} {limit : β} {s : Sign} {r : α} (n : Nat) :
    ∀ lo hi : α, bisectFrom f limit s n lo hi = some r → Scalar.abs (f r) ≤ limit := by
  induction n with
  | zero =>
    intro lo hi h
    rw [bisectFrom] at h
    obtain ⟨hle, hr⟩ := Option.ite_none_right_eq_some.1 h
    exact Option.some.inj hr ▸ hle
  | succ n ih =>
    intro lo hi h
    rw [bisectFrom] at h
    cases hbetween : between? f lo hi with
    | none => rw [hbetween] at h; exact absurd h (by simp)
    | some p =>
      obtain ⟨mid, y⟩ := p
      obtain ⟨-, hy, -⟩ := between?_spec hbetween
      rw [hbetween] at h
      dsimp only at h
      split at h
      · obtain ⟨hle, hr⟩ := Option.ite_none_right_eq_some.1 h
        exact Option.some.inj hr ▸ hy ▸ hle
      split at h
      · exact ih mid hi h
      · exact ih lo mid h

variable [HasValue α]

/-- The lesser and the greater of two finite numbers are these two.  Of equals both are the second, and a function may
tell these apart if they are zeros. -/
theorem min_max_cases {a b : α} (ha : Scalar.isFinite a = true) (hb : Scalar.isFinite b = true) :
    Scalar.min a b = a ∧ Scalar.max a b = b ∨ Scalar.min a b = b ∧ Scalar.max a b = a ∨
      Scalar.min a b = b ∧ Scalar.max a b = b := by
  unfold Scalar.min Scalar.max
  rw [isNaN_eq_false hb]
  by_cases hab : a < b
  · have hba : ¬ b < a := fun hba => lt_asymm ((lt_iff ha hb).1 hab) ((lt_iff hb ha).1 hba)
    exact Or.inl ⟨if_pos hab, if_neg hba⟩
  · by_cases hba : b < a
    · exact Or.inr (Or.inl ⟨if_neg hab, if_pos hba⟩)
    · exact Or.inr (Or.inr ⟨if_neg hab, if_neg hba⟩)

/-- A value within the limit of halving is within that of the two places. -/
theorem le_of_le_limit {f : α → Float} {a b : α} {q : Float} (ha : Scalar.isFinite a = true)
    (hb : Scalar.isFinite b = true) (hlo : (f (Scalar.min a b)).isFinite = true)
    (hhi : (f (Scalar.max a b)).isFinite = true) (hq : q.isFinite = true)
    (hle : q ≤ Scalar.max (Scalar.abs (f (Scalar.min a b))) (Scalar.abs (f (Scalar.max a b)))) :
    q ≤ Scalar.max (Scalar.abs (f a)) (Scalar.abs (f b)) := by
  rcases min_max_cases ha hb with ⟨hmin, hmax⟩ | ⟨hmin, hmax⟩ | ⟨hmin, hmax⟩ <;>
    rw [hmin, hmax] at hle <;> rw [hmin] at hlo <;> rw [hmax] at hhi
  · exact hle
  · exact Float.le_max_comm hq (Float.isFinite_abs hlo) (Float.isFinite_abs hhi) hle
  · have hself : Scalar.max (Scalar.abs (f b)) (Scalar.abs (f b)) = Scalar.abs (f b) := by
      unfold Scalar.max
      split
      · rfl
      · split <;> rfl
    rw [hself] at hle
    exact Float.le_max_right hq (Float.isFinite_abs hlo) hle

/-- **No pole.**  The function is finite where halving ends, and no larger than at one of the two places it began
with. -/
theorem bisect_bounded {f : α → Float} {a b r : α} (ha : Scalar.isFinite a = true) (hb : Scalar.isFinite b = true)
    (h : bisect f a b = some r) :
    (f r).isFinite = true ∧ Scalar.abs (f r) ≤ Scalar.max (Scalar.abs (f a)) (Scalar.abs (f b)) := by
  unfold bisect at h
  dsimp only at h
  split at h
  · exact absurd h (by simp)
  next hfinite =>
  obtain ⟨hlo, hhi⟩ : Scalar.isFinite (f (Scalar.min a b)) = true ∧ Scalar.isFinite (f (Scalar.max a b)) = true := by
    simpa using hfinite
  have habsLo := Float.isFinite_abs hlo
  have habsHi := Float.isFinite_abs hhi
  -- it is enough to be within the limit that halving compares with
  suffices hlimit : (f r).isFinite = true ∧
      Scalar.abs (f r) ≤ Scalar.max (Scalar.abs (f (Scalar.min a b))) (Scalar.abs (f (Scalar.max a b))) from
    ⟨hlimit.1, le_of_le_limit ha hb hlo hhi (Float.isFinite_abs hlimit.1) hlimit.2⟩
  split at h
  · obtain rfl := Option.some.inj h
    refine ⟨hlo, Float.le_max_comm habsLo habsHi habsLo ?_⟩
    exact Float.le_max_right habsLo habsLo ((Float.le_iff habsLo habsLo).2 le_rfl)
  split at h
  · obtain rfl := Option.some.inj h
    exact ⟨hhi, Float.le_max_right habsHi habsHi ((Float.le_iff habsHi habsHi).2 le_rfl)⟩
  · have hle := abs_le_of_bisectFrom _ _ _ h
    exact ⟨Float.isFinite_of_abs_le (Float.isFinite_max habsLo habsHi) hle, hle⟩

end Exits

/-! ## The bracket -/

/-- Two places within `a` and `b` at which the function is finite, with the sign that it has at the lesser of `a` and
`b` on the left, and the other sign on the right. -/
structure Brackets (f : ℚ → Float) (a b lo hi : ℚ) : Prop where
  above : min a b ≤ lo
  ordered : lo ≤ hi
  below : hi ≤ max a b
  finite_lo : (f lo).isFinite = true
  finite_hi : (f hi).isFinite = true
  sign_lo : Sign.of (f lo) = Sign.of (f (min a b))
  sign_hi : Sign.of (f hi) ≠ Sign.of (f (min a b))

namespace Brackets
variable {f : ℚ → Float} {a b lo hi t : ℚ}

/-- **Step.**  From a place with the sign of the left end, the right part is a bracket. -/
theorem right (h : Brackets f a b lo hi) (hlo : lo ≤ t) (hhi : t ≤ hi) (hfinite : (f t).isFinite = true)
    (hsign : Sign.of (f t) = Sign.of (f (min a b))) : Brackets f a b t hi :=
  ⟨h.above.trans hlo, hhi, h.below, hfinite, h.finite_hi, hsign, h.sign_hi⟩

/-- **Step.**  From a place with the other sign, the left part is. -/
theorem left (h : Brackets f a b lo hi) (hlo : lo ≤ t) (hhi : t ≤ hi) (hfinite : (f t).isFinite = true)
    (hsign : Sign.of (f t) ≠ Sign.of (f (min a b))) : Brackets f a b lo t :=
  ⟨h.above, hlo, hhi.trans h.below, h.finite_lo, hfinite, h.sign_lo, hsign⟩

end Brackets

/-- Why halving stopped at `r`: the value, or the interval between `lo` and `hi`, was small enough, or the interval has
shrunk to a width `w`. -/
def CloseEnough (f : ℚ → Float) (r lo hi w : ℚ) : Prop :=
  Scalar.abs (f r) < (1e-7 : Float) ∨ hi - lo < 1 / 10 ^ 6 ∨ hi - lo ≤ w

section Rational
open Exact
variable {f : ℚ → Float} {a b r : ℚ}

/-- A place in between leaves at most three quarters of the interval on either side. -/
theorem between?_rat {lo hi t : ℚ} {y : Float} (hle : lo ≤ hi) (h : between? f lo hi = some (t, y)) :
    lo ≤ t ∧ t ≤ hi ∧ t - lo ≤ 3 / 4 * (hi - lo) ∧ hi - t ≤ 3 / 4 * (hi - lo) := by
  have hmem : t ∈ [(lo + hi) / 2, lo + (hi - lo) * (1 / 4), lo + (hi - lo) * (3 / 4)] := by
    have htwo : (2.0 : ℚ) = 2 := by norm_num
    have hquarter : (0.25 : ℚ) = 1 / 4 := by norm_num
    have hthree : (0.75 : ℚ) = 3 / 4 := by norm_num
    have hspec := (between?_spec h).1
    rw [htwo, hquarter, hthree] at hspec
    exact hspec
  simp only [List.mem_cons, List.not_mem_nil, or_false] at hmem
  rcases hmem with rfl | rfl | rfl <;> refine ⟨?_, ?_, ?_, ?_⟩ <;> linarith

/-- **Run.**  A bracket is kept, and shrinks in every turn, until halving ends between its ends. -/
theorem bisectFrom_brackets {limit : Float} (n : ℕ) :
    ∀ lo hi : ℚ, Brackets f a b lo hi → bisectFrom f limit (Sign.of (f (min a b))) n lo hi = some r →
      ∃ lo' hi', Brackets f a b lo' hi' ∧ lo' ≤ r ∧ r ≤ hi' ∧ CloseEnough f r lo' hi' ((3 / 4) ^ n * (hi - lo)) := by
  induction n with
  | zero =>
    intro lo hi h hr
    rw [bisectFrom] at hr
    obtain ⟨-, hr⟩ := Option.ite_none_right_eq_some.1 hr
    have hmiddle : (lo + hi) / 2 = r := by
      have htwo : (2.0 : ℚ) = 2 := by norm_num
      rw [htwo] at hr
      exact Option.some.inj hr
    have hle := h.ordered
    exact ⟨lo, hi, h, by linarith, by linarith, Or.inr (Or.inr (by linarith))⟩
  | succ n ih =>
    intro lo hi h hr
    rw [bisectFrom] at hr
    cases hbetween : between? f lo hi with
    | none => rw [hbetween] at hr; exact absurd hr (by simp)
    | some p =>
      obtain ⟨mid, y⟩ := p
      obtain ⟨-, rfl, hfinite⟩ := between?_spec hbetween
      obtain ⟨hlo, hhi, hleft, hright⟩ := between?_rat h.ordered hbetween
      rw [hbetween] at hr
      dsimp only at hr
      -- a part of at most three quarters shrinks to what is claimed of the whole
      have hshrink {w : ℚ} (hw : w ≤ 3 / 4 * (hi - lo)) : (3 / 4) ^ n * w ≤ (3 / 4) ^ (n + 1) * (hi - lo) := by
        rw [pow_succ, mul_assoc]
        exact mul_le_mul_of_nonneg_left hw (by positivity)
      split at hr
      · next hstop =>
        obtain ⟨-, hmid⟩ := Option.ite_none_right_eq_some.1 hr
        obtain rfl := Option.some.inj hmid
        have hmillionth : (1e-6 : ℚ) = 1 / 10 ^ 6 := by norm_num
        rw [hmillionth] at hstop
        exact ⟨lo, hi, h, hlo, hhi, hstop.imp_right Or.inl⟩
      split at hr
      · next hsign =>
        obtain ⟨lo', hi', hbracket, hlo', hhi', hclose⟩ := ih mid hi (h.right hlo hhi hfinite hsign) hr
        exact ⟨lo', hi', hbracket, hlo', hhi', hclose.imp_right (Or.imp_right fun hw => hw.trans (hshrink hright))⟩
      · next hsign =>
        obtain ⟨lo', hi', hbracket, hlo', hhi', hclose⟩ := ih lo mid (h.left hlo hhi hfinite hsign) hr
        exact ⟨lo', hi', hbracket, hlo', hhi', hclose.imp_right (Or.imp_right fun hw => hw.trans (hshrink hleft))⟩

theorem min_rat (a b : ℚ) : Scalar.min a b = min a b := by
  have h : Scalar.min a b = if a < b then a else b := rfl
  rw [h]
  split
  · next hlt => exact (min_eq_left hlt.le).symm
  · next hle => exact (min_eq_right (not_lt.1 hle)).symm

theorem max_rat (a b : ℚ) : Scalar.max a b = max a b := HasValue.value_max (α := ℚ) rfl rfl

/-- Between two places at which the function is not zero and has different signs, halving ends within a bracket. -/
theorem bisect_settled (ha : (f a == 0.0) = false) (hb : (f b == 0.0) = false) (hsigns : Sign.of (f a) ≠ Sign.of (f b))
    (h : bisect f a b = some r) :
    ∃ lo hi, Brackets f a b lo hi ∧ lo ≤ r ∧ r ≤ hi ∧ CloseEnough f r lo hi ((3 / 4) ^ 60 * |b - a|) := by
  -- the lesser and the greater place are the two places
  have hends : (f (min a b) == 0.0) = false ∧ (f (max a b) == 0.0) = false ∧
      Sign.of (f (max a b)) ≠ Sign.of (f (min a b)) := by
    rcases le_total a b with hab | hab
    · rw [min_eq_left hab, max_eq_right hab]
      exact ⟨ha, hb, hsigns.symm⟩
    · rw [min_eq_right hab, max_eq_left hab]
      exact ⟨hb, ha, hsigns⟩
  obtain ⟨hmin, hmax, hdiffer⟩ := hends
  unfold bisect at h
  rw [min_rat, max_rat] at h
  dsimp only at h
  rw [hmin, hmax, if_neg Bool.false_ne_true, if_neg Bool.false_ne_true] at h
  split at h
  · exact absurd h (by simp)
  next hfinite =>
  obtain ⟨hlo, hhi⟩ : Scalar.isFinite (f (min a b)) = true ∧ Scalar.isFinite (f (max a b)) = true := by
    simpa using hfinite
  have hwhole : Brackets f a b (min a b) (max a b) :=
    ⟨le_rfl, min_le_max, le_rfl, hlo, hhi, rfl, hdiffer⟩
  have hrun := bisectFrom_brackets halvings _ _ hwhole h
  rwa [max_sub_min_eq_abs] at hrun

/-- **Halving.**  The function is finite where halving ends, and no larger than at one of the two places it began with.
With exact arguments, and different signs at the two places, it ends within a bracket that is close enough. -/
theorem bisect_brackets :
    (∀ (f : Float → Float) (a b r : Float), a.isFinite = true → b.isFinite = true → bisect f a b = some r →
        (f r).isFinite = true ∧ Scalar.abs (f r) ≤ Scalar.max (Scalar.abs (f a)) (Scalar.abs (f b))) ∧
      ∀ (f : ℚ → Float) (a b r : ℚ), bisect f a b = some r →
        ((f r).isFinite = true ∧ Scalar.abs (f r) ≤ Scalar.max (Scalar.abs (f a)) (Scalar.abs (f b))) ∧
          ((f a == 0.0) = false → (f b == 0.0) = false → Sign.of (f a) ≠ Sign.of (f b) →
            ∃ lo hi, Brackets f a b lo hi ∧ lo ≤ r ∧ r ≤ hi ∧ CloseEnough f r lo hi ((3 / 4) ^ 60 * |b - a|)) :=
  ⟨fun _ _ _ _ ha hb h => bisect_bounded ha hb h,
    fun _ _ _ _ h => ⟨bisect_bounded rfl rfl h, fun ha hb hsigns => bisect_settled ha hb hsigns h⟩⟩

/-- A function that is zero at a quarter, and not defined at a half. -/
def holed (x : Float) : Float := (x - 0.25) / (x - 0.5) * (x - 0.5)

/-- A function that jumps at a third from one sign to the other, and is not defined at a half. -/
def jump (x : ℚ) : Float := if x = 1 / 2 then 0.0 / 0.0 else if x < 1 / 3 then -1.0 else 1.0

/-- The place just above a third where halving of `jump` ends. -/
def jumpEnd : ℚ := 2796203 / 8388608

/-- `bisect_brackets` at both: halving goes round the hole, and closes in on the jump. -/
theorem bisect_brackets_holed :
    ((0.0 : Float).isFinite = true ∧ (1.0 : Float).isFinite = true ∧ bisect holed 0.0 1.0 = some 0.25 ∧
        (holed 0.25).isFinite = true ∧
        Scalar.abs (holed 0.25) ≤ Scalar.max (Scalar.abs (holed 0.0)) (Scalar.abs (holed 1.0))) ∧
      bisect jump 0 1 = some jumpEnd ∧ (jump 0 == 0.0) = false ∧ (jump 1 == 0.0) = false ∧
        Sign.of (jump 0) ≠ Sign.of (jump 1) ∧
        ∃ lo hi, Brackets jump 0 1 lo hi ∧ lo ≤ jumpEnd ∧ jumpEnd ≤ hi ∧
          CloseEnough jump jumpEnd lo hi ((3 / 4) ^ 60 * |1 - 0|) := by
  have hholed : bisect holed 0.0 1.0 = some 0.25 := by decide +kernel
  have hjump : bisect jump 0 1 = some jumpEnd := by decide +kernel
  have hzero : (jump 0 == 0.0) = false := by decide +kernel
  have hone : (jump 1 == 0.0) = false := by decide +kernel
  have hsigns : Sign.of (jump 0) ≠ Sign.of (jump 1) := by decide +kernel
  obtain ⟨hfinite, hbounded⟩ := bisect_brackets.1 holed 0.0 1.0 0.25 rfl rfl hholed
  exact ⟨⟨rfl, rfl, hholed, hfinite, hbounded⟩, hjump, hzero, hone, hsigns,
    (bisect_brackets.2 jump 0 1 jumpEnd hjump).2 hzero hone hsigns⟩

end Rational

end SignChart
