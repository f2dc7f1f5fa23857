/-
  Rational numbers rounded to 53 binary digits.

  A floating-point operation gives the number in the format that is nearest to the exact result, and of two such the
  one with an even mantissa.  Here this is a function of rational numbers, without bits and without a greatest number:
    1. `halfEven` is the nearest integer, of two the even one.  It is the only integer that is that near
       (`halfEven_eq_iff`), which makes it odd and monotone;
    2. `rounded` is a multiple of a power of two, the one that leaves 53 digits.  Which power this is, is said by
       **`rounded_eq_roundAt`** for a number between two powers of two, ends included, and by `exists_rounded_eq` for
       every number.  Nothing else looks at how the power is computed;
    3. so `rounded` is odd, monotone (**`rounded_mono`**), off by half of the last digit at most
       (`abs_rounded_sub_le`), and leaves numbers alone that have 53 digits (**`rounded_of_representable`**).
-/
import Mathlib

namespace SignChart

/-! ## Nearest integers -/

/-- The nearest integer; of two, the even one. -/
def halfEven (q : ℚ) : ℤ :=
  if Int.fract q < 1 / 2 then ⌊q⌋ else if 1 / 2 < Int.fract q then ⌊q⌋ + 1 else ⌊q⌋ + ⌊q⌋ % 2

/-- The nearest integer is off by less than a half, or by a half and even. -/
theorem halfEven_spec (q : ℚ) : |q - halfEven q| < 1 / 2 ∨ |q - halfEven q| = 1 / 2 ∧ Even (halfEven q) := by
  have hfract : q = ⌊q⌋ + Int.fract q := (Int.floor_add_fract q).symm
  have hnonneg := Int.fract_nonneg q
  have hlt := Int.fract_lt_one q
  unfold halfEven
  split_ifs with hdown hup
  · left
    rw [Int.self_sub_floor, abs_of_nonneg hnonneg]
    exact hdown
  · left
    rw [abs_lt]
    push_cast
    constructor <;> linarith
  · right
    have hhalf : Int.fract q = 1 / 2 := by linarith
    rcases Int.emod_two_eq_zero_or_one ⌊q⌋ with heven | hodd
    · rw [heven, add_zero, Int.self_sub_floor, hhalf]
      exact ⟨abs_of_nonneg (by norm_num), Int.even_iff.2 heven⟩
    · rw [hodd]
      refine ⟨?_, Int.even_iff.2 (by omega)⟩
      rw [abs_sub_comm, abs_of_nonneg] <;> push_cast <;> linarith

/-- No other integer is that near. -/
theorem halfEven_eq_iff {q : ℚ} {n : ℤ} : halfEven q = n ↔ |q - n| < 1 / 2 ∨ |q - n| = 1 / 2 ∧ Even n := by
  refine ⟨fun h => h ▸ halfEven_spec q, fun hn => ?_⟩
  have hspec := halfEven_spec q
  generalize halfEven q = m at hspec
  have hdistance : |(m : ℚ) - n| ≤ |q - m| + |q - n| := by
    have htriangle := abs_sub_le (m : ℚ) q n
    rwa [abs_sub_comm (m : ℚ) q] at htriangle
  by_contra hne
  have hone : (1 : ℚ) ≤ |(m : ℚ) - n| := by exact_mod_cast Int.one_le_abs (sub_ne_zero.2 hne)
  -- so that both are halves away, and then both are even, which one of two neighbours is not
  rcases hspec with hm | ⟨hm, hmeven⟩ <;> rcases hn with hn | ⟨hn, hneven⟩
  · linarith
  · linarith
  · linarith
  · have hle : |(m : ℚ) - n| ≤ 1 := by linarith
    have hle' : |m - n| ≤ 1 := by exact_mod_cast hle
    obtain ⟨k, hk⟩ := hmeven.sub hneven
    rw [abs_le] at hle'
    omega

@[simp] theorem halfEven_intCast (n : ℤ) : halfEven n = n := halfEven_eq_iff.2 (.inl (by simp))

@[simp] theorem halfEven_neg (q : ℚ) : halfEven (-q) = -halfEven q := by
  rw [halfEven_eq_iff, Int.cast_neg, neg_sub_neg, abs_sub_comm, even_neg]
  exact halfEven_spec q

theorem abs_halfEven_sub_le (q : ℚ) : |halfEven q - q| ≤ 1 / 2 := by
  rw [abs_sub_comm]
  rcases halfEven_spec q with h | ⟨h, -⟩ <;> linarith

/-- Of two numbers the greater is not rounded to less. -/
theorem halfEven_mono : Monotone halfEven := by
  intro p q hpq
  by_contra hlt
  have hone : (halfEven q : ℚ) + 1 ≤ halfEven p := by exact_mod_cast Int.lt_of_not_ge hlt
  have hp := (abs_le.1 (abs_halfEven_sub_le p)).2
  have hq := (abs_le.1 (abs_halfEven_sub_le q)).1
  exact hlt (by rw [show p = q by linarith])

/-- The sign has no part in the rounding of the magnitude. -/
theorem abs_halfEven (q : ℚ) : |halfEven q| = halfEven |q| := by
  have hzero : halfEven 0 = 0 := by rw [← Int.cast_zero, halfEven_intCast]
  rcases le_total 0 q with h | h
  · rw [abs_of_nonneg h, abs_of_nonneg (hzero ▸ halfEven_mono h)]
  · rw [abs_of_nonpos h, abs_of_nonpos (hzero ▸ halfEven_mono h), halfEven_neg]

/-- The nearest integer; of two, the one farther from zero. -/
def halfAway (q : ℚ) : ℤ := if 0 ≤ q then ⌊q + 1 / 2⌋ else ⌈q - 1 / 2⌉

theorem halfAway_of_nonneg {q : ℚ} (h : 0 ≤ q) : halfAway q = ⌊q + 1 / 2⌋ := if_pos h

@[simp] theorem halfAway_neg (q : ℚ) : halfAway (-q) = -halfAway q := by
  have hflip (p : ℚ) : ⌈-p - 1 / 2⌉ = -⌊p + 1 / 2⌋ := by rw [← neg_add', Int.ceil_neg]
  unfold halfAway
  rcases lt_trichotomy q 0 with h | rfl | h
  · rw [if_pos (by linarith), if_neg (by linarith), ← neg_neg (q - 1 / 2), Int.ceil_neg, neg_neg, neg_sub',
      sub_neg_eq_add]
  · norm_num
  · rw [if_neg (by linarith), if_pos h.le, hflip]

/-- A number is off its nearest integer by a half at most, however ties are broken. -/
theorem abs_halfAway_sub_le (q : ℚ) : |halfAway q - q| ≤ 1 / 2 := by
  unfold halfAway
  split_ifs
  · have hle := Int.floor_le (q + 1 / 2)
    have hlt := Int.lt_floor_add_one (q + 1 / 2)
    rw [abs_le]
    constructor <;> linarith
  · have hle := Int.le_ceil (q - 1 / 2)
    have hlt := Int.ceil_lt_add_one (q - 1 / 2)
    rw [abs_le]
    constructor <;> linarith

/-- Where there is one nearest integer, it is the result. -/
theorem halfAway_eq_of_abs_lt {q : ℚ} {n : ℤ} (h : |q - n| < 1 / 2) : halfAway q = n := by
  have hle := abs_le.1 (abs_halfAway_sub_le q)
  rw [abs_lt] at h
  have hlow : (n : ℚ) - 1 < halfAway q := by linarith
  have hhigh : (halfAway q : ℚ) < n + 1 := by linarith
  have hlow' : n - 1 < halfAway q := by exact_mod_cast hlow
  have hhigh' : halfAway q < n + 1 := by exact_mod_cast hhigh
  omega

@[simp] theorem halfAway_intCast (n : ℤ) : halfAway n = n := halfAway_eq_of_abs_lt (by simp)

/-- Rounding away from zero keeps the order as well. -/
theorem halfAway_mono : Monotone halfAway := by
  refine monotone_of_odd_of_monotoneOn_nonneg halfAway_neg fun p hp q hq hpq => ?_
  rw [halfAway_of_nonneg hp, halfAway_of_nonneg hq]
  exact Int.floor_mono (by linarith)

/-! ## Multiples of a power of two -/

/-- A number rounded to a multiple of a power of two. -/
def roundAt (e : ℤ) (q : ℚ) : ℚ := halfEven (q / 2 ^ e) * 2 ^ e

theorem roundAt_neg (e : ℤ) (q : ℚ) : roundAt e (-q) = -roundAt e q := by
  rw [roundAt, neg_div, halfEven_neg, Int.cast_neg, neg_mul, roundAt]

/-- Multiples of a power of two are in the order of their numbers. -/
theorem roundAt_mono (e : ℤ) : Monotone (roundAt e) := by
  intro p q hpq
  have hpos : (0 : ℚ) < 2 ^ e := by positivity
  have hle : halfEven (p / 2 ^ e) ≤ halfEven (q / 2 ^ e) := halfEven_mono (by gcongr)
  unfold roundAt
  gcongr

/-- Multiples of a greater power are multiples too. -/
theorem roundAt_mul_zpow {e d : ℤ} (h : e ≤ d) (n : ℤ) : roundAt e (n * 2 ^ d) = n * 2 ^ d := by
  obtain ⟨k, rfl⟩ : ∃ k : ℕ, d = e + k := ⟨(d - e).toNat, by omega⟩
  have hmultiple : (n * 2 ^ (e + k) : ℚ) / 2 ^ e = (n * 2 ^ k : ℤ) := by
    rw [zpow_add₀ (by norm_num), zpow_natCast]
    push_cast
    field_simp
  rw [roundAt, hmultiple, halfEven_intCast, ← hmultiple]
  field_simp

/-- What is nearer to a multiple than half of the power is rounded to it. -/
theorem roundAt_eq_of_abs_lt {e : ℤ} {q : ℚ} {n : ℤ} (h : |q - n * 2 ^ e| < 2 ^ e / 2) : roundAt e q = n * 2 ^ e := by
  have hpos : (0 : ℚ) < 2 ^ e := by positivity
  have hscaled : q / 2 ^ e - n = (q - n * 2 ^ e) / 2 ^ e := by field_simp
  have hnear : |q / 2 ^ e - n| < 1 / 2 := by
    rw [hscaled, abs_div, abs_of_pos hpos, div_lt_iff₀ hpos]
    linarith
  rw [roundAt, halfEven_eq_iff.2 (.inl hnear)]

/-- The digits of the multiple of a power of two that a number is rounded to. -/
theorem halfEven_div_le {e : ℤ} {q : ℚ} {k : ℕ} (h : q ≤ 2 ^ (e + k)) : halfEven (q / 2 ^ e) ≤ 2 ^ k := by
  have hle : q / 2 ^ e ≤ (2 ^ k : ℤ) := by
    rw [div_le_iff₀ (by positivity), Int.cast_pow, Int.cast_ofNat, ← zpow_natCast, ← zpow_add₀ (by norm_num), add_comm]
    exact h
  have hmono := halfEven_mono hle
  rwa [halfEven_intCast] at hmono

/-- A power of two that is a multiple of the unit stays a lower bound. -/
theorem le_halfEven_div {e : ℤ} {q : ℚ} {k : ℕ} (h : 2 ^ (e + k) ≤ q) : 2 ^ k ≤ halfEven (q / 2 ^ e) := by
  have hle : (2 ^ k : ℤ) ≤ q / 2 ^ e := by
    rw [le_div_iff₀ (by positivity), Int.cast_pow, Int.cast_ofNat, ← zpow_natCast, ← zpow_add₀ (by norm_num), add_comm]
    exact h
  have hmono := halfEven_mono hle
  rwa [halfEven_intCast] at hmono

/-- A multiple of the unit is off by half of it at most. -/
theorem abs_roundAt_sub_le (e : ℤ) (q : ℚ) : |roundAt e q - q| ≤ 2 ^ e / 2 := by
  have hpos : (0 : ℚ) < 2 ^ e := by positivity
  have hscaled : roundAt e q - q = (halfEven (q / 2 ^ e) - q / 2 ^ e) * 2 ^ e := by
    unfold roundAt
    field_simp
  rw [hscaled, abs_mul, abs_of_pos hpos]
  linarith [mul_le_mul_of_nonneg_right (abs_halfEven_sub_le (q / 2 ^ e)) hpos.le]

/-! ## 53 digits -/

/-- A number of at most 53 binary digits, none of them below the least exponent. -/
def Representable (q : ℚ) : Prop := ∃ n e : ℤ, |n| < 2 ^ 53 ∧ -1074 ≤ e ∧ q = n * 2 ^ e

theorem Representable.neg {q : ℚ} (h : Representable q) : Representable (-q) := by
  obtain ⟨n, e, hn, he, rfl⟩ := h
  exact ⟨-n, e, by rwa [abs_neg], he, by push_cast; ring⟩

/-- A power of two has one digit. -/
theorem representable_two_zpow {e : ℤ} (h : -1074 ≤ e) : Representable (2 ^ e) := ⟨1, e, by norm_num, h, by simp⟩

/-- An integer of at most 53 digits is a number of the format. -/
theorem representable_intCast {n : ℤ} (h : |n| < 2 ^ 53) : Representable n := ⟨n, 0, h, by norm_num, by simp⟩

/-- A number rounded to 53 binary digits, or to fewer at the least exponent. -/
def rounded (q : ℚ) : ℚ := roundAt (max (Int.log 2 |q| - 52) (-1074)) q

@[simp] theorem rounded_zero : rounded 0 = 0 := by
  rw [rounded, roundAt, zero_div, ← Int.cast_zero, halfEven_intCast, Int.cast_zero, zero_mul]

/-- Negative numbers are rounded as positive ones. -/
@[simp] theorem rounded_neg (q : ℚ) : rounded (-q) = -rounded q := by
  rw [rounded, abs_neg, roundAt_neg, rounded]

/-- The exponent of the last digit, for every number. -/
theorem exists_rounded_eq (q : ℚ) :
    ∃ e : ℤ, -1074 ≤ e ∧ (2 ^ (e + 52) ≤ |q| ∨ e = -1074) ∧ |q| < 2 ^ (e + 53) ∧ rounded q = roundAt e q := by
  rcases eq_or_ne q 0 with rfl | hq
  · have hzero : roundAt (-1074) 0 = 0 := by simpa using roundAt_mul_zpow (le_refl (-1074)) 0
    exact ⟨-1074, le_rfl, .inr rfl, by rw [abs_zero]; positivity, by rw [rounded_zero, hzero]⟩
  · have hpos : 0 < |q| := abs_pos.2 hq
    have hlog := Int.zpow_log_le_self (b := 2) (by norm_num) hpos
    have hlog' := Int.lt_zpow_succ_log_self (b := 2) (by norm_num) |q|
    push_cast at hlog hlog'
    refine ⟨max (Int.log 2 |q| - 52) (-1074), le_max_right .., ?_, ?_, rfl⟩
    · rcases max_choice (Int.log 2 |q| - 52) (-1074) with h | h
      · rw [h, sub_add_cancel]
        exact .inl hlog
      · exact .inr h
    · exact hlog'.trans_le (zpow_le_zpow_right₀ (by norm_num) (by omega))

/-- Between two powers of two, ends included, the last digit has one exponent. -/
theorem rounded_eq_roundAt {e : ℤ} {q : ℚ} (hmin : -1074 ≤ e) (hlow : 2 ^ (e + 52) ≤ |q| ∨ e = -1074)
    (hhigh : |q| ≤ 2 ^ (e + 53)) : rounded q = roundAt e q := by
  obtain ⟨d, hd, hdlow, hdhigh, hrounded⟩ := exists_rounded_eq q
  rw [hrounded]
  have hle : e ≤ d := by
    rcases hlow with hlow | rfl
    · have := (zpow_lt_zpow_iff_right₀ (by norm_num)).1 (hlow.trans_lt hdhigh)
      omega
    · exact hd
  rcases hle.lt_or_eq with hlt | rfl
  · -- the number is the greater end, a power of two, which both leave alone
    have hdlow' := hdlow.resolve_right (by omega)
    have hpow := (zpow_le_zpow_iff_right₀ (by norm_num)).1 (hdlow'.trans hhigh)
    obtain rfl : d = e + 1 := by omega
    have habs : |q| = 2 ^ (e + 53) := le_antisymm hhigh (by rwa [show e + 1 + 52 = e + 53 by ring] at hdlow')
    have hexact (f : ℤ) (hf : f ≤ e + 53) : roundAt f |q| = |q| := by
      simpa [habs] using roundAt_mul_zpow hf 1
    rcases abs_choice q with h | h
    · rw [← h, hexact _ (by omega), hexact _ (by omega)]
    · rw [← neg_neg q, ← h, roundAt_neg, roundAt_neg, hexact _ (by omega), hexact _ (by omega)]
  · rfl

/-- A number is rounded by half of the unit in its last place at most. -/
theorem abs_rounded_sub_le {e : ℤ} {q : ℚ} (hmin : -1074 ≤ e) (hhigh : |q| < 2 ^ (e + 53)) :
    |rounded q - q| ≤ 2 ^ e / 2 := by
  obtain ⟨d, hd, hdlow, hdhigh, hrounded⟩ := exists_rounded_eq q
  have hle : d ≤ e := by
    rcases hdlow with hdlow | rfl
    · have := (zpow_lt_zpow_iff_right₀ (by norm_num)).1 (hdlow.trans_lt hhigh)
      omega
    · exact hmin
  have hpow : (2 : ℚ) ^ d ≤ 2 ^ e := zpow_le_zpow_right₀ (by norm_num) hle
  rw [hrounded]
  linarith [abs_roundAt_sub_le d q]

/-- The error in terms of the number. -/
theorem abs_rounded_sub_le_mul (q : ℚ) : |rounded q - q| ≤ 2 ^ (-52 : ℤ) * |q| + 2 ^ (-1074 : ℤ) := by
  obtain ⟨e, -, hlow, -, hrounded⟩ := exists_rounded_eq q
  have herror := abs_roundAt_sub_le e q
  have hleast : (0 : ℚ) < 2 ^ (-1074 : ℤ) := by positivity
  have hnonneg : (0 : ℚ) ≤ 2 ^ (-52 : ℤ) * |q| := by positivity
  have hlast : (2 : ℚ) ^ e ≤ 2 ^ (-52 : ℤ) * |q| ∨ (2 : ℚ) ^ e = 2 ^ (-1074 : ℤ) := by
    refine hlow.imp (fun hlow => ?_) (fun hmin => by rw [hmin])
    calc (2 : ℚ) ^ e = 2 ^ (-52 : ℤ) * 2 ^ (e + 52) := by rw [← zpow_add₀ (by norm_num)]; congr 1; omega
      _ ≤ 2 ^ (-52 : ℤ) * |q| := by gcongr
  have hpos : (0 : ℚ) < 2 ^ e := by positivity
  rw [hrounded]
  generalize (2 : ℚ) ^ (-1074 : ℤ) = least at hleast hlast ⊢
  rcases hlast with hlast | hlast <;> linarith

/-- A representable number below another one with all its digits is at least one unit in the last place below. -/
theorem Representable.le_of_lt {q : ℚ} (hq : Representable q) {n e : ℤ} (hn : 2 ^ 52 < n) (h : q < n * 2 ^ e) :
    q ≤ (n - 1) * 2 ^ e := by
  obtain ⟨m, d, hm, -, rfl⟩ := hq
  have hn' : (2 : ℚ) ^ 52 ≤ n - 1 := by exact_mod_cast Int.le_sub_one_of_lt hn
  rcases le_or_gt e d with hle | hlt
  · obtain ⟨k, rfl⟩ : ∃ k : ℕ, d = e + k := ⟨(d - e).toNat, by omega⟩
    have hsplit : (m * 2 ^ (e + k) : ℚ) = (m * 2 ^ k : ℤ) * 2 ^ e := by
      rw [zpow_add₀ (by norm_num), zpow_natCast]
      push_cast
      ring
    rw [hsplit] at h ⊢
    have hlt : m * 2 ^ k < n := by exact_mod_cast lt_of_mul_lt_mul_right h (by positivity)
    have hle : ((m * 2 ^ k : ℤ) : ℚ) ≤ n - 1 := by exact_mod_cast Int.le_sub_one_of_lt hlt
    gcongr
  · have hm' : (m : ℚ) ≤ 2 ^ 53 := by exact_mod_cast (le_abs_self m).trans hm.le
    calc (m * 2 ^ d : ℚ) ≤ 2 ^ 53 * 2 ^ (e - 1) := by gcongr; norm_num; omega
      _ = 2 ^ 52 * 2 ^ e := by rw [zpow_sub_one₀ (by norm_num)]; ring
      _ ≤ (n - 1) * 2 ^ e := by gcongr

/-- A representable number with a digit in the first of 53 places has none behind the last. -/
theorem Representable.exists_eq_mul {q : ℚ} (hq : Representable q) {e : ℤ} (h : 2 ^ (e + 52) ≤ |q|) :
    ∃ n : ℤ, q = n * 2 ^ e := by
  obtain ⟨m, d, hm, -, rfl⟩ := hq
  have hm' : |(m : ℚ)| < 2 ^ (53 : ℤ) := by exact_mod_cast hm
  have hlt : (2 : ℚ) ^ (e + 52) < 2 ^ (53 + d) := by
    refine h.trans_lt ?_
    rw [abs_mul, abs_of_pos (show (0 : ℚ) < 2 ^ d by positivity), zpow_add₀ (by norm_num)]
    gcongr
  have hexp := (zpow_lt_zpow_iff_right₀ (by norm_num)).1 hlt
  obtain ⟨k, rfl⟩ : ∃ k : ℕ, d = e + k := ⟨(d - e).toNat, by omega⟩
  refine ⟨m * 2 ^ k, ?_⟩
  rw [zpow_add₀ (by norm_num), zpow_natCast]
  push_cast
  ring

/-- A rounded number by its digits, and its error by the last of them. -/
theorem exists_rounded_digits (q : ℚ) :
    ∃ n e : ℤ, -1074 ≤ e ∧ (2 ^ 52 ≤ |n| ∨ e = -1074) ∧ |n| ≤ 2 ^ 53 ∧ rounded q = n * 2 ^ e ∧
      |rounded q - q| ≤ 2 ^ e / 2 := by
  obtain ⟨e, he, hlow, hhigh, hrounded⟩ := exists_rounded_eq q
  have habs : |halfEven (q / 2 ^ e)| = halfEven (|q| / 2 ^ e) := by
    rw [abs_halfEven, abs_div, abs_of_pos (show (0 : ℚ) < 2 ^ e by positivity)]
  refine ⟨halfEven (q / 2 ^ e), e, he, ?_, ?_, hrounded, hrounded ▸ abs_roundAt_sub_le e q⟩
  · exact habs ▸ hlow.imp_left le_halfEven_div
  · exact habs ▸ halfEven_div_le hhigh.le

/-- What is rounded is a number of the format, also where the carry makes it a power of two. -/
theorem representable_rounded (q : ℚ) : Representable (rounded q) := by
  obtain ⟨n, e, he, -, hle, hrounded, -⟩ := exists_rounded_digits q
  rw [hrounded]
  rcases hle.lt_or_eq with hlt | heq
  · exact ⟨n, e, hlt, he, rfl⟩
  · -- a 54th digit leaves none but zeros behind
    obtain ⟨s, hs, rfl⟩ : ∃ s : ℤ, |s| = 1 ∧ n = s * 2 ^ 53 := by
      rcases abs_choice n with h | h
      · exact ⟨1, rfl, by omega⟩
      · exact ⟨-1, rfl, by omega⟩
    refine ⟨s * 2 ^ 52, e + 1, ?_, by omega, ?_⟩
    · rw [abs_mul, hs]
      norm_num
    · rw [zpow_add_one₀ (by norm_num)]
      push_cast
      ring

/-- A number of the format is left alone. -/
theorem rounded_of_representable {q : ℚ} (hq : Representable q) : rounded q = q := by
  obtain ⟨e, -, hlow, -, hrounded⟩ := exists_rounded_eq q
  obtain ⟨m, d, hm, hmin, rfl⟩ := id hq
  rw [hrounded]
  rcases hlow with hlow | rfl
  · obtain ⟨n, hn⟩ := hq.exists_eq_mul hlow
    rw [hn, roundAt_mul_zpow le_rfl]
  · exact roundAt_mul_zpow hmin m

/-- Rounding keeps the order, also across powers of two, where the unit changes. -/
theorem rounded_mono : Monotone rounded := by
  refine monotone_of_odd_of_monotoneOn_nonneg rounded_neg fun p hp q hq hpq => ?_
  obtain ⟨d, hd, hdlow, hdhigh, hp'⟩ := exists_rounded_eq p
  obtain ⟨e, he, helow, hehigh, hq'⟩ := exists_rounded_eq q
  rw [abs_of_nonneg hp] at hdlow hdhigh
  rw [abs_of_nonneg hq] at helow hehigh
  rcases lt_trichotomy d e with h | rfl | h
  · -- a power of two stands between the two numbers
    have helow' := helow.resolve_right (by omega)
    have hpow : (2 : ℚ) ^ (d + 53) ≤ 2 ^ (e + 52) := zpow_le_zpow_right₀ (by norm_num) (by omega)
    have hexact {f : ℤ} (hf : f ≤ e + 52) : roundAt f (2 ^ (e + 52)) = 2 ^ (e + 52) := by
      simpa using roundAt_mul_zpow hf 1
    calc rounded p = roundAt d p := hp'
      _ ≤ roundAt d (2 ^ (e + 52)) := roundAt_mono d (hdhigh.le.trans hpow)
      _ = 2 ^ (e + 52) := hexact (by omega)
      _ = roundAt e (2 ^ (e + 52)) := (hexact (by omega)).symm
      _ ≤ roundAt e q := roundAt_mono e helow'
      _ = rounded q := hq'.symm
  · rw [hp', hq']
    exact roundAt_mono d hpq
  · have hdlow' := hdlow.resolve_right (by omega)
    have hexp := (zpow_lt_zpow_iff_right₀ (by norm_num)).1 ((hdlow'.trans hpq).trans_lt hehigh)
    omega

theorem abs_rounded (q : ℚ) : |rounded q| = rounded |q| := by
  rcases le_total 0 q with h | h
  · have hmono := rounded_mono h
    rw [rounded_zero] at hmono
    rw [abs_of_nonneg h, abs_of_nonneg hmono]
  · have hmono := rounded_mono h
    rw [rounded_zero] at hmono
    rw [abs_of_nonpos h, abs_of_nonpos hmono, rounded_neg]

theorem rounded_two_zpow {e : ℤ} (h : -1074 ≤ e) : rounded (2 ^ e) = 2 ^ e :=
  rounded_of_representable (representable_two_zpow h)

/-- From 2^52 on there are whole numbers only. -/
theorem exists_rounded_eq_intCast {q : ℚ} (h : 2 ^ (52 : ℤ) ≤ q) : ∃ n : ℤ, rounded q = n := by
  have hle := rounded_mono h
  rw [rounded_two_zpow (by norm_num)] at hle
  obtain ⟨n, hn⟩ := (representable_rounded q).exists_eq_mul (e := 0) (by rw [zero_add]; exact hle.trans (le_abs_self _))
  exact ⟨n, by rw [hn, zpow_zero, mul_one]⟩

/-- Rounding to an integer does not lead out of the format. -/
theorem representable_halfAway {q : ℚ} (h : Representable q) : Representable (halfAway q) := by
  rcases lt_or_ge |q| (2 ^ (52 : ℤ)) with hlt | hle
  · refine representable_intCast ?_
    have hhalf := abs_le.1 (abs_halfAway_sub_le q)
    rw [abs_lt] at hlt ⊢
    norm_num at hlt hhalf ⊢
    have hlow : ((-9007199254740992 : ℤ) : ℚ) < halfAway q := by push_cast; linarith
    have hhigh : (halfAway q : ℚ) < (9007199254740992 : ℤ) := by push_cast; linarith
    exact ⟨by exact_mod_cast hlow, by exact_mod_cast hhigh⟩
  · obtain ⟨n, hn⟩ := h.exists_eq_mul (e := 0) (by rwa [zero_add])
    rw [zpow_zero, mul_one] at hn
    rwa [hn, halfAway_intCast, ← hn]

end SignChart
