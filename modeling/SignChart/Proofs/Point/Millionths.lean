/-
  Counting the millionths of a value.

  The key of a point takes two rounds.  First the value is rounded to millionths (`keyValue`): it is multiplied with a
  million, rounded to a whole number and divided by a million.  Then the millionths are counted (`micros`): the
  quotient is multiplied with a million and rounded to a whole number again.  Every product and every quotient is
  rounded to 53 digits besides, so that it is not clear that the count is the whole number of the first round, nor that
  different quotients have different counts:
    1. below 2^32 the errors of the quotient and of its product are less than a half together, and the count is that
       number (`micros_of_small`);
    2. where products are whole numbers anyway the count may be another one, but rounding leads back from it to the
       quotient (`rounded_micros_of_great`).  For the product is exact to less than half of a unit of the quotient, or
       else its own unit is great enough to swallow the error of the quotient;
    3. between lies the band (`InBand`) in which neither holds.  There the count is known (`InBand.micros_eq`), and it
       is that of no value outside (`InBand.of_micros_eq`);
    4. so counts tell quotients apart, except for some of the band (**`micros_eq_iff`**).
  Machine integers end at 2^63, which is reached at `keyBound` (`micros_of_keyBound_le`, `micros_of_lt_keyBound`).
  Below it the count is close to the value (**`abs_micros_sub_lt`**).
-/
import SignChart.Proofs.Number.HalfEven

namespace SignChart

/-! ## Counts -/

/-- The number of millionths. -/
def micros (r : ℚ) : ℤ := halfAway (rounded (10 ^ 6 * r))

/-- The values that are counted: a whole number in the format, divided by a million. -/
def IsKeyValue (r : ℚ) : Prop := ∃ p : ℤ, Representable p ∧ r = rounded (p / 10 ^ 6)

theorem micros_neg (r : ℚ) : micros (-r) = -micros r := by
  rw [micros, mul_neg, rounded_neg, halfAway_neg, micros]

theorem IsKeyValue.neg {r : ℚ} (h : IsKeyValue r) : IsKeyValue (-r) := by
  obtain ⟨p, hp, rfl⟩ := h
  exact ⟨-p, by simpa using hp.neg, by rw [← rounded_neg, Int.cast_neg, neg_div]⟩

/-! ## Small values -/

theorem micros_of_small {p : ℤ} (h : |(p : ℚ) / 10 ^ 6| < 2 ^ (32 : ℤ)) : micros (rounded (p / 10 ^ 6)) = p := by
  have herror := abs_rounded_sub_le (e := -21) (by norm_num) h
  have hscaled : |10 ^ 6 * rounded (p / 10 ^ 6) - p| ≤ 10 ^ 6 * (2 ^ (-21 : ℤ) / 2) := by
    have hfactor : 10 ^ 6 * rounded (p / 10 ^ 6) - p = 10 ^ 6 * (rounded (p / 10 ^ 6) - p / 10 ^ 6) := by
      field_simp
    rw [hfactor, abs_mul, abs_of_pos (show (0 : ℚ) < 10 ^ 6 by norm_num)]
    gcongr
  have hsmall : |10 ^ 6 * rounded (p / 10 ^ 6)| < 2 ^ ((-1 : ℤ) + 53) := by
    rw [abs_div, div_lt_iff₀ (by norm_num)] at h
    have hle := abs_le.1 hscaled
    rw [abs_lt] at h ⊢
    norm_num at h hle ⊢
    constructor <;> linarith
  have herror' := abs_rounded_sub_le (e := -1) (by norm_num) hsmall
  refine halfAway_eq_of_abs_lt ?_
  generalize rounded (10 ^ 6 * rounded (p / 10 ^ 6)) = q at herror'
  rw [abs_le] at hscaled herror'
  rw [abs_lt]
  norm_num at hscaled herror' ⊢
  constructor <;> linarith

/-! ## Great values -/

theorem micros_of_great {r : ℚ} (h : 2 ^ (52 : ℤ) ≤ 10 ^ 6 * r) : (micros r : ℚ) = rounded (10 ^ 6 * r) := by
  obtain ⟨n, hn⟩ := exists_rounded_eq_intCast h
  rw [micros, hn, halfAway_intCast]

theorem two_zpow_add (e k : ℤ) : (2 : ℚ) ^ (e + k) = 2 ^ k * 2 ^ e := by rw [zpow_add₀ (by norm_num), mul_comm]

/-- A product with 20 binary digits more than its factor has a unit of 2^20 units of the factor.  It is rounded to the
number that the factor comes from, which is less than half of that away. -/
theorem rounded_mul_of_upper {p : ℚ} (hp : Representable p) {e : ℤ} {r : ℚ} (hr : |r - p / 10 ^ 6| ≤ 2 ^ e / 2)
    (hlow : 2 ^ 72 * 2 ^ e ≤ 10 ^ 6 * r) (hhigh : r ≤ 2 ^ 53 * 2 ^ e) (he : -1074 ≤ e) :
    rounded (10 ^ 6 * r) = p := by
  have hpos : (0 : ℚ) < 2 ^ e := by positivity
  have herror : |10 ^ 6 * r - p| ≤ 500000 * 2 ^ e := by
    rw [abs_le] at hr ⊢
    constructor <;> linarith
  have hrounded : rounded (10 ^ 6 * r) = roundAt (e + 20) (10 ^ 6 * r) := by
    have hnonneg : 0 ≤ 10 ^ 6 * r := le_trans (by positivity) hlow
    refine rounded_eq_roundAt (by omega) (.inl ?_) ?_
    · rw [abs_of_nonneg hnonneg, add_assoc, two_zpow_add]
      norm_num at hlow ⊢
      linarith
    · rw [abs_of_nonneg hnonneg, add_assoc, two_zpow_add]
      norm_num at hhigh ⊢
      linarith
  have hle : 2 ^ (e + 20 + 52) ≤ p := by
    by_contra hlt
    rw [not_le] at hlt
    have hbelow := hp.le_of_lt (n := 2 ^ 53) (e := e + 19) (by norm_num) (by
      rw [add_assoc, two_zpow_add] at hlt
      rw [two_zpow_add]
      norm_num at hlt ⊢
      linarith)
    rw [two_zpow_add] at hbelow
    rw [abs_le] at herror
    norm_num at hbelow hlow
    linarith
  obtain ⟨n, hn⟩ := hp.exists_eq_mul (hle.trans (le_abs_self p))
  rw [hrounded, roundAt_eq_of_abs_lt (n := n), ← hn]
  rw [← hn, two_zpow_add]
  refine herror.trans_lt ?_
  norm_num
  linarith

/-- A product with 19 binary digits more is off by 2^18 units of the factor at most, not half a million, and its
quotient is rounded back. -/
theorem rounded_div_of_lower {e n : ℤ} (hn : 2 ^ 52 < n) (hn' : n < 2 ^ 53) (he : -1074 ≤ e)
    (hhigh : 10 ^ 6 * (n * 2 ^ e : ℚ) < 2 ^ 72 * 2 ^ e) :
    rounded (rounded (10 ^ 6 * (n * 2 ^ e)) / 10 ^ 6) = n * 2 ^ e := by
  have hpos : (0 : ℚ) < 2 ^ e := by positivity
  have hn₁ : (2 : ℚ) ^ 52 + 1 ≤ n := by exact_mod_cast hn
  have hn₂ : (n : ℚ) + 1 ≤ 2 ^ 53 := by exact_mod_cast hn'
  have hlow : ((2 : ℚ) ^ 52 + 1) * 2 ^ e ≤ n * 2 ^ e := by gcongr
  have hupp : ((n : ℚ) + 1) * 2 ^ e ≤ 2 ^ 53 * 2 ^ e := by gcongr
  have herror : |rounded (10 ^ 6 * (n * 2 ^ e)) - 10 ^ 6 * (n * 2 ^ e)| ≤ 2 ^ 18 * 2 ^ e := by
    have hbound := abs_rounded_sub_le (q := 10 ^ 6 * (n * 2 ^ e)) (e := e + 19) (by omega) (by
      rw [abs_of_nonneg (by linarith), add_assoc, two_zpow_add]
      norm_num at hhigh ⊢
      linarith)
    rw [two_zpow_add] at hbound
    refine hbound.trans ?_
    norm_num
    linarith
  generalize rounded (10 ^ 6 * (n * 2 ^ e)) = q at herror
  have hnear : |q / 10 ^ 6 - n * 2 ^ e| < 2 ^ e / 2 := by
    rw [abs_le] at herror
    rw [abs_lt]
    norm_num at herror ⊢
    constructor <;> linarith
  rw [← roundAt_eq_of_abs_lt hnear]
  rw [abs_lt] at hnear
  have hnonneg : 0 ≤ q / 10 ^ 6 := by linarith
  refine rounded_eq_roundAt he (.inl ?_) ?_
  · rw [abs_of_nonneg hnonneg, two_zpow_add]
    norm_num at hlow ⊢
    linarith
  · rw [abs_of_nonneg hnonneg, two_zpow_add]
    norm_num at hupp ⊢
    linarith

/-- A power of two is multiplied with a million exactly. -/
theorem rounded_div_of_two_zpow {k : ℤ} (hk : -1074 ≤ k) : rounded (rounded (10 ^ 6 * 2 ^ k) / 10 ^ 6) = 2 ^ k := by
  have hproduct : Representable (10 ^ 6 * 2 ^ k) := ⟨10 ^ 6, k, by norm_num, hk, by push_cast; ring⟩
  rw [rounded_of_representable hproduct, mul_div_cancel_left₀ _ (by norm_num), rounded_two_zpow hk]

theorem rounded_micros_of_great {p : ℤ} (hp : Representable p) {r : ℚ} (hr : r = rounded (p / 10 ^ 6))
    (h : 2 ^ (52 : ℤ) ≤ 10 ^ 6 * r) : rounded (micros r / 10 ^ 6) = r := by
  obtain ⟨n, e, he, hlow, hhigh, hn, herror⟩ := exists_rounded_digits (p / 10 ^ 6)
  rw [← hr] at hn herror
  have hpos : (0 : ℚ) < 2 ^ e := by positivity
  rw [micros_of_great h]
  norm_num at h
  have hn₀ : (0 : ℚ) < n := pos_of_mul_pos_left (hn ▸ by linarith) hpos.le
  rw [abs_of_pos (by exact_mod_cast hn₀)] at hlow hhigh
  have hhigh' : (n : ℚ) ≤ 2 ^ 53 := by exact_mod_cast hhigh
  have hlow' : 2 ^ 52 ≤ n := by
    refine hlow.resolve_right fun hleast => ?_
    have hsmall : r ≤ 1 := by
      calc r = n * 2 ^ e := hn
        _ ≤ 2 ^ 53 * 2 ^ (-53 : ℤ) := by gcongr; norm_num; omega
        _ = 1 := by norm_num
    linarith
  rcases hlow'.eq_or_lt with rfl | hlt
  · have hpower : r = 2 ^ (e + 52) := by rw [hn, two_zpow_add]; norm_num
    rw [hpower, rounded_div_of_two_zpow (by omega)]
  rcases hhigh.eq_or_lt with rfl | hlt'
  · have hpower : r = 2 ^ (e + 53) := by rw [hn, two_zpow_add]; norm_num
    rw [hpower, rounded_div_of_two_zpow (by omega)]
  rcases lt_or_ge (10 ^ 6 * r) (2 ^ 72 * 2 ^ e) with hpart | hpart
  · rw [hn] at hpart ⊢
    exact rounded_div_of_lower hlt hlt' he hpart
  · have hupper : r ≤ 2 ^ 53 * 2 ^ e := by
      rw [hn]
      gcongr
    rw [rounded_mul_of_upper hp herror hpart hupper he, ← hr]

/-! ## The band -/

/-- From 2^32 on the unit in the last place is almost a millionth, and up to 2^52 products have a half for theirs. -/
def InBand (r : ℚ) : Prop := 2 ^ 32 ≤ r ∧ 10 ^ 6 * r < 2 ^ 52

/-- Rounded to a half first and then to a whole number, all goes up that is more than a quarter above one. -/
theorem halfAway_half_halfEven {q : ℚ} (h : 0 ≤ q) : halfAway (halfEven (2 * q) / 2) = ⌈q - 1 / 4⌉ := by
  have hnonneg : 0 ≤ halfEven (2 * q) := by
    have hmono := halfEven_mono (show ((0 : ℤ) : ℚ) ≤ 2 * q by push_cast; linarith)
    rwa [halfEven_intCast] at hmono
  have hspec := halfEven_spec (2 * q)
  generalize halfEven (2 * q) = n at hnonneg hspec
  have hnonneg' : (0 : ℚ) ≤ n := by exact_mod_cast hnonneg
  rw [halfAway_of_nonneg (by positivity)]
  rcases Int.even_or_odd' n with ⟨k, rfl | rfl⟩
  · have hle : |2 * q - (2 * k : ℤ)| ≤ 1 / 2 := by rcases hspec with h | ⟨h, -⟩ <;> linarith
    rw [abs_le] at hle
    push_cast at hle ⊢
    have hfloor : ⌊2 * (k : ℚ) / 2 + 1 / 2⌋ = k := Int.floor_eq_iff.2 ⟨by linarith, by linarith⟩
    have hceil : ⌈q - 1 / 4⌉ = k := Int.ceil_eq_iff.2 ⟨by linarith, by linarith⟩
    rw [hfloor, hceil]
  · have hlt : |2 * q - (2 * k + 1 : ℤ)| < 1 / 2 :=
      hspec.resolve_right fun ⟨_, heven⟩ => absurd heven (by simp)
    rw [abs_lt] at hlt
    push_cast at hlt ⊢
    have hfloor : ⌊(2 * (k : ℚ) + 1) / 2 + 1 / 2⌋ = k + 1 :=
      Int.floor_eq_iff.2 ⟨by push_cast; linarith, by push_cast; linarith⟩
    have hceil : ⌈q - 1 / 4⌉ = k + 1 := Int.ceil_eq_iff.2 ⟨by push_cast; linarith, by push_cast; linarith⟩
    rw [hfloor, hceil]

theorem InBand.micros_eq {r : ℚ} (h : InBand r) : micros r = ⌈10 ^ 6 * r - 1 / 4⌉ := by
  obtain ⟨hlow, hhigh⟩ := h
  have hnonneg : 0 ≤ 10 ^ 6 * r := by linarith [show (0 : ℚ) < 2 ^ 32 by norm_num]
  have hrounded : rounded (10 ^ 6 * r) = halfEven (2 * (10 ^ 6 * r)) / 2 := by
    rw [rounded_eq_roundAt (e := -1) (by norm_num)]
    · rw [roundAt, zpow_neg_one, div_inv_eq_mul, mul_comm _ (2 : ℚ), ← div_eq_mul_inv]
    · left
      rw [abs_of_nonneg hnonneg]
      norm_num at hlow ⊢
      linarith
    · rw [abs_of_nonneg hnonneg]
      norm_num at hhigh ⊢
      linarith
  rw [micros, hrounded, halfAway_half_halfEven hnonneg]

theorem InBand.micros_bounds {r : ℚ} (h : InBand r) : 2 ^ 32 * 10 ^ 6 ≤ micros r ∧ micros r ≤ 2 ^ 52 := by
  rw [h.micros_eq]
  obtain ⟨hlow, hhigh⟩ := h
  constructor
  · rw [Int.le_ceil_iff]
    push_cast
    linarith
  · rw [Int.ceil_le]
    push_cast
    linarith

/-! ## Counts tell values apart -/

/-- Outside the band rounding leads back from the count to the value. -/
theorem rounded_micros {r : ℚ} (hr : IsKeyValue r) (hband : ¬ InBand r) (hband' : ¬ InBand (-r)) :
    rounded (micros r / 10 ^ 6) = r := by
  obtain ⟨p, hp, hvalue⟩ := id hr
  rcases lt_or_ge |r| (2 ^ (32 : ℤ)) with hsmall | hlarge
  · have hquotient : |(p : ℚ) / 10 ^ 6| < 2 ^ (32 : ℤ) := by
      by_contra hle
      rw [not_lt, le_abs] at hle
      rw [abs_lt] at hsmall
      rcases hle with hle | hle
      · have hmono := rounded_mono hle
        rw [rounded_two_zpow (by norm_num), ← hvalue] at hmono
        exact absurd hmono (not_le.2 hsmall.2)
      · have hmono := rounded_mono hle
        rw [rounded_two_zpow (by norm_num), rounded_neg, ← hvalue] at hmono
        linarith
    rw [hvalue, micros_of_small hquotient]
  · rcases le_abs.1 hlarge with hlarge | hlarge
    · exact rounded_micros_of_great hp hvalue
        (not_lt.1 fun hlt => hband ⟨by exact_mod_cast hlarge, by exact_mod_cast hlt⟩)
    · have hback := rounded_micros_of_great (p := -p) (by simpa using hp.neg)
        (show -r = rounded ((-p : ℤ) / 10 ^ 6) by rw [Int.cast_neg, neg_div, rounded_neg, hvalue])
        (not_lt.1 fun hlt => hband' ⟨by exact_mod_cast hlarge, by exact_mod_cast hlt⟩)
      rw [micros_neg, Int.cast_neg, neg_div, rounded_neg] at hback
      exact neg_injective hback

/-- No other value has the count of one of the band. -/
theorem InBand.of_micros_eq {r s : ℚ} (hr : InBand r) (hs : IsKeyValue s) (h : micros r = micros s) : InBand s := by
  obtain ⟨hlow, hhigh⟩ := hr.micros_bounds
  rw [h] at hlow hhigh
  by_contra hband
  have hband' : ¬ InBand (-s) := fun hband' => by
    have hnegative := hband'.micros_bounds.1
    rw [micros_neg] at hnegative
    omega
  have hback := rounded_micros hs hband hband'
  refine hband ⟨?_, ?_⟩
  · have hmono := rounded_mono (show 2 ^ (32 : ℤ) ≤ (micros s : ℚ) / 10 ^ 6 by
      have hcast : ((2 ^ 32 * 10 ^ 6 : ℤ) : ℚ) ≤ micros s := by exact_mod_cast hlow
      rw [le_div_iff₀ (by norm_num)]
      norm_num at hcast ⊢
      linarith)
    rw [hback, rounded_two_zpow (by norm_num)] at hmono
    exact_mod_cast hmono
  · -- the quotient of the greatest count is rounded down
    have hmono := rounded_mono (show (micros s : ℚ) / 10 ^ 6 ≤ 2 ^ 52 / 10 ^ 6 by
      have hcast : (micros s : ℚ) ≤ (2 ^ 52 : ℤ) := by exact_mod_cast hhigh
      norm_num at hcast ⊢
      linarith)
    have hquotient : rounded (2 ^ 52 / 10 ^ 6) = (4722366482869645 : ℤ) * 2 ^ (-20 : ℤ) := by
      rw [rounded_eq_roundAt (e := -20) (by norm_num) (.inl (by norm_num)) (by norm_num)]
      exact roundAt_eq_of_abs_lt (by norm_num)
    rw [hback, hquotient] at hmono
    norm_num at hmono ⊢
    linarith

/-- Two values of the band with the same count. -/
def Blurred (r s : ℚ) : Prop := InBand r ∧ InBand s ∧ ⌈10 ^ 6 * r - 1 / 4⌉ = ⌈10 ^ 6 * s - 1 / 4⌉

/-- **Counts.**  Different values have different counts, except in the band. -/
theorem micros_eq_iff {r s : ℚ} (hr : IsKeyValue r) (hs : IsKeyValue s) :
    micros r = micros s ↔ r = s ∨ Blurred r s ∨ Blurred (-r) (-s) := by
  have hblurred {r s : ℚ} (hs : IsKeyValue s) (hband : InBand r) (h : micros r = micros s) : Blurred r s := by
    have hband' := hband.of_micros_eq hs h
    exact ⟨hband, hband', by rw [← hband.micros_eq, ← hband'.micros_eq, h]⟩
  constructor
  · intro h
    by_cases hband : InBand r
    · exact .inr (.inl (hblurred hs hband h))
    by_cases hband' : InBand (-r)
    · exact .inr (.inr (hblurred hs.neg hband' (by rw [micros_neg, micros_neg, h])))
    left
    have hs₁ : ¬ InBand s := fun hs₁ => hband (hs₁.of_micros_eq hr h.symm)
    have hs₂ : ¬ InBand (-s) := fun hs₂ => hband' (hs₂.of_micros_eq hr.neg (by rw [micros_neg, micros_neg, h]))
    rw [← rounded_micros hr hband hband', h, rounded_micros hs hs₁ hs₂]
  · rintro (rfl | ⟨hr, hs, h⟩ | ⟨hr, hs, h⟩)
    · rfl
    · rw [hr.micros_eq, hs.micros_eq, h]
    · rw [← neg_inj, ← micros_neg, ← micros_neg, hr.micros_eq, hs.micros_eq, h]

/-! ## Saturation -/

/-- The least value whose count is beyond the machine integers. -/
def keyBound : ℚ := (4722366482869645 : ℤ) * 2 ^ (-9 : ℤ)

theorem micros_of_keyBound_le {r : ℚ} (h : keyBound ≤ r) : 2 ^ 63 ≤ micros r := by
  have hproduct : rounded (10 ^ 6 * keyBound) = (2 ^ 63 : ℤ) := by
    have hpower : ((2 ^ 63 : ℤ) : ℚ) = (2 ^ 53 : ℤ) * 2 ^ (10 : ℤ) := by norm_num
    rw [hpower, rounded_eq_roundAt (e := 10) (by norm_num) (.inl (by norm_num [keyBound])) (by norm_num [keyBound])]
    exact roundAt_eq_of_abs_lt (by norm_num [keyBound, abs_lt])
  have hmono := halfAway_mono (rounded_mono (show 10 ^ 6 * keyBound ≤ 10 ^ 6 * r by linarith))
  rwa [hproduct, halfAway_intCast] at hmono

theorem micros_of_lt_keyBound {r : ℚ} (hr : Representable r) (h : r < keyBound) : micros r ≤ 2 ^ 63 - 2048 := by
  have hle := hr.le_of_lt (by norm_num) h
  have hbound : Representable ((2 ^ 63 - 2048 : ℤ) : ℚ) := ⟨2 ^ 52 - 1, 11, by norm_num, by norm_num, by norm_num⟩
  have hmono := halfAway_mono (rounded_mono (show 10 ^ 6 * r ≤ ((2 ^ 63 - 2048 : ℤ) : ℚ) by
    norm_num at hle ⊢
    linarith))
  rwa [rounded_of_representable hbound, halfAway_intCast] at hmono

/-! ## Rounding a value -/

/-- A value rounded to millionths. -/
def keyValue (a : ℚ) : ℚ := rounded (halfAway (rounded (10 ^ 6 * a)) / 10 ^ 6)

theorem keyValue_neg (a : ℚ) : keyValue (-a) = -keyValue a := by
  rw [keyValue, mul_neg, rounded_neg, halfAway_neg, Int.cast_neg, neg_div, rounded_neg, keyValue]

theorem isKeyValue_keyValue (a : ℚ) : IsKeyValue (keyValue a) :=
  ⟨_, representable_halfAway (representable_rounded _), rfl⟩

theorem lt_of_keyValue_lt {a : ℚ} (h : keyValue a < keyBound) : 10 ^ 6 * a < 2 ^ 63 := by
  by_contra hle
  rw [not_lt] at hle
  have hpower : Representable ((2 ^ 63 : ℤ) : ℚ) := ⟨1, 63, by norm_num, by norm_num, by norm_num⟩
  have hquotient : rounded ((2 ^ 63 : ℤ) / 10 ^ 6) = keyBound := by
    rw [rounded_eq_roundAt (e := -9) (by norm_num) (.inl (by norm_num)) (by norm_num)]
    exact roundAt_eq_of_abs_lt (by norm_num [abs_lt])
  have hmono := halfAway_mono (rounded_mono (show ((2 ^ 63 : ℤ) : ℚ) ≤ 10 ^ 6 * a by push_cast; exact hle))
  rw [rounded_of_representable hpower, halfAway_intCast] at hmono
  have hmono' := rounded_mono (show ((2 ^ 63 : ℤ) : ℚ) / 10 ^ 6 ≤ halfAway (rounded (10 ^ 6 * a)) / 10 ^ 6 by
    gcongr)
  rw [hquotient] at hmono'
  exact absurd h (not_lt.2 hmono')

/-- Below saturation the count is off by less than half of a whole unit. -/
theorem abs_micros_sub_lt {a : ℚ} (h : |keyValue a| < keyBound) : |micros (keyValue a) - 10 ^ 6 * a| < 500000 := by
  have ha : |10 ^ 6 * a| < 2 ^ 63 := by
    rw [abs_lt] at h ⊢
    have hupper := lt_of_keyValue_lt h.2
    have hlower := lt_of_keyValue_lt (a := -a) (by rw [keyValue_neg]; linarith)
    constructor <;> linarith
  have hproduct := abs_rounded_sub_le (q := 10 ^ 6 * a) (e := 10) (by norm_num) (by norm_num at ha ⊢; exact ha)
  have hwhole := abs_halfAway_sub_le (rounded (10 ^ 6 * a))
  have hkey : keyValue a = rounded (halfAway (rounded (10 ^ 6 * a)) / 10 ^ 6) := rfl
  generalize (halfAway (rounded (10 ^ 6 * a)) : ℚ) = p at hwhole hkey
  generalize rounded (10 ^ 6 * a) = x at hproduct hwhole
  rw [abs_lt] at ha
  rw [abs_le] at hproduct hwhole
  norm_num at ha hproduct hwhole
  have hquotient := abs_rounded_sub_le (q := p / 10 ^ 6) (e := -9) (by norm_num) (by
    rw [abs_lt]
    norm_num
    constructor <;> linarith)
  rw [← hkey, abs_le] at hquotient
  norm_num at hquotient
  have hproduct' := abs_rounded_sub_le (q := 10 ^ 6 * keyValue a) (e := 11) (by norm_num) (by
    rw [abs_lt]
    norm_num
    constructor <;> linarith)
  have hwhole' := abs_halfAway_sub_le (rounded (10 ^ 6 * keyValue a))
  rw [micros, abs_lt]
  generalize (halfAway (rounded (10 ^ 6 * keyValue a)) : ℚ) = k at hwhole' ⊢
  generalize rounded (10 ^ 6 * keyValue a) = y at hproduct' hwhole'
  rw [abs_le] at hproduct' hwhole'
  norm_num at hproduct' hwhole' ⊢
  constructor <;> linarith

end SignChart
