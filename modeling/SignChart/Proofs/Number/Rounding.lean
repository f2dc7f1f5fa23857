/-
  What floating-point numbers stand for, and what their arithmetic gives.

  A number is unpacked into a sign, a mantissa and an exponent, an operation is carried out on these exactly, the
  mantissa of the result is cut to 53 digits, and the result is packed again.  `unpackedValue` is the rational number
  meant.  The stages one by one:
    1. packing loses nothing of a number that is in its format (`Packable`), and every finite number is
       (**`unpack_pack`**, **`packable_unpack`**);
    2. of the digits cut off, two bits are kept, and these are enough to find the nearest mantissa, of two the even
       one (`Represents`).  Rounding up may carry into a 54th digit, which is shifted out exactly (`carry_spec`).
       So every operation ends in the exact result, `rounded` (**`roundedTo_roundWithAccuracy`**);
    3. so sums, differences, products and quotients of finite numbers are the exact ones rounded, or an infinity if
       these are too great (**`Float.isRounded_add`** and the lemmas after it).  Short of an overflow they are off by
       one unit in the last place, or by the least positive number, at most (**`Float.rounds_add`** and the lemmas
       after it);
    4. the order of numbers is that of their values (`compare_unpacked`), which makes `Float` an instance of `HasValue`.
-/
import SignChart.Proofs.Number.Value
import SignChart.Proofs.Number.HalfEven

namespace SignChart
open Float.Model Float.Model.UnpackedFloat

/-! ## Packing -/

/-- A finite number in its format: at most 53 binary digits, and fewer only at the least exponent. -/
def Packable : UnpackedFloat → Prop
  | .zero _ => True
  | .finite _ m e _ => m < 2 ^ 53 ∧ -1074 ≤ e ∧ e ≤ 971 ∧ (2 ^ 52 ≤ m ∨ e = -1074)
  | _ => False

/-- The sign is the first bit. -/
@[simp] theorem unpackSign_packComponents (format : Format) (s : UnpackedFloat.Sign) (e : BitVec format.exponentBits)
    (m : BitVec format.mantissaBitsWithoutImplicit) : unpackSign (packComponents format s e m) = s.toBitVec := by
  refine BitVec.eq_of_getLsbD_eq fun i hi => ?_
  obtain rfl : i = 0 := by omega
  simp [unpackSign, packComponents, BitVec.getLsbD_append, BitVec.getElem_append]

@[simp] theorem ofBitVec_toBitVec (s : UnpackedFloat.Sign) : Sign.ofBitVec s.toBitVec = s := by
  cases s <;> rfl

/-- The digit that is not stored counts as 2^52. -/
theorem toNat_append_one (m : BitVec 52) : (1#1 ++ m).toNat = 2 ^ 52 + m.toNat := by
  rw [BitVec.toNat_append, ← Nat.shiftLeft_add_eq_or_of_lt m.isLt]
  rfl

/-- A biased exponent that is neither 0 nor the greatest is that of a mantissa with all 53 digits. -/
theorem unpack_normal (s : UnpackedFloat.Sign) {b m : ℕ} (hb : 0 < b) (hb' : b + 1 < 2 ^ 11) (hm : 2 ^ 52 ≤ m)
    (hm' : m < 2 ^ 53) :
    UnpackedFloat.unpack Format.binary64 (packComponents _ s (BitVec.ofNat 11 b) (BitVec.ofNat 52 m)) =
      .finite s m (b - 1075) (by omega) := by
  have hexp : (BitVec.ofNat 11 b).toNat = b := by rw [BitVec.toNat_ofNat]; omega
  have hman : (1#1 ++ BitVec.ofNat 52 m).toNat = m := by
    rw [toNat_append_one, BitVec.toNat_ofNat]
    omega
  have hfinite : BitVec.ofNat 11 b ≠ -1#11 := fun h => by
    have h' := congrArg BitVec.toNat h
    rw [hexp, show (-1#11).toNat = 2047 from rfl] at h'
    omega
  have hpos : BitVec.ofNat 11 b ≠ 0#11 := fun h => by
    have h' := congrArg BitVec.toNat h
    rw [hexp, show (0#11).toNat = 0 from rfl] at h'
    omega
  simp only [UnpackedFloat.unpack, unpackMantissa_packComponents, unpackExponent_packComponents,
    unpackSign_packComponents, ofBitVec_toBitVec, hfinite, hpos, if_false, hexp, hman]
  rfl

/-- The biased exponent 0 is that of a mantissa with fewer digits, at the least exponent. -/
theorem unpack_subnormal (s : UnpackedFloat.Sign) {m : ℕ} (hm : 0 < m) (hm' : m < 2 ^ 52) :
    UnpackedFloat.unpack Format.binary64 (packComponents _ s 0#11 (BitVec.ofNat 52 m)) =
      .finite s m (-1074) hm := by
  have hman : (BitVec.ofNat 52 m).toNat = m := by rw [BitVec.toNat_ofNat]; omega
  have hpos : BitVec.ofNat 52 m ≠ 0#52 := fun h => by
    have h' := congrArg BitVec.toNat h
    rw [hman, show (0#52).toNat = 0 from rfl] at h'
    omega
  simp only [UnpackedFloat.unpack, unpackMantissa_packComponents, unpackExponent_packComponents,
    unpackSign_packComponents, ofBitVec_toBitVec, show (0#11) ≠ -1#11 from by decide, hpos, if_false, hman]
  rfl

/-- Packing loses nothing of a number that is in its format. -/
theorem unpack_pack {u : UnpackedFloat} (h : Packable u) :
    UnpackedFloat.unpack Format.binary64 (UnpackedFloat.pack Format.binary64 u) = u := by
  match u, h with
  | .zero s, _ => cases s <;> rfl
  | .finite s m e hm, ⟨hlt, hmin, hmax, hcanonical⟩ =>
    have hbiased : e + Format.binary64.exponentBias + Format.binary64.mantissaBitsWithoutImplicit = e + 1075 := by
      show e + (1023 : Int) + (52 : Int) = e + 1075
      omega
    have hnormal : m.log2 + 1 = Format.binary64.mantissaBits ↔ 2 ^ 52 ≤ m := by
      have hlow := Nat.le_log2 (k := 52) (Nat.ne_of_gt hm)
      have hhigh := (Nat.log2_lt (k := 53) (Nat.ne_of_gt hm)).2 hlt
      show m.log2 + 1 = 53 ↔ _
      omega
    simp only [UnpackedFloat.pack, hbiased, hnormal]
    rw [if_neg (by show ¬ 2 ^ 11 ≤ _; omega)]
    by_cases hn : 2 ^ 52 ≤ m
    · rw [if_pos hn]
      refine (unpack_normal s (by omega) (by omega) hn hlt).trans ?_
      simp only [UnpackedFloat.finite.injEq, true_and]
      omega
    · rw [if_neg hn]
      obtain rfl := hcanonical.resolve_left hn
      exact unpack_subnormal s hm (by omega)

/-- A finite number is unpacked to what can be packed again. -/
theorem packable_unpack {x : Float} (h : x.isFinite = true) : Packable x.toModel.unpack := by
  have hfinite : x.toModel.unpack.isFinite = true := h
  cases hu : x.toModel.unpack with
  | notANumber => rw [hu] at hfinite; exact absurd hfinite (by decide)
  | infinity s => rw [hu] at hfinite; exact absurd hfinite (by simp [UnpackedFloat.isFinite])
  | zero s => trivial
  | finite s m e hpos =>
    unfold Float.Model.unpack UnpackedFloat.unpack at hu
    have hm := (@unpackMantissa Format.binary64 x.toModel.toBits.toBitVec).isLt
    have he := (@unpackExponent Format.binary64 x.toModel.toBits.toBitVec).isLt
    have hbias : (Format.binary64.exponentBias + Format.binary64.mantissaBitsWithoutImplicit : ℤ) = 1075 := rfl
    dsimp only at hu he hm
    rw [hbias] at hu
    split_ifs at hu with hlast hinf hfirst hzero
    · obtain ⟨-, rfl, rfl⟩ := UnpackedFloat.finite.inj hu
      rw [hfirst]
      exact ⟨by omega, by decide, by decide, .inr (by decide)⟩
    · obtain ⟨-, rfl, rfl⟩ := UnpackedFloat.finite.inj hu
      have hlast' : _ ≠ 2047 := fun h' => hlast (BitVec.eq_of_toNat_eq h')
      have hfirst' : _ ≠ 0 := fun h' => hfirst (BitVec.eq_of_toNat_eq h')
      show _ < 2 ^ 53 ∧ _ ∧ _ ∧ (2 ^ 52 ≤ _ ∨ _)
      rw [toNat_append_one]
      omega

/-! ## Values -/

/-- The number that an unpacked number stands for, 0 for what is not finite. -/
def unpackedValue : UnpackedFloat → ℚ
  | .finite s m e _ => (s.apply m : ℤ) * 2 ^ e
  | _ => 0

/-- The sign has no part in the magnitude. -/
theorem abs_apply_mul (s : UnpackedFloat.Sign) (m : ℕ) (e : ℤ) : |((s.apply m : ℤ) : ℚ) * 2 ^ e| = m * 2 ^ e := by
  have hpos : (0 : ℚ) ≤ m * 2 ^ e := by positivity
  cases s <;> simp [Sign.apply, abs_of_nonneg hpos]

/-- A finite number with its digits in place, which may be too great for the format. -/
def Canonical : UnpackedFloat → Prop
  | .zero _ => True
  | .finite _ m e _ => m < 2 ^ 53 ∧ -1074 ≤ e ∧ (2 ^ 52 ≤ m ∨ e = -1074)
  | _ => False

/-- What can be packed has its digits in place. -/
theorem Packable.canonical {u : UnpackedFloat} (h : Packable u) : Canonical u := by
  match u, h with
  | .zero _, _ => trivial
  | .finite s m e _, ⟨hm, hmin, _, hfull⟩ => exact ⟨hm, hmin, hfull⟩

/-- The least power of two that is too great for the format. -/
def overflowBound : ℚ := 2 ^ (1024 : ℤ)

/-- The magnitude alone decides whether a number is too great. -/
theorem Canonical.packable {u : UnpackedFloat} (h : Canonical u) (hmax : |unpackedValue u| < overflowBound) :
    Packable u := by
  cases u with
  | notANumber => exact h
  | infinity _ => exact h
  | zero _ => trivial
  | finite s m e _ =>
    obtain ⟨hm, hmin, hfull⟩ := h
    refine ⟨hm, hmin, ?_, hfull⟩
    rcases hfull with hfull | rfl
    · have hfull' : (2 : ℚ) ^ (52 : ℤ) ≤ m := by exact_mod_cast hfull
      have hlt : (2 : ℚ) ^ (52 + e) < 2 ^ (1024 : ℤ) := by
        rw [zpow_add₀ (by norm_num)]
        refine lt_of_le_of_lt ?_ hmax
        rw [unpackedValue, abs_apply_mul]
        gcongr
      have := (zpow_lt_zpow_iff_right₀ (by norm_num)).1 hlt
      omega
    · decide

/-- What can be packed is not too great. -/
theorem Packable.abs_value_lt {u : UnpackedFloat} (h : Packable u) : |unpackedValue u| < overflowBound := by
  cases u with
  | notANumber => exact h.elim
  | infinity _ => exact h.elim
  | zero _ =>
    rw [show unpackedValue (.zero _) = 0 from rfl, abs_zero, overflowBound]
    positivity
  | finite s m e _ =>
    obtain ⟨hm, -, hmax, -⟩ := h
    have hm' : (m : ℚ) < 2 ^ (53 : ℤ) := by exact_mod_cast hm
    rw [unpackedValue, abs_apply_mul]
    calc (m : ℚ) * 2 ^ e < 2 ^ (53 : ℤ) * 2 ^ e := by gcongr
      _ = 2 ^ (53 + e) := (zpow_add₀ (by norm_num) ..).symm
      _ ≤ 2 ^ (1024 : ℤ) := zpow_le_zpow_right₀ (by norm_num) (by omega)

/-- A number with its digits in place is a multiple of the unit of its last place. -/
theorem Canonical.representable {u : UnpackedFloat} (h : Canonical u) : Representable (unpackedValue u) := by
  match u, h with
  | .zero _, _ => exact ⟨0, 0, by norm_num, by norm_num, by simp [unpackedValue]⟩
  | .finite s m e _, ⟨hm, hmin, _⟩ =>
    refine ⟨s.apply m, e, ?_, hmin, rfl⟩
    have hm' : (m : ℤ) < 2 ^ 53 := by exact_mod_cast hm
    cases s <;> simpa [Sign.apply] using hm'

/-! ## Cutting a mantissa -/

/-- The numbers that a mantissa and the bits behind it stand for: the mantissa itself or half a unit more if no more
bits were set, and what lies between otherwise. -/
def Represents : ExtendedMantissa → ℚ → Prop
  | ⟨m, false, false⟩, w => w = m
  | ⟨m, false, true⟩, w => m < w ∧ w < m + 1 / 2
  | ⟨m, true, false⟩, w => w = m + 1 / 2
  | ⟨m, true, true⟩, w => m + 1 / 2 < w ∧ w < m + 1

/-- Nothing was cut off. -/
theorem represents_exact (m : ℕ) : Represents (.ofMantissaAndAccuracy m .exact) m := rfl

/-- A remainder is compared with half of the divisor by doubling it. -/
theorem div_le_half_iff {r d : ℕ} (hd : 0 < d) : (r : ℚ) / d ≤ 1 / 2 ↔ 2 * r ≤ d := by
  rw [div_le_iff₀ (by exact_mod_cast hd), ← Nat.cast_le (α := ℚ)]
  push_cast
  constructor <;> intro h <;> linarith

theorem half_le_div_iff {r d : ℕ} (hd : 0 < d) : 1 / 2 ≤ (r : ℚ) / d ↔ d ≤ 2 * r := by
  rw [le_div_iff₀ (by exact_mod_cast hd), ← Nat.cast_le (α := ℚ)]
  push_cast
  constructor <;> intro h <;> linarith

/-- A quotient is its whole part and what the remainder adds. -/
theorem div_eq_add_mod_div (n : ℕ) {d : ℕ} (hd : 0 < d) : (n : ℚ) / d = (n / d : ℕ) + (n % d : ℕ) / d := by
  have hd' : (0 : ℚ) < d := by exact_mod_cast hd
  have hmod : (n : ℚ) = d * (n / d : ℕ) + (n % d : ℕ) := by exact_mod_cast (Nat.div_add_mod n d).symm
  rw [hmod]
  field_simp

/-- What a division leaves is compared with half of the divisor. -/
theorem represents_fraction (n : ℕ) {d : ℕ} (hd : 0 < d) :
    Represents (.ofMantissaAndAccuracy (n / d) (accuracyOfFraction (n % d) d)) (n / d : ℚ) := by
  have hd' : (0 : ℚ) < d := by exact_mod_cast hd
  have hlt : ((n % d : ℕ) : ℚ) / d < 1 := (div_lt_one hd').2 (by exact_mod_cast Nat.mod_lt n hd)
  rw [div_eq_add_mod_div n hd]
  generalize n % d = r at hlt
  unfold accuracyOfFraction
  split_ifs with hzero
  · subst hzero
    simp [ExtendedMantissa.ofMantissaAndAccuracy, Represents]
  · have hpos : (0 : ℚ) < r / d := div_pos (by exact_mod_cast Nat.pos_of_ne_zero hzero) hd'
    rcases lt_trichotomy (2 * r) d with h | h | h
    · have hhalf := lt_of_not_ge (mt (half_le_div_iff (r := r) hd).1 (by omega))
      rw [compare_lt_iff_lt.2 h]
      exact ⟨by linarith, by linarith⟩
    · have hhalf := le_antisymm ((div_le_half_iff hd).2 h.le) ((half_le_div_iff hd).2 h.ge)
      rw [compare_eq_iff_eq.2 h, hhalf]
      rfl
    · have hhalf := lt_of_not_ge (mt (div_le_half_iff (r := r) hd).1 (by omega))
      rw [compare_gt_iff_gt.2 h]
      exact ⟨by linarith, by linarith⟩

/-- The digits cut off are worth less than one unit. -/
theorem Represents.bounds {em : ExtendedMantissa} {w : ℚ} (h : Represents em w) :
    (em.mantissa : ℚ) ≤ w ∧ w < em.mantissa + 1 := by
  obtain ⟨m, r, s⟩ := em
  cases r <;> cases s <;> simp only [Represents] at h <;> constructor <;> linarith

/-- The bit that is shifted out is the round bit, and the round bit becomes sticky. -/
theorem Represents.shiftRightOne {em : ExtendedMantissa} {w : ℚ} (h : Represents em w) :
    Represents em.shiftRightOne (w / 2) := by
  obtain ⟨m, r, s⟩ := em
  have hm : (m : ℚ) = 2 * (m / 2 : ℕ) + (m % 2 : ℕ) := by exact_mod_cast (Nat.div_add_mod m 2).symm
  unfold ExtendedMantissa.shiftRightOne
  rcases Nat.mod_two_eq_zero_or_one m with hodd | hodd <;> rw [hodd] at hm ⊢ <;> push_cast at hm <;>
    cases r <;> cases s <;> simp only [Represents] at h <;>
    simp [Represents] <;> first | linarith | (constructor <;> linarith)

/-- Shifting a mantissa divides what it stands for, for no bit of it is forgotten that decides a rounding. -/
theorem Represents.shiftRight {em : ExtendedMantissa} {w : ℚ} (h : Represents em w) (n : ℕ) :
    Represents (em >>> n) (w / 2 ^ n) := by
  induction n with
  | zero => simpa [HShiftRight.hShiftRight, Nat.repeat] using h
  | succ n ih =>
    rw [pow_succ, ← div_div]
    exact ih.shiftRightOne

/-- The two bits kept are enough to round to the nearest whole number, of two the even one. -/
theorem Represents.roundedMantissa {em : ExtendedMantissa} {w : ℚ} (h : Represents em w) :
    (em.roundedMantissa : ℤ) = halfEven w := by
  refine (halfEven_eq_iff.2 ?_).symm
  obtain ⟨m, r, s⟩ := em
  match r, s, h with
  | false, false, h =>
    left
    simp [show w = m from h, ExtendedMantissa.roundedMantissa, ExtendedMantissa.accuracy,
      Accuracy.roundToNearestEven]
  | false, true, ⟨hlow, hhigh⟩ =>
    left
    show |w - ((m : ℕ) : ℤ)| < 1 / 2
    rw [Int.cast_natCast, abs_lt]
    constructor <;> linarith
  | true, false, h =>
    right
    show |w - ((m + m % 2 : ℕ) : ℤ)| = 1 / 2 ∧ Even ((m + m % 2 : ℕ) : ℤ)
    rw [show w = m + 1 / 2 from h]
    refine ⟨?_, Int.even_iff.2 (by omega)⟩
    rcases Nat.mod_two_eq_zero_or_one m with hodd | hodd <;> rw [hodd] <;> push_cast
    · rw [abs_of_nonneg] <;> linarith
    · rw [abs_of_nonpos] <;> linarith
  | true, true, ⟨hlow, hhigh⟩ =>
    left
    show |w - ((m + 1 : ℕ) : ℤ)| < 1 / 2
    push_cast
    rw [abs_lt]
    constructor <;> linarith

/-! ## Rounding -/

/-- A number with its digits in place that stands for a number rounded. -/
structure RoundedTo (u : UnpackedFloat) (q : ℚ) : Prop where
  canonical : Canonical u
  value : unpackedValue u = rounded q

/-- A number that is in its format is its own rounding. -/
theorem RoundedTo.of_eq {u : UnpackedFloat} {q : ℚ} (h : Canonical u) (hvalue : unpackedValue u = q) :
    RoundedTo u q := by
  refine ⟨h, ?_⟩
  rw [← hvalue, rounded_of_representable h.representable]

/-- The exponent of the last place. -/
def lastPlace (m : ℕ) (e : ℤ) : ℤ := max (m.log2 + e - 52) (-1074)

/-- The exponent that a number is shifted to is that of its last place. -/
theorem targetExponent_binary64 (m : ℕ) (e : ℤ) :
    Format.binary64.targetExponent (totalExponent m e) = lastPlace m e := by
  show max ((m.log2 : ℤ) + 1 + e - 53) (-1074) = max (m.log2 + e - 52) (-1074)
  omega

/-- Digits below the last place are shifted out. -/
theorem shiftToTargetExponent_eq (m : ℕ) {e : ℤ} (a : Accuracy) (h : e ≤ lastPlace m e) :
    shiftToTargetExponent Format.binary64 m e a =
      (ExtendedMantissa.ofMantissaAndAccuracy m a >>> (lastPlace m e - e).toNat, lastPlace m e) := by
  unfold shiftToTargetExponent shiftToExponent
  rw [targetExponent_binary64]
  exact Prod.ext rfl (by dsimp only; omega)

/-- The end of a rounding: a mantissa that was rounded up to 2^53 is halved. -/
def carry (s : UnpackedFloat.Sign) (m : ℕ) (e : ℤ) : UnpackedFloat :=
  let shifted := shiftToTargetExponent Format.binary64 m e .exact
  if h : shifted.1.mantissa = 0 then .zero s else .finite s shifted.1.mantissa shifted.2 (Nat.pos_of_ne_zero h)

/-- Digits in place are not shifted. -/
theorem lastPlace_of_lt {m : ℕ} {e : ℤ} (hm : m < 2 ^ 53) (hmin : -1074 ≤ e) (hfull : 2 ^ 52 ≤ m ∨ e = -1074) :
    lastPlace m e = e := by
  have hlog : m.log2 ≤ 52 := by
    rcases Nat.eq_zero_or_pos m with rfl | hpos
    · decide
    · have := (Nat.log2_lt (k := 53) (Nat.ne_of_gt hpos)).2 hm
      omega
  unfold lastPlace
  rcases hfull with hfull | rfl
  · have := (Nat.le_log2 (k := 52) (by omega)).2 hfull
    omega
  · omega

/-- The carry leaves the value as it is and the digits in place. -/
theorem carry_spec (s : UnpackedFloat.Sign) {m : ℕ} {e : ℤ} (hm : m ≤ 2 ^ 53) (hmin : -1074 ≤ e)
    (hfull : 2 ^ 52 ≤ m ∨ e = -1074) :
    Canonical (carry s m e) ∧ unpackedValue (carry s m e) = (s.apply m : ℤ) * 2 ^ e := by
  rcases Nat.lt_or_eq_of_le hm with hlt | rfl
  · have hlast := lastPlace_of_lt hlt hmin hfull
    have hshift : shiftToTargetExponent Format.binary64 m e .exact = (.ofMantissaAndAccuracy m .exact, e) := by
      rw [shiftToTargetExponent_eq m .exact hlast.ge, hlast, Int.sub_self]
      rfl
    unfold carry
    simp only [hshift, ExtendedMantissa.ofMantissaAndAccuracy]
    split_ifs with hzero
    · subst hzero
      cases s <;> simp [Canonical, unpackedValue, Sign.apply]
    · exact ⟨⟨hlt, hmin, hfull⟩, rfl⟩
  · have hlast : lastPlace (2 ^ 53) e = e + 1 := by
      unfold lastPlace
      rw [Nat.log2_two_pow]
      omega
    have hshift := shiftToTargetExponent_eq (2 ^ 53) (e := e) .exact (by omega)
    rw [hlast, show (e + 1 - e).toNat = 1 by omega] at hshift
    unfold carry
    simp only [hshift]
    refine ⟨⟨by decide, by omega, .inl (by decide)⟩, ?_⟩
    show ((s.apply ((2 ^ 53 / 2 ^ 1 : ℕ) : ℤ) : ℤ) : ℚ) * 2 ^ (e + 1) = _
    rw [zpow_add_one₀ (by norm_num)]
    cases s <;> simp [Sign.apply] <;> ring

/-- A number is at least the power of two of its first digit. -/
theorem two_zpow_log2_le {m : ℕ} (hm : 0 < m) : (2 : ℚ) ^ (m.log2 : ℤ) ≤ m := by
  rw [zpow_natCast]
  exact_mod_cast Nat.log2_self_le (Nat.ne_of_gt hm)

/-- A number is below the power of two above its first digit, by at least one. -/
theorem add_one_le_two_zpow_log2 (m : ℕ) : (m : ℚ) + 1 ≤ 2 ^ (m.log2 + 1 : ℤ) := by
  exact_mod_cast Nat.lt_log2_self (n := m)

/-- The last place is that of the 53rd digit of every number that the mantissa stands for. -/
theorem lastPlace_bounds {m : ℕ} {e : ℤ} {w : ℚ} (hlow : (m : ℚ) ≤ w) (hhigh : w < m + 1)
    (hprecise : e ≤ lastPlace m e) :
    (2 ^ (lastPlace m e + 52) ≤ w * 2 ^ e ∨ lastPlace m e = -1074) ∧ w * 2 ^ e < 2 ^ (lastPlace m e + 53) := by
  have hpos : (0 : ℚ) < 2 ^ e := by positivity
  have hlast : lastPlace m e = max (m.log2 + e - 52) (-1074) := rfl
  constructor
  · by_cases hmin : lastPlace m e = -1074
    · exact .inr hmin
    · have hm : 0 < m := by
        refine Nat.pos_of_ne_zero fun hzero => ?_
        have hlog : m.log2 = 0 := by rw [hzero]; rfl
        omega
      left
      rw [show lastPlace m e + 52 = m.log2 + e by omega, zpow_add₀ (by norm_num)]
      exact mul_le_mul_of_nonneg_right ((two_zpow_log2_le hm).trans hlow) hpos.le
  · calc w * 2 ^ e < 2 ^ (m.log2 + 1 : ℤ) * 2 ^ e :=
          mul_lt_mul_of_pos_right (hhigh.trans_le (add_one_le_two_zpow_log2 m)) hpos
      _ = 2 ^ (m.log2 + 1 + e : ℤ) := (zpow_add₀ (by norm_num) ..).symm
      _ ≤ 2 ^ (lastPlace m e + 53) := zpow_le_zpow_right₀ (by norm_num) (by omega)

/-- A mantissa before any shift is off by less than one unit. -/
theorem Represents.mantissa_bounds {m : ℕ} {a : Accuracy} {w : ℚ}
    (h : Represents (.ofMantissaAndAccuracy m a) w) : (m : ℚ) ≤ w ∧ w < m + 1 := by
  have hbounds := h.bounds
  cases a with
  | exact => exact hbounds
  | inexact o => cases o <;> exact hbounds

/-- **The step of all operations.**  A mantissa cut at the last place is rounded to the nearest one, and the carry is
exact. -/
theorem roundedTo_roundWithAccuracy (s : UnpackedFloat.Sign) {m : ℕ} {e : ℤ} {a : Accuracy} {w : ℚ}
    (hw : Represents (.ofMantissaAndAccuracy m a) w) (hprecise : e ≤ lastPlace m e) :
    RoundedTo (roundWithAccuracy Format.binary64 s m e a) ((s.apply 1 : ℤ) * (w * 2 ^ e)) := by
  have hcarry : roundWithAccuracy Format.binary64 s m e a =
      carry s (shiftToTargetExponent Format.binary64 m e a).1.roundedMantissa
        (shiftToTargetExponent Format.binary64 m e a).2 := rfl
  have hmantissa := (hw.shiftRight (lastPlace m e - e).toNat).roundedMantissa
  have hmin : -1074 ≤ lastPlace m e := le_max_right ..
  obtain ⟨hlow, hhigh⟩ := lastPlace_bounds hw.mantissa_bounds.1 hw.mantissa_bounds.2 hprecise
  have hnonneg : 0 ≤ w * 2 ^ e :=
    mul_nonneg ((Nat.cast_nonneg m).trans hw.mantissa_bounds.1) (by positivity)
  rw [hcarry, shiftToTargetExponent_eq m a hprecise]
  dsimp only
  generalize lastPlace m e = d at *
  generalize ExtendedMantissa.roundedMantissa _ = r at hmantissa
  have hscaled : w * 2 ^ e / 2 ^ d = w / 2 ^ (d - e).toNat := by
    obtain ⟨k, rfl⟩ : ∃ k : ℕ, d = e + k := ⟨(d - e).toNat, by omega⟩
    rw [show (e + k - e).toNat = k by omega, zpow_add₀ (by norm_num), zpow_natCast]
    field_simp
  rw [← hscaled] at hmantissa
  have hrounded : rounded (w * 2 ^ e) = r * 2 ^ d := by
    rw [rounded_eq_roundAt hmin (by rwa [abs_of_nonneg hnonneg]) (by rw [abs_of_nonneg hnonneg]; exact hhigh.le),
      roundAt, ← hmantissa, Int.cast_natCast]
  -- rounding is monotone, so that the rounded mantissa has at least 53 digits, and one more only if it is 2 ^ 53
  have hle : r ≤ 2 ^ 53 := by
    have hdigits := halfEven_div_le (k := 53) hhigh.le
    rw [← hmantissa] at hdigits
    exact_mod_cast hdigits
  have hfull : 2 ^ 52 ≤ r ∨ d = -1074 := by
    refine hlow.imp_left fun hlow => ?_
    have hdigits := le_halfEven_div (k := 52) hlow
    rw [← hmantissa] at hdigits
    exact_mod_cast hdigits
  obtain ⟨hcanonical, hvalue⟩ := carry_spec s hle hmin hfull
  refine ⟨hcanonical, hvalue.trans ?_⟩
  cases s <;> simp [Sign.apply, hrounded]

/-- More digits do not change the value. -/
theorem shiftLeft_mul (m k : ℕ) (e : ℤ) : ((m <<< k : ℕ) : ℚ) * 2 ^ (e - k) = m * 2 ^ e := by
  rw [Nat.shiftLeft_eq, Nat.cast_mul, Nat.cast_pow, Nat.cast_ofNat, ← zpow_natCast, mul_assoc,
    ← zpow_add₀ (by norm_num)]
  congr 2
  omega

theorem apply_shiftLeft_mul (s : UnpackedFloat.Sign) (m k : ℕ) (e : ℤ) :
    ((s.apply (m <<< k : ℕ) : ℤ) : ℚ) * 2 ^ (e - k) = (s.apply m : ℤ) * 2 ^ e := by
  cases s <;> simp only [Sign.apply, Int.cast_neg, Int.cast_natCast, neg_mul, shiftLeft_mul]

/-- Each zero that is appended is one more digit. -/
theorem log2_shiftLeft {m : ℕ} (hm : 0 < m) (k : ℕ) : (m <<< k).log2 = m.log2 + k := by
  have hlow := Nat.log2_self_le (Nat.ne_of_gt hm)
  have hhigh := Nat.lt_log2_self (n := m)
  have hpos : m * 2 ^ k ≠ 0 := Nat.ne_of_gt (Nat.mul_pos hm (Nat.two_pow_pos k))
  rw [Nat.shiftLeft_eq, Nat.log2_eq_iff hpos, Nat.pow_add, Nat.add_right_comm, Nat.pow_add _ _ k]
  exact ⟨Nat.mul_le_mul_right _ hlow, Nat.mul_lt_mul_of_pos_right hhigh (Nat.two_pow_pos k)⟩

/-- Rounding first fills the mantissa up to 53 digits, so that cutting it off is all there is to do. -/
theorem roundedTo_round (s : UnpackedFloat.Sign) {m : ℕ} (hm : 0 < m) (e : ℤ) :
    RoundedTo (UnpackedFloat.round Format.binary64 s m e) ((s.apply m : ℤ) * 2 ^ e) := by
  obtain ⟨k, hk⟩ : ∃ k, k = (e - lastPlace m e).toNat := ⟨_, rfl⟩
  have hround : UnpackedFloat.round Format.binary64 s m e =
      roundWithAccuracy Format.binary64 s (m <<< k) (e - k) .exact := by
    unfold UnpackedFloat.round decreaseExponent
    rw [targetExponent_binary64, hk]
  have hlast : lastPlace (m <<< k) (e - k) = lastPlace m e := by
    have hlog := log2_shiftLeft hm k
    unfold lastPlace
    omega
  have hvalue : ((s.apply m : ℤ) : ℚ) * 2 ^ e = (s.apply 1 : ℤ) * ((m <<< k : ℕ) * 2 ^ (e - k)) := by
    rw [shiftLeft_mul]
    cases s <;> simp [Sign.apply]
  rw [hround, hvalue]
  exact roundedTo_roundWithAccuracy s (represents_exact _) (by omega)

/-- A whole number times a power of two is rounded as it is. -/
theorem roundedTo_normalize (s : UnpackedFloat.Sign) (m e : ℤ) :
    RoundedTo (UnpackedFloat.normalize Format.binary64 m e s) (m * 2 ^ e) := by
  unfold UnpackedFloat.normalize
  rcases Int.lt_trichotomy m 0 with h | rfl | h
  · rw [Int.compare_eq_lt.2 h]
    obtain ⟨n, rfl⟩ : ∃ n : ℕ, m = -n := ⟨(-m).toNat, by omega⟩
    simpa [Sign.apply] using roundedTo_round .negative (m := n) (by omega) e
  · rw [Int.compare_eq_eq.2 rfl, Int.cast_zero, zero_mul]
    exact .of_eq (u := .zero s) trivial rfl
  · rw [Int.compare_eq_gt.2 h]
    obtain ⟨n, rfl⟩ : ∃ n : ℕ, m = n := ⟨m.toNat, by omega⟩
    simpa [Sign.apply] using roundedTo_round .positive (m := n) (by omega) e

/-! ## Operations -/

/-- A number written with a lower exponent is the same number. -/
theorem apply_decreaseExponent (s : UnpackedFloat.Sign) (m : ℕ) {e t : ℤ} (h : t ≤ e) :
    ((s.apply (decreaseExponent m e t).1 : ℤ) : ℚ) * 2 ^ t = (s.apply m : ℤ) * 2 ^ e := by
  have hvalue := apply_shiftLeft_mul s m (e - t).toNat e
  rwa [show e - ((e - t).toNat : ℤ) = t by omega] at hvalue

/-- A sum is the exact one rounded. -/
theorem roundedTo_add {u v : UnpackedFloat} (hu : Canonical u) (hv : Canonical v) :
    RoundedTo (UnpackedFloat.add Format.binary64 u v) (unpackedValue u + unpackedValue v) := by
  match u, v, hu, hv with
  | .zero s, .zero t, _, _ =>
    cases s <;> cases t <;> exact .of_eq trivial (add_zero 0).symm
  | .zero s, .finite t n d hn, _, hv => exact .of_eq hv (zero_add _).symm
  | .finite s m e hm, .zero t, hu, _ => exact .of_eq hu (add_zero _).symm
  | .finite s m e hm, .finite t n d hn, _, _ =>
    have hvalue : unpackedValue (.finite s m e hm) + unpackedValue (.finite t n d hn) =
        ((s.apply (decreaseExponent m e (min e d)).1 + t.apply (decreaseExponent n d (min e d)).1 : ℤ) : ℚ) *
          2 ^ min e d := by
      rw [Int.cast_add, add_mul, apply_decreaseExponent s m (min_le_left ..),
        apply_decreaseExponent t n (min_le_right ..)]
      rfl
    rw [hvalue]
    exact roundedTo_normalize .positive ..

theorem apply_neg (s : UnpackedFloat.Sign) (n : ℤ) : (-s).apply n = -s.apply n := by
  cases s
  · exact (Int.neg_neg n).symm
  · rfl

/-- Negation changes the sign of the value. -/
theorem unpackedValue_neg (u : UnpackedFloat) : unpackedValue u.neg = -unpackedValue u := by
  match u with
  | .notANumber | .infinity _ | .zero _ => simp [UnpackedFloat.neg, unpackedValue]
  | .finite s m e _ => simp [UnpackedFloat.neg, unpackedValue, apply_neg]

theorem packable_neg {u : UnpackedFloat} (h : Packable u) : Packable u.neg := by
  match u, h with
  | .zero _, _ => trivial
  | .finite s m e _, h => exact h

/-- Of finite numbers only: an infinity keeps its sign. -/
theorem unpackedSub_eq_add_neg {u v : UnpackedFloat} (hu : Packable u) (hv : Packable v) :
    UnpackedFloat.sub Format.binary64 u v = UnpackedFloat.add Format.binary64 u v.neg := by
  match u, v, hu, hv with
  | .zero _, .zero _, _, _ => rfl
  | .zero _, .finite .., _, _ => rfl
  | .finite .., .zero _, _, _ => rfl
  | .finite s m e _, .finite t n d _, _, _ =>
    simp only [UnpackedFloat.sub, UnpackedFloat.add, UnpackedFloat.neg, apply_neg, Int.sub_eq_add_neg]

/-- A difference is a sum with the negated number. -/
theorem roundedTo_sub {u v : UnpackedFloat} (hu : Packable u) (hv : Packable v) :
    RoundedTo (UnpackedFloat.sub Format.binary64 u v) (unpackedValue u - unpackedValue v) := by
  rw [sub_eq_add_neg, ← unpackedValue_neg, unpackedSub_eq_add_neg hu hv]
  exact roundedTo_add hu.canonical (packable_neg hv).canonical

/-- A product has 53 digits to cut, unless it is below the least exponent from the start: one of two factors that are
not both of the least exponent is full. -/
theorem roundedTo_mul {u v : UnpackedFloat} (hu : Canonical u) (hv : Canonical v) :
    RoundedTo (UnpackedFloat.mul Format.binary64 u v) (unpackedValue u * unpackedValue v) := by
  match u, v, hu, hv with
  | .zero s, .zero t, _, _ => exact .of_eq trivial (zero_mul _).symm
  | .zero s, .finite t n d hn, _, _ => exact .of_eq trivial (zero_mul _).symm
  | .finite s m e hm, .zero t, _, _ => exact .of_eq trivial (mul_zero _).symm
  | .finite s m e hm, .finite t n d hn, hu, hv =>
    have hvalue : unpackedValue (.finite s m e hm) * unpackedValue (.finite t n d hn) =
        ((s * t).apply 1 : ℤ) * ((m * n : ℕ) * 2 ^ (e + d)) := by
      rw [zpow_add₀ (by norm_num)]
      cases s <;> cases t <;> simp [unpackedValue, Sign.apply] <;> ring
    have hprecise : e + d ≤ lastPlace (m * n) (e + d) := by
      obtain ⟨-, he, hm'⟩ := hu
      obtain ⟨-, hd, hn'⟩ := hv
      have hlog (hmn : 2 ^ 52 ≤ m * n) : 52 ≤ (m * n).log2 := (Nat.le_log2 (by positivity)).2 hmn
      unfold lastPlace
      rcases hm' with hm' | rfl
      · have := hlog (by nlinarith)
        omega
      · rcases hn' with hn' | rfl
        · have := hlog (by nlinarith)
          omega
        · omega
    rw [hvalue]
    exact roundedTo_roundWithAccuracy (s * t) (represents_exact _) hprecise

/-- A dividend is shifted so far that its quotient has 53 digits to cut, or begins below the least exponent. -/
theorem divCore_precise {m n : ℕ} (hm : 0 < m) (hn : 0 < n) (e d : ℤ) :
    ∃ k : ℕ, divCore Format.binary64 m e n d =
        (m <<< k / n, e - d - k, accuracyOfFraction (m <<< k % n) n) ∧
      e - d - k ≤ lastPlace (m <<< k / n) (e - d - k) := by
  obtain ⟨t, ht⟩ : ∃ t, t = min (e - d) (Format.binary64.targetExponent (totalExponent m e - totalExponent n d)) :=
    ⟨_, rfl⟩
  have htarget : Format.binary64.targetExponent (totalExponent m e - totalExponent n d) =
      max (m.log2 + e - (n.log2 + d) - 53) (-1074) := by
    show max ((m.log2 : ℤ) + 1 + e - (n.log2 + 1 + d) - 53) (-1074) = _
    omega
  obtain ⟨k, hk⟩ : ∃ k : ℕ, k = (e - d - t).toNat := ⟨_, rfl⟩
  have hcore : divCore Format.binary64 m e n d = (m <<< k / n, t, accuracyOfFraction (m <<< k % n) n) := by
    rw [hk, ht]
    rfl
  obtain rfl : t = e - d - k := by omega
  refine ⟨k, hcore, ?_⟩
  by_cases hleast : e - d - k ≤ -1074
  · exact hleast.trans (le_max_right ..)
  · have hdigits : n.log2 + 53 ≤ m.log2 + k := by omega
    have hquotient : 2 ^ 52 ≤ m <<< k / n := by
      rw [Nat.le_div_iff_mul_le hn]
      calc 2 ^ 52 * n ≤ 2 ^ 52 * 2 ^ (n.log2 + 1) := Nat.mul_le_mul_left _ Nat.lt_log2_self.le
        _ = 2 ^ (n.log2 + 53) := by rw [← Nat.pow_add]; congr 1; omega
        _ ≤ 2 ^ (m.log2 + k) := Nat.pow_le_pow_right (by decide) hdigits
        _ ≤ m <<< k := by
          rw [Nat.pow_add, Nat.shiftLeft_eq]
          exact Nat.mul_le_mul_right _ (Nat.log2_self_le (Nat.ne_of_gt hm))
    have hlog := (Nat.le_log2 (k := 52) (by omega)).2 hquotient
    unfold lastPlace
    omega

/-- A quotient is the exact one rounded. -/
theorem roundedTo_div {u v : UnpackedFloat} (hu : Canonical u) (hv : Canonical v) (hzero : unpackedValue v ≠ 0) :
    RoundedTo (UnpackedFloat.div Format.binary64 u v) (unpackedValue u / unpackedValue v) := by
  match u, v, hu, hv with
  | .zero s, .zero t, _, _ => exact absurd rfl hzero
  | .finite s m e hm, .zero t, _, _ => exact absurd rfl hzero
  | .zero s, .finite t n d hn, _, _ => exact .of_eq trivial (zero_div _).symm
  | .finite s m e hm, .finite t n d hn, _, _ =>
    obtain ⟨k, hcore, hprecise⟩ := divCore_precise hm hn e d
    have hdiv : UnpackedFloat.div Format.binary64 (.finite s m e hm) (.finite t n d hn) =
        roundWithAccuracy Format.binary64 (s / t) (m <<< k / n) (e - d - k)
          (accuracyOfFraction (m <<< k % n) n) := by
      simp only [UnpackedFloat.div, hcore]
    have hvalue : unpackedValue (.finite s m e hm) / unpackedValue (.finite t n d hn) =
        ((s / t).apply 1 : ℤ) * (((m <<< k : ℕ) : ℚ) / n * 2 ^ (e - d - k)) := by
      have hsign : (s / t).apply 1 = s.apply 1 * t.apply 1 := by cases s <;> cases t <;> rfl
      rw [div_mul_eq_mul_div, shiftLeft_mul, zpow_sub₀ (by norm_num), hsign]
      cases s <;> cases t <;> simp [unpackedValue, Sign.apply] <;> field_simp
    rw [hdiv, hvalue]
    exact roundedTo_roundWithAccuracy (s / t) (represents_fraction _ hn) hprecise

/-! ## Comparison -/

/-- Of two numbers that can be packed, the one of the greater exponent is the greater: it has all 53 digits. -/
theorem mul_zpow_lt_of_exponent {m n : ℕ} {e d : ℤ} (hm : m < 2 ^ 53) (he : -1074 ≤ e)
    (hn : 2 ^ 52 ≤ n ∨ d = -1074) (h : e < d) : (m : ℚ) * 2 ^ e < n * 2 ^ d := by
  have hn' : 2 ^ 52 ≤ n := hn.resolve_right (by omega)
  have hm' : (m : ℚ) < 2 ^ 53 := by exact_mod_cast hm
  have hn'' : (2 : ℚ) ^ 52 ≤ n := by exact_mod_cast hn'
  calc (m : ℚ) * 2 ^ e < 2 ^ 53 * 2 ^ e := by gcongr
    _ = 2 ^ 52 * 2 ^ (e + 1) := by rw [zpow_add_one₀ (by norm_num)]; ring
    _ ≤ 2 ^ 52 * 2 ^ d := by gcongr; norm_num; omega
    _ ≤ n * 2 ^ d := by gcongr

/-- Exponents are compared first and mantissas next, which is the order of the magnitudes. -/
theorem compare_magnitudes {m n : ℕ} {e d : ℤ} (hm : m < 2 ^ 53) (he : -1074 ≤ e) (hm' : 2 ^ 52 ≤ m ∨ e = -1074)
    (hn : n < 2 ^ 53) (hd : -1074 ≤ d) (hn' : 2 ^ 52 ≤ n ∨ d = -1074) :
    (compare e d).then (compare m n) = compare ((m : ℚ) * 2 ^ e) (n * 2 ^ d) := by
  rcases lt_trichotomy e d with h | rfl | h
  · rw [compare_lt_iff_lt.2 h, compare_lt_iff_lt.2 (mul_zpow_lt_of_exponent hm he hn' h)]
    rfl
  · have hpos : (0 : ℚ) < 2 ^ e := by positivity
    rw [compare_eq_iff_eq.2 rfl]
    show compare m n = _
    rcases lt_trichotomy m n with h | rfl | h
    · rw [compare_lt_iff_lt.2 h, compare_lt_iff_lt.2 (mul_lt_mul_of_pos_right (Nat.cast_lt.2 h) hpos)]
    · rw [compare_eq_iff_eq.2 rfl, compare_eq_iff_eq.2 rfl]
    · rw [compare_gt_iff_gt.2 h, compare_gt_iff_gt.2 (mul_lt_mul_of_pos_right (Nat.cast_lt.2 h) hpos)]
  · rw [compare_gt_iff_gt.2 h, compare_gt_iff_gt.2 (mul_zpow_lt_of_exponent hn hd hm' h)]
    rfl

theorem compare_neg_neg (a b : ℚ) : compare (-a) (-b) = (compare a b).swap := by
  rcases lt_trichotomy a b with h | rfl | h
  · rw [compare_lt_iff_lt.2 h, compare_gt_iff_gt.2 (neg_lt_neg h)]
    rfl
  · rw [compare_eq_iff_eq.2 rfl, compare_eq_iff_eq.2 rfl]
    rfl
  · rw [compare_gt_iff_gt.2 h, compare_lt_iff_lt.2 (neg_lt_neg h)]
    rfl

/-- Numbers are compared as their values are. -/
theorem compare_unpacked {u v : UnpackedFloat} (hu : Packable u) (hv : Packable v) :
    u.compare v = some (compare (unpackedValue u) (unpackedValue v)) := by
  have hpos {m : ℕ} (e : ℤ) (hm : 0 < m) : (0 : ℚ) < m * 2 ^ e := by positivity
  match u, v, hu, hv with
  | .zero _, .zero _, _, _ => exact congrArg some (compare_eq_iff_eq.2 rfl).symm
  | .zero _, .finite .positive n d hn, _, _ => exact congrArg some (compare_lt_iff_lt.2 (hpos d hn)).symm
  | .finite .positive m e hm, .zero _, _, _ => exact congrArg some (compare_gt_iff_gt.2 (hpos e hm)).symm
  | .zero _, .finite .negative n d hn, _, _ =>
    refine congrArg some (compare_gt_iff_gt.2 ?_).symm
    simpa [unpackedValue, Sign.apply] using hpos d hn
  | .finite .negative m e hm, .zero _, _, _ =>
    refine congrArg some (compare_lt_iff_lt.2 ?_).symm
    simpa [unpackedValue, Sign.apply] using hpos e hm
  | .finite .negative m e hm, .finite .positive n d hn, _, _ =>
    refine congrArg some (compare_lt_iff_lt.2 ?_).symm
    have hneg : -((m : ℚ) * 2 ^ e) < n * 2 ^ d := by linarith [hpos e hm, hpos d hn]
    simpa [unpackedValue, Sign.apply] using hneg
  | .finite .positive m e hm, .finite .negative n d hn, _, _ =>
    refine congrArg some (compare_gt_iff_gt.2 ?_).symm
    have hneg : -((n : ℚ) * 2 ^ d) < m * 2 ^ e := by linarith [hpos e hm, hpos d hn]
    simpa [unpackedValue, Sign.apply] using hneg
  | .finite .positive m e hm, .finite .positive n d hn, hu, hv =>
    obtain ⟨hm₁, he, -, hm₂⟩ := hu
    obtain ⟨hn₁, hd, -, hn₂⟩ := hv
    exact congrArg some (compare_magnitudes hm₁ he hm₂ hn₁ hd hn₂)
  | .finite .negative m e hm, .finite .negative n d hn, hu, hv =>
    obtain ⟨hm₁, he, -, hm₂⟩ := hu
    obtain ⟨hn₁, hd, -, hn₂⟩ := hv
    have hvalue {k : ℕ} {f : ℤ} (hk : 0 < k) : unpackedValue (.finite .negative k f hk) = -(k * 2 ^ f) := by
      simp [unpackedValue, Sign.apply]
    rw [hvalue, hvalue, compare_neg_neg, ← compare_magnitudes hm₁ he hm₂ hn₁ hd hn₂]
    rfl

/-! ## Floating-point numbers -/

theorem isFinite_unpacked {u : UnpackedFloat} (h : Packable u) : u.isFinite = true := by
  match u, h with
  | .zero _, _ => rfl
  | .finite .., _ => rfl

instance : HasValue Float where
  value x := unpackedValue x.toModel.unpack
  lt_iff {x y} hx hy := by
    show decide (x.toModel < y.toModel) = true ↔ _
    rw [decide_eq_true_iff]
    show (x.toModel.unpack.compare y.toModel.unpack == some .lt) = true ↔ _
    rw [compare_unpacked (packable_unpack hx) (packable_unpack hy), beq_iff_eq, Option.some.injEq, compare_lt_iff_lt]
  isNaN_eq_false {x} hx := by
    have hpackable := packable_unpack hx
    show x.toModel.unpack.isNaN = false
    match x.toModel.unpack, hpackable with
    | .zero _, _ => rfl
    | .finite .., _ => rfl

namespace Float
open HasValue

/-- The order of finite numbers is that of their values. -/
theorem le_iff {x y : Float} (hx : x.isFinite = true) (hy : y.isFinite = true) : x ≤ y ↔ value x ≤ value y := by
  show decide (x.toModel ≤ y.toModel) = true ↔ _
  rw [decide_eq_true_iff]
  show ((x.toModel.unpack.compare y.toModel.unpack).any (·.isLE)) = true ↔ _
  rw [compare_unpacked (packable_unpack hx) (packable_unpack hy), Option.any_some]
  exact Ordering.isLE_iff_ne_gt.trans compare_le_iff_le

/-- Two finite numbers are equal exactly if their values are; the two zeros have one value. -/
theorem beq_iff {x y : Float} (hx : x.isFinite = true) (hy : y.isFinite = true) :
    (x == y) = true ↔ value x = value y := by
  show (x.toModel.unpack.compare y.toModel.unpack == some .eq) = true ↔ _
  rw [compare_unpacked (packable_unpack hx) (packable_unpack hy), beq_iff_eq, Option.some.injEq, compare_eq_iff_eq]
  rfl

/-- A number whose sign, digits and exponent are known is finite, and has the value that they say. -/
theorem spec_of_unpack {x : Float} {s : UnpackedFloat.Sign} {m : ℕ} {e : ℤ} {h : 0 < m}
    (hunpack : x.toModel.unpack = .finite s m e h) : x.isFinite = true ∧ value x = (s.apply m : ℤ) * 2 ^ e := by
  constructor
  · show x.toModel.unpack.isFinite = true
    rw [hunpack]
    rfl
  · show unpackedValue x.toModel.unpack = _
    rw [hunpack]
    rfl

/-- A number is finite, and off a value by at most one unit in its last place or the least positive number. -/
structure Rounds (x : Float) (q : ℚ) : Prop where
  isFinite : x.isFinite = true
  error : |value x - q| ≤ 2 ^ (-52 : ℤ) * |q| + 2 ^ (-1074 : ℤ)

/-- The infinity of a sign. -/
def overflow (s : UnpackedFloat.Sign) : Float := .ofModel (Float.Model.pack (.infinity s))

/-- What an operation gives whose exact result is `q`: the number nearest to it, if there is one in the format, and
an infinity beyond the greatest. -/
inductive IsRounded (x : Float) (q : ℚ) : Prop
  | finite (isFinite : x.isFinite = true) (value_eq : value x = rounded q)
  | above (le : overflowBound ≤ rounded q) (eq : x = overflow .positive)
  | below (le : rounded q ≤ -overflowBound) (eq : x = overflow .negative)

/-- A number that is too great is packed as an infinity. -/
theorem pack_eq_infinity {s : UnpackedFloat.Sign} {m : ℕ} {e : ℤ} (hm : 0 < m) (h : 971 < e) :
    UnpackedFloat.pack Format.binary64 (.finite s m e hm) = UnpackedFloat.pack Format.binary64 (.infinity s) := by
  have hbiased : e + Format.binary64.exponentBias + Format.binary64.mantissaBitsWithoutImplicit = e + 1075 := by
    show e + (1023 : Int) + (52 : Int) = e + 1075
    omega
  simp only [UnpackedFloat.pack, hbiased]
  exact if_pos (by show 2 ^ 11 ≤ _; omega)

/-- Packing the rounding of a number gives what the operation should. -/
theorem isRounded_pack {u : UnpackedFloat} {q : ℚ} (h : RoundedTo u q) :
    IsRounded (.ofModel (Float.Model.pack u)) q := by
  obtain ⟨hcanonical, hvalue⟩ := h
  by_cases hmax : |unpackedValue u| < overflowBound
  · have hpackable := hcanonical.packable hmax
    have hunpack : (Float.Model.pack u).unpack = u := unpack_pack hpackable
    refine .finite ?_ ?_
    · show (Float.Model.pack u).unpack.isFinite = true
      rw [hunpack]
      exact isFinite_unpacked hpackable
    · show unpackedValue (Float.Model.pack u).unpack = rounded q
      rw [hunpack, hvalue]
  · cases u with
    | notANumber => exact hcanonical.elim
    | infinity _ => exact hcanonical.elim
    | zero _ => exact absurd (Packable.abs_value_lt (u := .zero _) trivial) hmax
    | finite s m e hm =>
      have he : 971 < e := by
        by_contra hle
        obtain ⟨hm', hmin, hfull⟩ := hcanonical
        exact hmax (Packable.abs_value_lt ⟨hm', hmin, by omega, hfull⟩)
      have hoverflow : Float.ofModel (Float.Model.pack (.finite s m e hm)) = overflow s := by
        simp only [overflow, Float.Model.pack, pack_eq_infinity hm he]
      rw [not_lt, unpackedValue, abs_apply_mul] at hmax
      rw [hoverflow]
      cases s with
      | positive => exact .above (hvalue ▸ hmax) rfl
      | negative =>
        refine .below ?_ rfl
        rw [← hvalue]
        simpa [unpackedValue, Sign.apply] using hmax

/-- Short of an overflow the result is finite, and its value is the exact one rounded. -/
theorem IsRounded.spec_of_lt {x : Float} {q : ℚ} (h : IsRounded x q) (hlt : rounded |q| < overflowBound) :
    x.isFinite = true ∧ value x = rounded q := by
  rw [← abs_rounded, abs_lt] at hlt
  cases h with
  | finite isFinite value_eq => exact ⟨isFinite, value_eq⟩
  | above le _ => exact absurd le (not_le.2 hlt.2)
  | below le _ => exact absurd le (not_le.2 hlt.1)

/-- What is not too great is off by at most one unit in the last place. -/
theorem IsRounded.rounds {x : Float} {q : ℚ} (h : IsRounded x q) (hmax : |q| < 2 ^ (1023 : ℤ)) : Rounds x q := by
  have hbound : (2 : ℚ) ^ (1023 : ℤ) < overflowBound := zpow_lt_zpow_right₀ (by norm_num) (by norm_num)
  have hle := (rounded_mono hmax.le).trans_eq (rounded_two_zpow (by norm_num))
  obtain ⟨hfinite, hvalue⟩ := h.spec_of_lt (hle.trans_lt hbound)
  exact ⟨hfinite, hvalue ▸ abs_rounded_sub_le_mul q⟩

section Operations
variable {x y : Float} (hx : x.isFinite = true) (hy : y.isFinite = true)
include hx hy

/-- Floating-point addition, and the operations below, give the exact result rounded, or an infinity. -/
theorem isRounded_add : IsRounded (x + y) (value x + value y) :=
  isRounded_pack (roundedTo_add (packable_unpack hx).canonical (packable_unpack hy).canonical)

theorem isRounded_sub : IsRounded (x - y) (value x - value y) :=
  isRounded_pack (roundedTo_sub (packable_unpack hx) (packable_unpack hy))

theorem isRounded_mul : IsRounded (x * y) (value x * value y) :=
  isRounded_pack (roundedTo_mul (packable_unpack hx).canonical (packable_unpack hy).canonical)

theorem isRounded_div (hzero : value y ≠ 0) : IsRounded (x / y) (value x / value y) :=
  isRounded_pack (roundedTo_div (packable_unpack hx).canonical (packable_unpack hy).canonical hzero)

/-- Short of an overflow a sum, and with it the results below, is off by one unit in the last place or the least
positive number. -/
theorem rounds_add (hmax : |value x + value y| < 2 ^ (1023 : ℤ)) : Rounds (x + y) (value x + value y) :=
  (isRounded_add hx hy).rounds hmax

theorem rounds_sub (hmax : |value x - value y| < 2 ^ (1023 : ℤ)) : Rounds (x - y) (value x - value y) :=
  (isRounded_sub hx hy).rounds hmax

theorem rounds_mul (hmax : |value x * value y| < 2 ^ (1023 : ℤ)) : Rounds (x * y) (value x * value y) :=
  (isRounded_mul hx hy).rounds hmax

end Operations

/-! ## Bounded operations -/

/-- A number is finite, and off a value by at most `ε`. -/
structure Near (x : Float) (q ε : ℚ) : Prop where
  isFinite : x.isFinite = true
  error : |value x - q| ≤ ε

theorem Near.of_le {x : Float} {p q ε δ : ℚ} (h : Near x p ε) (hq : p = q) (hle : ε ≤ δ) : Near x q δ :=
  ⟨h.isFinite, hq ▸ h.error.trans hle⟩

/-- The error for values up to a bound, in a form that is linear in the bound. -/
theorem Rounds.near {x : Float} {q b : ℚ} (h : Rounds x q) (hq : |q| ≤ b) : Near x q ((b + 1 / 256) / 2 ^ 52) := by
  refine ⟨h.isFinite, h.error.trans ?_⟩
  have hleast : (2 : ℚ) ^ (-1074 : ℤ) ≤ 2 ^ (-60 : ℤ) := zpow_le_zpow_right₀ (by norm_num) (by norm_num)
  have hscaled : (2 : ℚ) ^ (-52 : ℤ) * |q| ≤ 2 ^ (-52 : ℤ) * b := by gcongr
  generalize (2 : ℚ) ^ (-1074 : ℤ) = least at hleast ⊢
  norm_num at hleast hscaled ⊢
  linarith

/-- What is bounded by 2^128 is far from an overflow. -/
theorem lt_of_le_two_pow {q b : ℚ} (hq : |q| ≤ b) (hb : b ≤ 2 ^ 128) : |q| < 2 ^ (1023 : ℤ) := by
  have hpow : (2 : ℚ) ^ (128 : ℤ) < 2 ^ (1023 : ℤ) := zpow_lt_zpow_right₀ (by norm_num) (by norm_num)
  exact (hq.trans hb).trans_lt hpow

/-- The error of a sum, and of a difference or a product, is at most a share of its bound. -/
theorem near_add {x y : Float} {b : ℚ} (hx : x.isFinite = true) (hy : y.isFinite = true)
    (hq : |value x + value y| ≤ b) (hb : b ≤ 2 ^ 128) : Near (x + y) (value x + value y) ((b + 1 / 256) / 2 ^ 52) :=
  (rounds_add hx hy (lt_of_le_two_pow hq hb)).near hq

theorem near_sub {x y : Float} {b : ℚ} (hx : x.isFinite = true) (hy : y.isFinite = true)
    (hq : |value x - value y| ≤ b) (hb : b ≤ 2 ^ 128) : Near (x - y) (value x - value y) ((b + 1 / 256) / 2 ^ 52) :=
  (rounds_sub hx hy (lt_of_le_two_pow hq hb)).near hq

theorem near_mul {x y : Float} {b : ℚ} (hx : x.isFinite = true) (hy : y.isFinite = true)
    (hq : |value x * value y| ≤ b) (hb : b ≤ 2 ^ 128) : Near (x * y) (value x * value y) ((b + 1 / 256) / 2 ^ 52) :=
  (rounds_mul hx hy (lt_of_le_two_pow hq hb)).near hq

/-! ## Magnitudes -/

/-- The magnitude of a number has the magnitude of its value. -/
theorem unpackedValue_abs (u : UnpackedFloat) : unpackedValue u.abs = |unpackedValue u| := by
  match u with
  | .notANumber | .infinity _ | .zero _ => exact abs_zero.symm
  | .finite s m e _ => exact (abs_apply_mul s m e).symm

theorem packable_abs {u : UnpackedFloat} (h : Packable u) : Packable u.abs := by
  match u, h with
  | .zero _, _ => trivial
  | .finite s m e _, h => exact h

/-- The magnitude of a finite number is finite. -/
theorem isFinite_abs {x : Float} (h : x.isFinite = true) : x.abs.isFinite = true := by
  have hpackable := packable_abs (packable_unpack h)
  have hunpack : x.abs.toModel.unpack = x.toModel.unpack.abs := unpack_pack hpackable
  show x.abs.toModel.unpack.isFinite = true
  rw [hunpack]
  exact isFinite_unpacked hpackable

/-- For finite numbers the two magnitudes agree. -/
theorem value_abs {x : Float} (h : x.isFinite = true) : value x.abs = |value x| := by
  have hunpack : x.abs.toModel.unpack = x.toModel.unpack.abs := unpack_pack (packable_abs (packable_unpack h))
  show unpackedValue x.abs.toModel.unpack = |unpackedValue x.toModel.unpack|
  rw [hunpack, unpackedValue_abs]

/-- An infinity has the positive one for its magnitude. -/
theorem unpack_pack_abs_infinity (s : UnpackedFloat.Sign) :
    UnpackedFloat.unpack Format.binary64 (UnpackedFloat.pack Format.binary64 (infinity s).abs) =
      .infinity .positive := by
  simp [UnpackedFloat.abs, UnpackedFloat.pack, packedInfinity, UnpackedFloat.unpack]

/-- What has a bounded magnitude is finite: infinities are above the bound, NaN is not compared. -/
theorem isFinite_of_abs_le {x b : Float} (hb : b.isFinite = true) (h : x.abs ≤ b) : x.isFinite = true := by
  have hle : ((UnpackedFloat.unpack Format.binary64 (UnpackedFloat.pack _ x.toModel.unpack.abs)).compare
      b.toModel.unpack).any (·.isLE) = true := of_decide_eq_true h
  have hpackable := packable_unpack hb
  show x.toModel.unpack.isFinite = true
  generalize b.toModel.unpack = v at hle hpackable
  match hu : x.toModel.unpack, v, hpackable with
  | .zero _, _, _ => rfl
  | .finite .., _, _ => rfl
  | .notANumber, .zero _, _ => rw [hu] at hle; exact absurd (show false = true from hle) Bool.false_ne_true
  | .notANumber, .finite .., _ => rw [hu] at hle; exact absurd (show false = true from hle) Bool.false_ne_true
  | .infinity s, .zero _, _ => rw [hu, unpack_pack_abs_infinity] at hle; exact absurd hle Bool.false_ne_true
  | .infinity s, .finite .., _ => rw [hu, unpack_pack_abs_infinity] at hle; exact absurd hle Bool.false_ne_true

/-- A bound on the magnitude is one on the value. -/
theorem abs_value_le {x b : Float} (hb : b.isFinite = true) (h : x.abs ≤ b) : |value x| ≤ value b := by
  have hx := isFinite_of_abs_le hb h
  rw [← value_abs hx]
  exact (le_iff (isFinite_abs hx) hb).1 h

end Float
end SignChart
