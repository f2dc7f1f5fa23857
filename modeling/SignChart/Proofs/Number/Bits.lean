/-
  What is read from the bits of a floating-point number.

  The bits are a sign, an exponent and a fraction.
    1. The fields, and so the number, can be told from the value, except that there are two zeros
       (**`Float.eq_of_value_eq`**).
    2. The roundings read the fields on their own, and what they read is the number (`Float.view_of_isFinite`).  So
       the nearest whole number is that of the value, halves away from zero (**`Float.nearest_spec`**), and a whole
       number is converted to the machine integer nearest to it (**`Float.toMachineInt_of_value`**).
-/
import SignChart.Proofs.Number.Rounding

namespace SignChart
open Float.Model Float.Model.UnpackedFloat

/-! ## Canonical forms -/

theorem eq_of_mul_zpow_eq {m n : ℕ} {e d : ℤ} (hm : m < 2 ^ 53) (he : -1074 ≤ e) (hm' : 2 ^ 52 ≤ m ∨ e = -1074)
    (hn : n < 2 ^ 53) (hd : -1074 ≤ d) (hn' : 2 ^ 52 ≤ n ∨ d = -1074) (h : (m : ℚ) * 2 ^ e = n * 2 ^ d) :
    m = n ∧ e = d := by
  have hcompare := compare_magnitudes hm he hm' hn hd hn'
  rw [h, compare_eq_iff_eq.2 rfl] at hcompare
  rcases lt_trichotomy e d with hlt | rfl | hlt
  · rw [compare_lt_iff_lt.2 hlt] at hcompare
    cases hcompare
  · rw [compare_eq_iff_eq.2 rfl] at hcompare
    exact ⟨compare_eq_iff_eq.1 hcompare, rfl⟩
  · rw [compare_gt_iff_gt.2 hlt] at hcompare
    cases hcompare

/-- A number other than zero has one canonical form. -/
theorem Canonical.eq_of_value_eq {u v : UnpackedFloat} (hu : Canonical u) (hv : Canonical v)
    (h : unpackedValue u = unpackedValue v) (hzero : unpackedValue u ≠ 0) : u = v := by
  cases u with
  | notANumber | infinity _ => exact hu.elim
  | zero _ => exact absurd rfl hzero
  | finite s m e hm =>
    cases v with
    | notANumber | infinity _ => exact hv.elim
    | zero _ => exact absurd h hzero
    | finite t n d hn =>
      obtain ⟨hm₁, he, hm₂⟩ := hu
      obtain ⟨hn₁, hd, hn₂⟩ := hv
      have habs := congrArg (fun q : ℚ => |q|) h
      rw [unpackedValue, unpackedValue, abs_apply_mul, abs_apply_mul] at habs
      obtain ⟨rfl, rfl⟩ := eq_of_mul_zpow_eq hm₁ he hm₂ hn₁ hd hn₂ habs
      have hpos : (0 : ℚ) < m * 2 ^ e := by positivity
      cases s <;> cases t <;> simp [unpackedValue, Sign.apply] at h ⊢ <;> linarith

/-! ## Fields -/

theorem toNat_eq_fields (b : BitVec Format.binary64.numBits) :
    b.toNat = (unpackSign b).toNat * 2 ^ 63 + (unpackExponent b).toNat * 2 ^ 52 + (unpackMantissa b).toNat := by
  have hlt : b.toNat < 2 ^ 64 := b.isLt
  simp only [unpackSign, unpackExponent, unpackMantissa, BitVec.toNat_cast, BitVec.extractLsb_toNat,
    Nat.shiftRight_eq_div_pow]
  show _ = b.toNat / 2 ^ 63 % 2 ^ 1 * 2 ^ 63 + b.toNat / 2 ^ 52 % 2 ^ 11 * 2 ^ 52 + b.toNat / 2 ^ 0 % 2 ^ 52
  omega

/-- The fields of a number other than zero, back from what it is unpacked to. -/
theorem fields_of_unpack {b : BitVec Format.binary64.numBits} {s : UnpackedFloat.Sign} {m : ℕ} {e : ℤ} {hm : 0 < m}
    (h : UnpackedFloat.unpack Format.binary64 b = .finite s m e hm) :
    unpackSign b = s.toBitVec ∧ (unpackMantissa b).toNat = m % 2 ^ 52 ∧
      (unpackExponent b).toNat = if m < 2 ^ 52 then 0 else (e + 1075).toNat := by
  have hsign (c : BitVec 1) : (Sign.ofBitVec c).toBitVec = c := by
    revert c
    decide
  have hlt : (unpackMantissa b).toNat < 2 ^ 52 := (unpackMantissa b).isLt
  have hbias : (Format.binary64.exponentBias + Format.binary64.mantissaBitsWithoutImplicit : ℤ) = 1075 := rfl
  unfold UnpackedFloat.unpack at h
  dsimp only at h
  rw [hbias] at h
  split_ifs at h with hlast hinfinite hfirst hzero
  · obtain ⟨rfl, rfl, rfl⟩ := UnpackedFloat.finite.inj h
    rw [if_pos hlt, Nat.mod_eq_of_lt hlt, hfirst]
    exact ⟨(hsign _).symm, rfl, rfl⟩
  · obtain ⟨rfl, rfl, rfl⟩ := UnpackedFloat.finite.inj h
    rw [toNat_append_one, if_neg (by omega), Nat.add_mod_left, Nat.mod_eq_of_lt hlt]
    exact ⟨(hsign _).symm, rfl, by omega⟩

/-- The fields that are read are those of the format. -/
theorem viewBits_toNat (b : BitVec Format.binary64.numBits) :
    viewBits b.toNat =
      if unpackExponent b = -1#11 then
        if unpackMantissa b = 0#52 then .infinite (unpackSign b = 1#1) else .nan
      else if unpackExponent b = 0#11 then .finite (unpackSign b = 1#1) (unpackMantissa b).toNat (-1074)
      else .finite (unpackSign b = 1#1) (2 ^ 52 + (unpackMantissa b).toNat) ((unpackExponent b).toNat - 1075) := by
  have hexponent : b.toNat >>> 52 % 2048 = (unpackExponent b).toNat := by simp [unpackExponent]
  have hmantissa : b.toNat % (1 <<< 52) = (unpackMantissa b).toNat := by simp [unpackMantissa]
  have hsign : b.toNat >>> 63 % 2 = (unpackSign b).toNat := by simp [unpackSign]
  have hlast : (unpackExponent b).toNat = 2047 ↔ unpackExponent b = -1#11 := BitVec.toNat_inj (y := -1#11)
  have hfirst : (unpackExponent b).toNat = 0 ↔ unpackExponent b = 0#11 := BitVec.toNat_inj (y := 0#11)
  have hnone : (unpackMantissa b).toNat = 0 ↔ unpackMantissa b = 0#52 := BitVec.toNat_inj (y := 0#52)
  have hnegative : ((unpackSign b).toNat == 1) = decide (unpackSign b = 1#1) := by
    rw [Bool.eq_iff_iff, beq_iff_eq, decide_eq_true_iff]
    exact BitVec.toNat_inj (y := 1#1)
  simp only [viewBits, hexponent, hmantissa, hsign, hnegative, hlast, hfirst, hnone, minExponent]
  split_ifs with hinfinite hnan hzero
  · rfl
  · rfl
  · rfl
  · have hpos : 0 < (unpackExponent b).toNat := Nat.pos_of_ne_zero (mt hfirst.1 hzero)
    congr 1
    omega

/-! ## Cutting -/

theorem Whole.part_ofDyadic {m : ℕ} {e : ℤ} {n : ℕ} (h : (m : ℚ) * 2 ^ e = n) : (Whole.ofDyadic m e).part = n := by
  match e with
  | .ofNat k =>
    show m <<< k = n
    rw [Int.ofNat_eq_natCast, zpow_natCast] at h
    rw [Nat.shiftLeft_eq]
    exact_mod_cast h
  | .negSucc k =>
    show m / 1 <<< (k + 1) = n
    rw [Int.negSucc_eq, ← Nat.cast_succ, zpow_neg, zpow_natCast, ← div_eq_mul_inv,
      div_eq_iff (by positivity)] at h
    rw [Nat.one_shiftLeft, show m = n * 2 ^ (k + 1) by exact_mod_cast h, Nat.mul_div_cancel _ (by positivity)]

/-- The nearest integer to a fraction is decided by what the division leaves. -/
theorem halfAway_div (m : ℕ) {d : ℕ} (hd : 0 < d) :
    halfAway (m / d) = (if d ≤ 2 * (m % d) then m / d + 1 else m / d : ℕ) := by
  have hd' : (0 : ℚ) < d := by exact_mod_cast hd
  have hlt : ((m % d : ℕ) : ℚ) / d < 1 := (div_lt_one hd').2 (by exact_mod_cast Nat.mod_lt m hd)
  have hnonneg : (0 : ℚ) ≤ (m % d : ℕ) / d := by positivity
  have hhalf := half_le_div_iff (r := m % d) hd
  rw [halfAway_of_nonneg (by positivity), Int.floor_eq_iff, div_eq_add_mod_div m hd]
  generalize m / d = q
  split_ifs with h
  · have hle := hhalf.2 h
    push_cast
    constructor <;> linarith
  · have hgt := lt_of_not_ge (mt hhalf.1 h)
    push_cast
    constructor <;> linarith

theorem zpow_negSucc_eq (k : ℕ) : (2 : ℚ) ^ Int.negSucc k = ((2 ^ (k + 1) : ℕ) : ℚ)⁻¹ := by
  rw [zpow_negSucc, Nat.cast_pow, Nat.cast_ofNat]

/-- A mantissa cut at the point and rounded up from a half on is the nearest integer. -/
theorem Whole.halfAway_ofDyadic {m n : ℕ} (hm : m < 2 ^ 53) {k : ℕ}
    (hn : n = if (Whole.ofDyadic m (.negSucc k)).half then (Whole.ofDyadic m (.negSucc k)).part + 1
      else (Whole.ofDyadic m (.negSucc k)).part) :
    n < 2 ^ 53 ∧ halfAway (m * 2 ^ Int.negSucc k) = n := by
  constructor
  · have hhalf : m / 2 ^ (k + 1) ≤ m / 2 := Nat.div_le_div_left (Nat.le_self_pow (by omega) 2) (by decide)
    have hle : n ≤ m / 2 ^ (k + 1) + 1 := by
      rw [hn]
      simp only [Whole.ofDyadic, Nat.one_shiftLeft]
      split_ifs <;> omega
    omega
  · rw [zpow_negSucc_eq, ← div_eq_mul_inv, halfAway_div m (Nat.two_pow_pos _), hn]
    simp [Whole.ofDyadic, Nat.one_shiftLeft]

end SignChart

namespace SignChart.Float
open HasValue Float.Model Float.Model.UnpackedFloat

/-! ## Numbers and their bits -/

/-- **Values tell numbers apart**, except zeros. -/
theorem eq_of_value_eq {x y : Float} (hx : x.isFinite = true) (hy : y.isFinite = true)
    (h : value x = value y) (hzero : value x ≠ 0) : x = y := by
  have hunpack : x.toModel.unpack = y.toModel.unpack :=
    (packable_unpack hx).canonical.eq_of_value_eq (packable_unpack hy).canonical h hzero
  obtain ⟨s, m, e, hm, hfinite⟩ : ∃ s m e hm, x.toModel.unpack = .finite s m e hm := by
    cases hu : x.toModel.unpack with
    | notANumber | infinity _ | zero _ => exact absurd (congrArg unpackedValue hu) hzero
    | finite s m e hm => exact ⟨s, m, e, hm, rfl⟩
  obtain ⟨hs, hmantissa, hexponent⟩ := fields_of_unpack hfinite
  obtain ⟨hs', hmantissa', hexponent'⟩ := fields_of_unpack (hunpack ▸ hfinite)
  have hbits : x.toModel.toBits.toBitVec = y.toModel.toBits.toBitVec := by
    refine BitVec.eq_of_toNat_eq ?_
    rw [toNat_eq_fields, toNat_eq_fields y.toModel.toBits.toBitVec, hs, hs', hmantissa, hmantissa', hexponent,
      hexponent']
  obtain ⟨⟨b, hb⟩⟩ := x
  obtain ⟨⟨c, hc⟩⟩ := y
  obtain rfl : b = c := UInt64.eq_of_toBitVec_eq hbits
  rfl

/-- The number that is read from the bits. -/
theorem view_of_isFinite {x : Float} (h : x.isFinite = true) :
    ∃ (negative : Bool) (m : ℕ) (e : ℤ), x.view = .finite negative m e ∧ m < 2 ^ 53 ∧
      value x = (if negative then -1 else 1) * (m * 2 ^ e) := by
  obtain ⟨b, hb⟩ : ∃ b : BitVec Format.binary64.numBits, b = x.toModel.toBits.toBitVec := ⟨_, rfl⟩
  have hview : x.view = viewBits b.toNat := by rw [hb]; rfl
  have hvalue : value x = unpackedValue (UnpackedFloat.unpack Format.binary64 b) := by rw [hb]; rfl
  have hfinite : (UnpackedFloat.unpack Format.binary64 b).isFinite = true := by rw [hb]; exact h
  have hbias : (Format.binary64.exponentBias + Format.binary64.mantissaBitsWithoutImplicit : ℤ) = 1075 := rfl
  have happly (m : ℕ) : ((Sign.ofBitVec (unpackSign b)).apply m : ℚ) =
      (if decide (unpackSign b = 1#1) = true then -1 else 1) * m := by
    generalize unpackSign b = c
    rcases (show c = 0#1 ∨ c = 1#1 by revert c; decide) with rfl | rfl <;> simp [Sign.ofBitVec, Sign.apply]
  have hm : (unpackMantissa b).toNat < 2 ^ 52 := (unpackMantissa b).isLt
  rw [hview, hvalue, viewBits_toNat]
  unfold UnpackedFloat.unpack at hfinite ⊢
  dsimp only at hfinite ⊢
  rw [hbias] at hfinite ⊢
  split_ifs at hfinite ⊢ with hinfinite hnan hfirst hzero
  · exact absurd hfinite (by simp [UnpackedFloat.isFinite])
  · exact absurd hfinite (by simp [UnpackedFloat.isFinite])
  · refine ⟨_, _, _, rfl, by omega, ?_⟩
    simp [unpackedValue, hzero]
  · refine ⟨_, _, _, rfl, by omega, ?_⟩
    rw [unpackedValue, happly, hfirst, mul_assoc]
    rfl
  · refine ⟨_, _, _, rfl, by omega, ?_⟩
    rw [unpackedValue, happly, toNat_append_one, mul_assoc]

/-! ## Whole numbers -/

theorem representable_value {x : Float} (h : x.isFinite = true) : Representable (value x) :=
  (packable_unpack h).canonical.representable

/-- A number in the format is the result of an operation that gives it exactly. -/
theorem IsRounded.of_representable {x : Float} {q : ℚ} (h : IsRounded x q) (hq : Representable q)
    (hmax : |q| < overflowBound) : x.isFinite = true ∧ value x = q := by
  have hlt : rounded |q| < overflowBound := by rwa [← abs_rounded, rounded_of_representable hq]
  obtain ⟨hfinite, hvalue⟩ := h.spec_of_lt hlt
  exact ⟨hfinite, by rw [hvalue, rounded_of_representable hq]⟩

theorem abs_intCast_lt_overflowBound {n : ℤ} (h : |n| < 2 ^ 53) : |(n : ℚ)| < overflowBound := by
  have h' : |(n : ℚ)| < 2 ^ (53 : ℤ) := by exact_mod_cast h
  exact h'.trans_le (zpow_le_zpow_right₀ (by norm_num) (by norm_num))

theorem neg_spec {x : Float} (h : x.isFinite = true) : (-x).isFinite = true ∧ value (-x) = -value x := by
  have hpackable := packable_neg (packable_unpack h)
  have hunpack : (-x).toModel.unpack = x.toModel.unpack.neg := unpack_pack hpackable
  constructor
  · show (-x).toModel.unpack.isFinite = true
    rw [hunpack]
    exact isFinite_unpacked hpackable
  · show unpackedValue (-x).toModel.unpack = -unpackedValue x.toModel.unpack
    rw [hunpack, unpackedValue_neg]

theorem isRounded_toFloat {n : ℕ} (h : n < 2 ^ 53) : IsRounded n.toUInt64.toFloat (n : ℤ) := by
  have hround := isRounded_pack (roundedTo_normalize .positive n 0)
  have hnat : n.toUInt64.toNat = n := (UInt64.toNat_ofNat' ..).trans (Nat.mod_eq_of_lt (by omega))
  rw [zpow_zero, mul_one] at hround
  have hmodel : n.toUInt64.toFloat =
      Float.ofModel (Float.Model.pack (UnpackedFloat.normalize Format.binary64 n.toUInt64.toNat 0 .positive)) := rfl
  rw [hmodel, hnat]
  exact hround

/-- An integer of up to 53 digits is converted exactly; what it is multiplied with is one. -/
theorem ofNat_spec {n : ℕ} (h : n < 2 ^ 53) : (Float.ofNat n).isFinite = true ∧ value (Float.ofNat n) = n := by
  have hn : |(n : ℤ)| < 2 ^ 53 := by rw [abs_of_nonneg (by omega)]; omega
  have hmul : Float.ofNat n = n.toUInt64.toFloat * Float.ofBits 0x3FF0000000000000 := by
    simp only [Float.ofNat, OfScientific.ofScientific, Float.ofScientific]
    rw [dif_pos ⟨h, by decide⟩]
    rfl
  have hone : (Float.ofBits 0x3FF0000000000000).isFinite = true ∧ value (Float.ofBits 0x3FF0000000000000) = 1 := by
    have hspec := spec_of_unpack (x := Float.ofBits 0x3FF0000000000000) (s := .positive) (m := 2 ^ 52) (e := -52)
      (h := by decide) rfl
    exact ⟨hspec.1, hspec.2.trans (by norm_num [Sign.apply])⟩
  obtain ⟨hfinite, hvalue⟩ :=
    (isRounded_toFloat h).of_representable (representable_intCast hn) (abs_intCast_lt_overflowBound hn)
  rw [Int.cast_natCast] at hvalue
  have hproduct := isRounded_mul hfinite hone.1
  rw [hvalue, hone.2, mul_one, ← hmul] at hproduct
  exact hproduct.of_representable (representable_intCast hn) (abs_intCast_lt_overflowBound hn)

/-- **The nearest whole number** is that of the value, halves away from zero. -/
theorem nearest_spec {x : Float} (h : x.isFinite = true) :
    x.nearest.isFinite = true ∧ value x.nearest = halfAway (value x) := by
  obtain ⟨negative, m, e, hview, hm, hvalue⟩ := view_of_isFinite h
  simp only [Float.nearest, Float.roundWith, hview]
  by_cases he : 0 ≤ e
  · -- without digits behind the point the number is whole already
    rw [if_pos he]
    obtain ⟨k, rfl⟩ : ∃ k : ℕ, e = k := ⟨e.toNat, by omega⟩
    have hwhole : value x = ((if negative then -1 else 1) * (m * 2 ^ k) : ℤ) := by
      rw [hvalue, zpow_natCast]
      cases negative <;> simp
    rw [hwhole, halfAway_intCast]
    exact ⟨h, rfl⟩
  · rw [if_neg he]
    obtain ⟨k, rfl⟩ : ∃ k : ℕ, e = Int.negSucc k := ⟨(-e - 1).toNat, by omega⟩
    obtain ⟨n, hn⟩ : ∃ n : ℕ, n = if (Whole.ofDyadic m (.negSucc k)).half then (Whole.ofDyadic m (.negSucc k)).part + 1
      else (Whole.ofDyadic m (.negSucc k)).part := ⟨_, rfl⟩
    obtain ⟨hlt, hround⟩ := Whole.halfAway_ofDyadic hm hn
    obtain ⟨hfinite, hexact⟩ := ofNat_spec hlt
    rw [← hn, hvalue]
    cases negative with
    | false =>
      rw [if_neg Bool.false_ne_true, if_neg Bool.false_ne_true, one_mul, hround]
      exact ⟨hfinite, hexact⟩
    | true =>
      obtain ⟨hfinite', hexact'⟩ := neg_spec hfinite
      rw [if_pos rfl, if_pos rfl, neg_one_mul, halfAway_neg, hround]
      exact ⟨hfinite', by rw [hexact', hexact]; simp⟩

/-- **Conversion.**  A whole number is converted to the machine integer nearest to it. -/
theorem toMachineInt_of_value {x : Float} (h : x.isFinite = true) {n : ℤ} (hn : value x = n) :
    x.toMachineInt = max Float.minMachineInt (min Float.maxMachineInt n) := by
  obtain ⟨negative, m, e, hview, -, hvalue⟩ := view_of_isFinite h
  have hmagnitude : (m : ℚ) * 2 ^ e = n.natAbs := by
    have hpos : (0 : ℚ) ≤ m * 2 ^ e := by positivity
    rw [Nat.cast_natAbs, Int.cast_abs, ← hn, hvalue]
    cases negative <;> simp [abs_of_nonneg hpos]
  have hsigned : n = if negative then -(n.natAbs : ℤ) else n.natAbs := by
    have hcast : (n : ℚ) = ((if negative then -(n.natAbs : ℤ) else n.natAbs : ℤ) : ℚ) := by
      rw [← hn, hvalue, hmagnitude]
      cases negative <;> simp
    exact_mod_cast hcast
  simp only [Float.toMachineInt, hview, Whole.part_ofDyadic hmagnitude]
  rw [← hsigned]

end SignChart.Float
