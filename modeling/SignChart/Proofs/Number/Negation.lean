/-
  Negation of floating-point numbers, and what a magnitude tells.

  Negation flips the sign bit.  It keeps what is finite, what is zero and every magnitude, and turns round the sign of
  a number that is neither zero nor infinite (**`Float.sign_neg`**).  A difference of negated numbers is the
  difference taken the other way round (**`Float.neg_sub_neg`**), and the magnitude of a quotient depends on the
  magnitude of the dividend alone (**`Float.abs_div_congr`**).  Each of these is a fact of unpacked numbers, since
  unpacking commutes with negation and with magnitudes (`unpack_neg`, `unpack_abs`), also for infinities and NaN.

  A magnitude below a finite bound is that of a finite number (`Float.isFinite_of_abs_lt`), one above zero that of a
  number which is not zero (`Float.zero_lt_abs_iff`), and that of a zero is below every positive bound
  (`Float.abs_lt_of_beq_zero`).
-/
import SignChart.Proofs.Number.Bits
import SignChart.Proofs.Number.Magnitude
import SignChart.Point

namespace SignChart
open Float.Model Float.Model.UnpackedFloat

/-! ## Unpacked numbers -/

/-- The sign bit is unpacked to the sign, also of infinities and NaN. -/
theorem unpack_neg (x : Float) : (-x).toModel.unpack = x.toModel.unpack.neg := by
  show UnpackedFloat.unpack Format.binary64 (UnpackedFloat.pack _ x.toModel.unpack.neg) = x.toModel.unpack.neg
  by_cases hfinite : x.isFinite = true
  · exact unpack_pack (packable_neg (packable_unpack hfinite))
  · replace hfinite : ¬ x.toModel.unpack.isFinite = true := hfinite
    cases hx : x.toModel.unpack with
    | notANumber => rfl
    | infinity s => cases s <;> rfl
    | zero s => exact absurd (by rw [hx]; rfl) hfinite
    | finite s m e hm => exact absurd (by rw [hx]; rfl) hfinite

theorem unpack_abs (x : Float) : x.abs.toModel.unpack = x.toModel.unpack.abs := by
  show UnpackedFloat.unpack Format.binary64 (UnpackedFloat.pack _ x.toModel.unpack.abs) = x.toModel.unpack.abs
  by_cases hfinite : x.isFinite = true
  · exact unpack_pack (Float.packable_abs (packable_unpack hfinite))
  · replace hfinite : ¬ x.toModel.unpack.isFinite = true := hfinite
    cases hx : x.toModel.unpack with
    | notANumber => rfl
    | infinity s => exact Float.unpack_pack_abs_infinity s
    | zero s => exact absurd (by rw [hx]; rfl) hfinite
    | finite s m e hm => exact absurd (by rw [hx]; rfl) hfinite

/-- Two negated numbers are subtracted the other way round: their mantissas have changed sign, and the lesser of the two
exponents is the same. -/
theorem unpackedSub_neg_neg (format : Format) (u v : UnpackedFloat) :
    UnpackedFloat.sub format u.neg v.neg = UnpackedFloat.sub format v u := by
  match u, v with
  | .finite s m e _, .finite t n d _ =>
    show UnpackedFloat.normalize format ((-s).apply (decreaseExponent m e (min e d)).1 -
        (-t).apply (decreaseExponent n d (min e d)).1) (min e d) .positive =
      UnpackedFloat.normalize format (t.apply (decreaseExponent n d (min d e)).1 -
        s.apply (decreaseExponent m e (min d e)).1) (min d e) .positive
    rw [Int.min_comm d e, apply_neg, apply_neg, neg_sub_neg]
  | .notANumber, .notANumber => rfl
  | .notANumber, .infinity _ => rfl
  | .notANumber, .zero _ => rfl
  | .notANumber, .finite .. => rfl
  | .infinity _, .notANumber => rfl
  | .infinity s, .infinity t => cases s <;> cases t <;> rfl
  | .infinity _, .zero _ => rfl
  | .infinity _, .finite .. => rfl
  | .zero _, .notANumber => rfl
  | .zero s, .infinity t => cases t <;> rfl
  | .zero s, .zero t => cases s <;> cases t <;> rfl
  | .zero _, .finite t _ _ _ => cases t <;> rfl
  | .finite .., .notANumber => rfl
  | .finite .., .infinity t => cases t <;> rfl
  | .finite .., .zero _ => rfl

/-- Magnitudes are rounded without regard to the sign. -/
theorem abs_roundWithAccuracy (format : Format) (s t : UnpackedFloat.Sign) (m : Nat) (e : Int) (a : Accuracy) :
    (roundWithAccuracy format s m e a).abs = (roundWithAccuracy format t m e a).abs := by
  unfold roundWithAccuracy
  dsimp only
  split <;> rfl

/-- The sign of the dividend goes into the sign of the quotient, and into nothing else. -/
theorem abs_unpackedDiv_congr (format : Format) {u v : UnpackedFloat} (h : u.abs = v.abs) (w : UnpackedFloat) :
    (UnpackedFloat.div format u w).abs = (UnpackedFloat.div format v w).abs := by
  match u, v with
  | .finite s m e _, .finite t n d _ =>
    obtain ⟨-, rfl, rfl⟩ := UnpackedFloat.finite.inj h
    cases w with
    | finite => exact abs_roundWithAccuracy ..
    | notANumber | infinity _ | zero _ => rfl
  | .notANumber, .notANumber => rfl
  | .infinity s, .infinity t => cases w <;> rfl
  | .zero s, .zero t => cases w <;> rfl

namespace Float
open HasValue

/-! ## Negation -/

/-- Negation keeps what is finite. -/
@[simp] theorem isFinite_neg (x : Float) : Scalar.isFinite (-x) = Scalar.isFinite x := by
  show (-x).toModel.unpack.isFinite = x.toModel.unpack.isFinite
  rw [unpack_neg]
  cases x.toModel.unpack <;> rfl

/-- Negation keeps the magnitude. -/
@[simp] theorem abs_neg (x : Float) : Scalar.abs (-x) = Scalar.abs x := by
  have hunpack : x.toModel.unpack.neg.abs = x.toModel.unpack.abs := by cases x.toModel.unpack <;> rfl
  show Float.ofModel (Float.Model.pack (-x).toModel.unpack.abs) = Float.ofModel (Float.Model.pack x.toModel.unpack.abs)
  rw [unpack_neg, hunpack]

/-- Negation keeps what is zero. -/
@[simp] theorem beq_zero_neg (x : Float) : (-x == 0.0) = (x == 0.0) := by
  show ((-x).toModel.unpack.compare (.zero .positive) == some .eq) =
    (x.toModel.unpack.compare (.zero .positive) == some .eq)
  rw [unpack_neg]
  cases x.toModel.unpack with
  | notANumber | zero _ => rfl
  | infinity s | finite s _ _ _ => cases s <;> rfl

/-- A difference of negated numbers is the difference taken the other way round. -/
theorem neg_sub_neg (x y : Float) : -x - -y = y - x := by
  show Float.ofModel (Float.Model.pack (UnpackedFloat.sub _ (-x).toModel.unpack (-y).toModel.unpack)) =
    Float.ofModel (Float.Model.pack (UnpackedFloat.sub _ y.toModel.unpack x.toModel.unpack))
  rw [unpack_neg, unpack_neg, unpackedSub_neg_neg]

/-- The magnitude of a quotient depends on the magnitude of the dividend alone. -/
theorem abs_div_congr {x y : Float} (h : x.abs = y.abs) (d : Float) : (x / d).abs = (y / d).abs := by
  have hunpack : x.toModel.unpack.abs = y.toModel.unpack.abs := by rw [← unpack_abs, h, unpack_abs]
  exact congrArg (fun u => Float.ofModel (Float.Model.pack u))
    (abs_unpack_pack Format.binary64 (abs_unpackedDiv_congr _ hunpack d.toModel.unpack))

/-- The magnitude of a slope between two values. -/
theorem abs_neg_sub_neg_div (x y d : Float) : Scalar.abs ((-x - -y) / d) = Scalar.abs ((x - y) / d) :=
  abs_div_congr (by rw [neg_sub_neg, abs_sub_comm]) d

/-! ## Close to zero -/

theorem value_zero : value (0.0 : Float) = 0 := rfl

/-- A finite number that is not equal to zero does not have its value either. -/
theorem value_ne_zero {x : Float} (hx : x.isFinite = true) (hzero : (x == 0.0) = false) : value x ≠ 0 := by
  intro hvalue
  have heq : (x == 0.0) = true := (beq_iff hx rfl).2 (hvalue.trans value_zero.symm)
  rw [hzero] at heq
  exact Bool.false_ne_true heq

/-- **The sign of a negated number** that is finite and not zero is the other one. -/
theorem sign_neg {x : Float} (hx : x.isFinite = true) (hzero : (x == 0.0) = false) :
    Sign.of (-x) = .minus * Sign.of x := by
  obtain ⟨hneg, hvalue⟩ := neg_spec hx
  have hsign {y : Float} (hy : y.isFinite = true) : Sign.of y = if 0 ≤ value y then .plus else .minus := by
    have hle : (0.0 : Float) ≤ y ↔ 0 ≤ value y := le_iff (x := 0.0) rfl hy
    exact if_congr hle rfl rfl
  rw [hsign hneg, hsign hx, hvalue]
  rcases lt_or_gt_of_ne (value_ne_zero hx hzero) with hlt | hgt
  · rw [if_pos (by linarith), if_neg (by linarith)]
    rfl
  · rw [if_neg (by linarith), if_pos hgt.le]
    rfl

/-- Signs of numbers that are neither zero nor infinite are equal exactly if the signs of their negatives are. -/
theorem sign_neg_eq_iff {x y : Float} (hx : x.isFinite = true) (hxzero : (x == 0.0) = false) (hy : y.isFinite = true)
    (hyzero : (y == 0.0) = false) : Sign.of (-x) = Sign.of (-y) ↔ Sign.of x = Sign.of y := by
  rw [sign_neg hx hxzero, sign_neg hy hyzero]
  cases Sign.of x <;> cases Sign.of y <;> decide

theorem le_of_lt {x y : Float} (h : x < y) : x ≤ y := by
  have hcompare : (x.toModel.unpack.compare y.toModel.unpack == some .lt) = true := of_decide_eq_true h
  show decide (((x.toModel.unpack.compare y.toModel.unpack).any (·.isLE)) = true) = true
  rw [eq_of_beq hcompare]
  rfl

/-- A magnitude below a finite bound is that of a finite number. -/
theorem isFinite_of_abs_lt {x b : Float} (hb : b.isFinite = true) (h : x.abs < b) : x.isFinite = true :=
  isFinite_of_abs_le hb (le_of_lt h)

/-- Zero is smaller than any positive bound. -/
theorem abs_lt_of_beq_zero {x b : Float} (hb : b.isFinite = true) (hpos : (0.0 : Float) < b) (h : (x == 0.0) = true) :
    Scalar.abs x < b := by
  have hx : x.isFinite = true := isFinite_of_beq_zero h
  have hlt : x.abs < b ↔ value x.abs < value b := lt_iff (isFinite_abs hx) hb
  refine hlt.2 ?_
  rw [value_abs hx, (beq_iff (y := 0.0) hx rfl).1 h, value_zero, abs_zero]
  exact (lt_iff (x := (0.0 : Float)) rfl hb).1 hpos

/-- A magnitude above zero is that of a number which is not zero. -/
theorem zero_lt_abs_iff {x : Float} (hx : x.isFinite = true) : (0.0 : Float) < x.abs ↔ (x == 0.0) = false := by
  have hlt : (0.0 : Float) < x.abs ↔ 0 < value x.abs := lt_iff (x := (0.0 : Float)) rfl (isFinite_abs hx)
  have hbeq : (x == 0.0) = true ↔ value x = 0 := beq_iff (y := 0.0) hx rfl
  rw [hlt, value_abs hx, abs_pos, ← Bool.not_eq_true, hbeq]

end Float
end SignChart
