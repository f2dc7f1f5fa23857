/-
  Two facts of floating-point arithmetic.

  The difference of two numbers, taken either way round, has the same magnitude (`Float.abs_sub_comm`).  The sign
  of a difference is carried through subtraction, rounding and packing to the end, and nothing on the way depends
  on it: each of the lemmas before is about one of these stages.

  What is equal to zero is finite (`Float.isFinite_of_beq_zero`).
-/
import Mathlib
import SignChart.Number.Scalar

namespace SignChart
open Float.Model Float.Model.UnpackedFloat

/-! ## Magnitudes -/

/-- A magnitude is rounded without regard to the sign. -/
theorem abs_round (format : Format) (s t : UnpackedFloat.Sign) (m : Nat) (e : Int) :
    (UnpackedFloat.round format s m e).abs = (UnpackedFloat.round format t m e).abs := by
  unfold UnpackedFloat.round roundWithAccuracy
  dsimp only
  split <;> rfl

/-- A negated mantissa is rounded to the same magnitude. -/
theorem abs_normalize_neg (format : Format) (m e : Int) (s : UnpackedFloat.Sign) :
    (UnpackedFloat.normalize format (-m) e s).abs = (UnpackedFloat.normalize format m e s).abs := by
  unfold UnpackedFloat.normalize
  rcases Int.lt_trichotomy m 0 with h | h | h
  · rw [Int.compare_eq_lt.2 h, Int.compare_eq_gt.2 (by omega)]
    exact abs_round ..
  · rw [h]
    rfl
  · rw [Int.compare_eq_gt.2 h, Int.compare_eq_lt.2 (by omega), Int.neg_neg]
    exact abs_round ..

/-- Only two finite numbers are really subtracted; their mantissas, at the lesser of the two exponents, give one
integer or its negative. -/
theorem abs_unpackedSub_comm (format : Format) (u v : UnpackedFloat) :
    (UnpackedFloat.sub format u v).abs = (UnpackedFloat.sub format v u).abs := by
  match u, v with
  | .finite s m e _, .finite t n d _ =>
    show (UnpackedFloat.normalize format (s.apply (decreaseExponent m e (min e d)).1 -
        t.apply (decreaseExponent n d (min e d)).1) (min e d) .positive).abs =
      (UnpackedFloat.normalize format (t.apply (decreaseExponent n d (min d e)).1 -
        s.apply (decreaseExponent m e (min d e)).1) (min d e) .positive).abs
    rw [Int.min_comm d e, ← Int.neg_sub, abs_normalize_neg]
  | .notANumber, .notANumber => rfl
  | .notANumber, .infinity _ => rfl
  | .notANumber, .zero _ => rfl
  | .notANumber, .finite .. => rfl
  | .infinity _, .notANumber => rfl
  | .infinity s, .infinity t => cases s <;> cases t <;> rfl
  | .infinity _, .zero _ => rfl
  | .infinity _, .finite .. => rfl
  | .zero _, .notANumber => rfl
  | .zero _, .infinity _ => rfl
  | .zero s, .zero t => cases s <;> cases t <;> rfl
  | .zero _, .finite .. => rfl
  | .finite .., .notANumber => rfl
  | .finite .., .infinity _ => rfl
  | .finite .., .zero _ => rfl

/-- The sign bit has no part in the magnitude. -/
theorem abs_unpack_packComponents (format : Format) (s t : UnpackedFloat.Sign) (e : BitVec format.exponentBits)
    (m : BitVec format.mantissaBitsWithoutImplicit) :
    (UnpackedFloat.unpack format (packComponents format s e m)).abs =
      (UnpackedFloat.unpack format (packComponents format t e m)).abs := by
  simp only [UnpackedFloat.unpack, unpackMantissa_packComponents, unpackExponent_packComponents]
  split
  · split <;> rfl
  · split
    · split <;> rfl
    · rfl

/-- Numbers of one magnitude are packed to numbers of one magnitude. -/
theorem abs_unpack_pack (format : Format) {u v : UnpackedFloat} (h : u.abs = v.abs) :
    (UnpackedFloat.unpack format (UnpackedFloat.pack format u)).abs =
      (UnpackedFloat.unpack format (UnpackedFloat.pack format v)).abs := by
  match u, v with
  | .finite s m e _, .finite t n d _ =>
    obtain ⟨-, rfl, rfl⟩ := UnpackedFloat.finite.inj h
    unfold UnpackedFloat.pack
    dsimp only
    split
    · exact abs_unpack_packComponents ..
    · split <;> exact abs_unpack_packComponents ..
  | .notANumber, .notANumber => rfl
  | .infinity s, .infinity t => exact abs_unpack_packComponents ..
  | .zero s, .zero t => exact abs_unpack_packComponents ..

/-- **Differences.**  It does not matter to the magnitude of a difference which number is subtracted. -/
theorem Float.abs_sub_comm (x y : Float) : (x - y).abs = (y - x).abs :=
  congrArg (fun u => Float.ofModel (Float.Model.pack u))
    (abs_unpack_pack Format.binary64 (abs_unpackedSub_comm Format.binary64 x.toModel.unpack y.toModel.unpack))

/-! ## Zeros -/

theorem Float.isFinite_of_beq_zero {x : Float} (h : (x == 0.0) = true) : x.isFinite = true := by
  have hzero : (0.0 : Float).toModel.unpack = .zero .positive := rfl
  have hcompare : (x.toModel.unpack.compare (.zero .positive) == some .eq) = true := by
    rw [← hzero]
    exact h
  show x.toModel.unpack.isFinite = true
  cases hx : x.toModel.unpack with
  | notANumber => rw [hx] at hcompare; exact absurd hcompare (by decide)
  | infinity s => rw [hx] at hcompare; cases s <;> exact absurd hcompare (by decide)
  | zero => rfl
  | finite => rfl

end SignChart
