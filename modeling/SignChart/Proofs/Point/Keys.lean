/-
  Which points have the same key, and are merged.

  1. **Round keys.**  What is computed for the key of a finite number is what its value says (`keyValue`, `micros`), or
     an infinity on the way (`roundKeyCase`, `keyCount_of_isFinite`).

  2. **Saturation.**  From `keyLimit` on, and only there, the count is the last machine integer
     (`keyCount_eq_max_iff`, `keyCount_eq_min_iff`).

  3. **Keys.**  So two keys are the same if the round keys are, or both are saturated at one end, or are blurred
     (`keyCount_eq_iff`).  For values that are one or more apart only saturation is left (`keyCount_eq_iff_of_apart`).
     What this means to lists of points is **`pointKey_eq_iff`**.
-/
import SignChart.Proofs.Number.Bits
import SignChart.Proofs.Point.Millionths
import SignChart.Proofs.Point.Order

namespace SignChart
open HasValue

/-! ## Round keys -/

theorem keyScale_spec : (keyScale : Float).isFinite = true ∧ value (keyScale : Float) = 10 ^ 6 := by
  have hspec := Float.spec_of_unpack (x := keyScale) (s := .positive) (m := 8589934592000000) (e := -33)
    (h := by decide) rfl
  exact ⟨hspec.1, hspec.2.trans (by norm_num [Float.Model.UnpackedFloat.Sign.apply])⟩

/-- The numbers from here on have too many millionths. -/
def keyLimit : Float := 9223372036854.775390625

theorem keyLimit_spec : keyLimit.isFinite = true ∧ value keyLimit = keyBound := by
  have hspec := Float.spec_of_unpack (x := keyLimit) (s := .positive) (m := 4722366482869645) (e := -9)
    (h := by decide) rfl
  exact ⟨hspec.1, hspec.2.trans (by norm_num [Float.Model.UnpackedFloat.Sign.apply, keyBound])⟩

/-- The number of millionths in a key. -/
def keyCount (r : Float) : ℤ := Float.toMachineInt (Float.nearest (r * keyScale))

theorem pointKey_of (t : PointType) (a : Float) : PointKey.of t a = ⟨t, keyCount (roundKey a)⟩ := rfl

/-- The machine integer nearest to an integer. -/
def clamp (n : ℤ) : ℤ := max Float.minMachineInt (min Float.maxMachineInt n)

theorem le_overflowBound : ((2 ^ 63 : ℤ) : ℚ) ≤ overflowBound := by
  have hpow : ((2 ^ 63 : ℤ) : ℚ) = 2 ^ (63 : ℤ) := by norm_num
  rw [hpow]
  exact zpow_le_zpow_right₀ (by norm_num) (by norm_num)

theorem keyCount_of_isFinite {r : Float} (hr : r.isFinite = true) : keyCount r = clamp (micros (value r)) := by
  have hproduct := Float.isRounded_mul hr keyScale_spec.1
  rw [keyScale_spec.2, mul_comm] at hproduct
  unfold keyCount
  cases hproduct with
  | finite isFinite value_eq =>
    obtain ⟨hfinite, hvalue⟩ := Float.nearest_spec isFinite
    exact Float.toMachineInt_of_value hfinite (by rw [hvalue, value_eq, micros])
  | above le eq =>
    have hmono := halfAway_mono (le_overflowBound.trans le)
    rw [halfAway_intCast] at hmono
    rw [eq, show (Float.overflow .positive).nearest.toMachineInt = Float.maxMachineInt by decide, clamp, micros]
    unfold Float.maxMachineInt Float.minMachineInt
    omega
  | below le eq =>
    have hmono := halfAway_mono (le.trans (neg_le_neg le_overflowBound))
    rw [halfAway_neg, halfAway_intCast] at hmono
    rw [eq, show (Float.overflow .negative).nearest.toMachineInt = Float.minMachineInt by decide, clamp, micros]
    unfold Float.maxMachineInt Float.minMachineInt
    omega

/-- What becomes of a finite number that is rounded to millionths. -/
inductive RoundKeyCase (a : Float) : Prop
  | finite (isFinite : (roundKey a).isFinite = true) (value_eq : value (roundKey a) = keyValue (value a))
      (zero : value (roundKey a) = 0 → roundKey a = 0.0)
  | above (eq : roundKey a = Float.overflow .positive)
  | below (eq : roundKey a = Float.overflow .negative)

theorem roundKeyCase {a : Float} (ha : a.isFinite = true) : RoundKeyCase a := by
  obtain ⟨r, hr⟩ : ∃ r, r = (a * keyScale).nearest / keyScale := ⟨_, rfl⟩
  have hroundKey : roundKey a = if r == 0.0 then 0.0 else r := by rw [hr]; rfl
  have hproduct := Float.isRounded_mul ha keyScale_spec.1
  rw [keyScale_spec.2, mul_comm] at hproduct
  cases hproduct with
  | above _ eq =>
    rw [eq] at hr
    exact .above (by rw [hroundKey, hr]; rfl)
  | below _ eq =>
    rw [eq] at hr
    exact .below (by rw [hroundKey, hr]; rfl)
  | finite isFinite value_eq =>
    obtain ⟨hfinite, hvalue⟩ := Float.nearest_spec isFinite
    have hquotient := Float.isRounded_div hfinite keyScale_spec.1 (by rw [keyScale_spec.2]; norm_num)
    rw [← hr, keyScale_spec.2] at hquotient
    -- a quotient is not greater than the dividend, which is a number
    have hlt : rounded |value (a * keyScale).nearest / 10 ^ 6| < overflowBound := by
      have hdividend := Float.representable_value hfinite
      have hle : |value (a * keyScale).nearest / 10 ^ 6| ≤ |value (a * keyScale).nearest| := by
        rw [abs_div]
        exact div_le_self (abs_nonneg _) (by norm_num)
      refine (rounded_mono hle).trans_lt ?_
      rw [← abs_rounded, rounded_of_representable hdividend]
      exact (packable_unpack hfinite).abs_value_lt
    obtain ⟨hfinite', hvalue'⟩ := hquotient.spec_of_lt hlt
    rw [hvalue, value_eq] at hvalue'
    have hzero : (r == 0.0) = true ↔ value r = 0 := Float.beq_iff hfinite' rfl
    by_cases h : (r == 0.0) = true
    · rw [if_pos h] at hroundKey
      refine .finite (by rw [hroundKey]; rfl) ?_ fun _ => hroundKey
      rw [hroundKey, keyValue, ← hvalue', hzero.1 h]
      rfl
    · rw [if_neg h] at hroundKey
      rw [hzero] at h
      exact .finite (by rw [hroundKey]; exact hfinite') (by rw [hroundKey]; exact hvalue') fun h' =>
        absurd (hroundKey ▸ h') h

theorem value_roundKey {a : Float} (ha : a.isFinite = true) (hr : (roundKey a).isFinite = true) :
    value (roundKey a) = keyValue (value a) ∧ (value (roundKey a) = 0 → roundKey a = 0.0) := by
  cases roundKeyCase ha with
  | finite _ value_eq zero => exact ⟨value_eq, zero⟩
  | above eq =>
    rw [eq] at hr
    exact absurd hr (by decide)
  | below eq =>
    rw [eq] at hr
    exact absurd hr (by decide)

/-- Finite round keys are told apart by their values: of the zeros there is only one. -/
theorem roundKey_eq_of_value_eq {a b : Float} (ha : a.isFinite = true) (hb : b.isFinite = true)
    (ha' : (roundKey a).isFinite = true) (hb' : (roundKey b).isFinite = true)
    (h : value (roundKey a) = value (roundKey b)) : roundKey a = roundKey b := by
  by_cases hzero : value (roundKey a) = 0
  · rw [(value_roundKey ha ha').2 hzero, (value_roundKey hb hb').2 (h ▸ hzero)]
  · exact Float.eq_of_value_eq ha' hb' h hzero

/-! ## Saturation -/

/-- Exactly the values from the limit on are counted as the greatest machine integer. -/
theorem keyCount_eq_max_iff {a : Float} (ha : a.isFinite = true) :
    keyCount (roundKey a) = Float.maxMachineInt ↔ keyLimit ≤ roundKey a := by
  cases roundKeyCase ha with
  | above eq =>
    rw [eq]
    decide
  | below eq =>
    rw [eq]
    decide
  | finite isFinite _ _ =>
    rw [Float.le_iff keyLimit_spec.1 isFinite, keyLimit_spec.2, keyCount_of_isFinite isFinite]
    unfold clamp Float.maxMachineInt Float.minMachineInt
    constructor
    · intro hmax
      by_contra hlt
      have hle := micros_of_lt_keyBound (Float.representable_value isFinite) (not_le.1 hlt)
      omega
    · intro hle
      have hcount := micros_of_keyBound_le hle
      omega

theorem keyCount_eq_min_iff {a : Float} (ha : a.isFinite = true) :
    keyCount (roundKey a) = Float.minMachineInt ↔ roundKey a ≤ -keyLimit := by
  cases roundKeyCase ha with
  | above eq =>
    rw [eq]
    decide
  | below eq =>
    rw [eq]
    decide
  | finite isFinite _ _ =>
    obtain ⟨hfinite, hvalue⟩ := Float.neg_spec keyLimit_spec.1
    rw [Float.le_iff isFinite hfinite, hvalue, keyLimit_spec.2, keyCount_of_isFinite isFinite]
    unfold clamp Float.maxMachineInt Float.minMachineInt
    constructor
    · intro hmin
      by_contra hlt
      have hle := micros_of_lt_keyBound (Float.representable_value isFinite).neg (neg_lt.1 (not_le.1 hlt))
      rw [micros_neg] at hle
      omega
    · intro hle
      have hcount := micros_of_keyBound_le (le_neg.1 hle)
      rw [micros_neg] at hcount
      omega

/-- Both values have too many millionths to be counted, and have the same sign. -/
def SaturatedTogether (a b : Float) : Prop :=
  (keyLimit ≤ roundKey a ∧ keyLimit ≤ roundKey b) ∨ (roundKey a ≤ -keyLimit ∧ roundKey b ≤ -keyLimit)

theorem SaturatedTogether.keyCount_eq {a b : Float} (ha : a.isFinite = true) (hb : b.isFinite = true)
    (h : SaturatedTogether a b) : keyCount (roundKey a) = keyCount (roundKey b) := by
  rcases h with ⟨ha', hb'⟩ | ⟨ha', hb'⟩
  · rw [(keyCount_eq_max_iff ha).2 ha', (keyCount_eq_max_iff hb).2 hb']
  · rw [(keyCount_eq_min_iff ha).2 ha', (keyCount_eq_min_iff hb).2 hb']

/-- A value that is not saturated is counted exactly. -/
theorem counted {a : Float} (ha : a.isFinite = true) (hmax : keyCount (roundKey a) ≠ Float.maxMachineInt)
    (hmin : keyCount (roundKey a) ≠ Float.minMachineInt) :
    (roundKey a).isFinite = true ∧ keyCount (roundKey a) = micros (value (roundKey a)) ∧
      |value (roundKey a)| < keyBound := by
  have hhigh := mt (keyCount_eq_max_iff ha).2 hmax
  have hlow := mt (keyCount_eq_min_iff ha).2 hmin
  cases roundKeyCase ha with
  | above eq => exact absurd (by rw [eq]; decide) hmax
  | below eq => exact absurd (by rw [eq]; decide) hmin
  | finite isFinite _ _ =>
    obtain ⟨hfinite, hvalue⟩ := Float.neg_spec keyLimit_spec.1
    rw [Float.le_iff keyLimit_spec.1 isFinite, keyLimit_spec.2, not_le] at hhigh
    rw [Float.le_iff isFinite hfinite, hvalue, keyLimit_spec.2, not_le] at hlow
    have hcount := keyCount_of_isFinite isFinite
    refine ⟨isFinite, ?_, abs_lt.2 ⟨hlow, hhigh⟩⟩
    rw [hcount] at hmax hmin ⊢
    unfold clamp Float.maxMachineInt Float.minMachineInt at *
    omega

/-- Two values with one count are saturated, or the count is that of both round keys. -/
theorem saturated_or_counted {a b : Float} (ha : a.isFinite = true) (hb : b.isFinite = true)
    (h : keyCount (roundKey a) = keyCount (roundKey b)) :
    SaturatedTogether a b ∨
      ((roundKey a).isFinite = true ∧ |value (roundKey a)| < keyBound) ∧
        ((roundKey b).isFinite = true ∧ |value (roundKey b)| < keyBound) ∧
        micros (value (roundKey a)) = micros (value (roundKey b)) := by
  by_cases hmax : keyCount (roundKey a) = Float.maxMachineInt
  · exact .inl (.inl ⟨(keyCount_eq_max_iff ha).1 hmax, (keyCount_eq_max_iff hb).1 (h ▸ hmax)⟩)
  by_cases hmin : keyCount (roundKey a) = Float.minMachineInt
  · exact .inl (.inr ⟨(keyCount_eq_min_iff ha).1 hmin, (keyCount_eq_min_iff hb).1 (h ▸ hmin)⟩)
  obtain ⟨hfinite, hcount, hbound⟩ := counted ha hmax hmin
  obtain ⟨hfinite', hcount', hbound'⟩ := counted hb (h ▸ hmax) (h ▸ hmin)
  exact .inr ⟨⟨hfinite, hbound⟩, ⟨hfinite', hbound'⟩, by rw [← hcount, h, hcount']⟩

/-! ## Keys -/

theorem isFinite_of_value_ne_zero {x : Float} (h : value x ≠ 0) : x.isFinite = true := by
  have hvalue : unpackedValue x.toModel.unpack ≠ 0 := h
  show x.toModel.unpack.isFinite = true
  cases hu : x.toModel.unpack with
  | notANumber | infinity _ =>
    rw [hu] at hvalue
    exact absurd rfl hvalue
  | zero _ => rfl
  | finite _ _ _ _ => rfl

theorem Blurred.keyCount_eq {r s : Float} (h : Blurred (value r) (value s) ∨ Blurred (-value r) (-value s)) :
    keyCount r = keyCount s := by
  have hne {q : ℚ} (hq : InBand q ∨ InBand (-q)) : q ≠ 0 := by
    rintro rfl
    norm_num [InBand] at hq
  have hr : r.isFinite = true :=
    isFinite_of_value_ne_zero (hne (h.imp (·.1) (·.1)))
  have hs : s.isFinite = true :=
    isFinite_of_value_ne_zero (hne (h.imp (·.2.1) (·.2.1)))
  rw [keyCount_of_isFinite hr, keyCount_of_isFinite hs]
  rcases h with ⟨hr, hs, h⟩ | ⟨hr, hs, h⟩
  · rw [hr.micros_eq, hs.micros_eq, h]
  · rw [← neg_neg (value r), ← neg_neg (value s), micros_neg, micros_neg (-value s), hr.micros_eq, hs.micros_eq, h]

theorem keyCount_eq_iff {a b : Float} (ha : a.isFinite = true) (hb : b.isFinite = true) :
    keyCount (roundKey a) = keyCount (roundKey b) ↔
      roundKey a = roundKey b ∨ SaturatedTogether a b ∨ Blurred (value (roundKey a)) (value (roundKey b)) ∨
        Blurred (-value (roundKey a)) (-value (roundKey b)) := by
  constructor
  · intro h
    rcases saturated_or_counted ha hb h with hsaturated | ⟨⟨ha', -⟩, ⟨hb', -⟩, hmicros⟩
    · exact .inr (.inl hsaturated)
    have hr : IsKeyValue (value (roundKey a)) := (value_roundKey ha ha').1 ▸ isKeyValue_keyValue _
    have hs : IsKeyValue (value (roundKey b)) := (value_roundKey hb hb').1 ▸ isKeyValue_keyValue _
    rcases (micros_eq_iff hr hs).1 hmicros with hvalue | hblurred
    · exact .inl (roundKey_eq_of_value_eq ha hb ha' hb' hvalue)
    · exact .inr (.inr hblurred)
  · rintro (h | h | h)
    · rw [h]
    · exact h.keyCount_eq ha hb
    · exact Blurred.keyCount_eq h

/-- Values that are one or more apart have the same count only by saturation. -/
theorem keyCount_eq_iff_of_apart {a b : Float} (ha : a.isFinite = true) (hb : b.isFinite = true)
    (hapart : 1 ≤ |value a - value b|) : keyCount (roundKey a) = keyCount (roundKey b) ↔ SaturatedTogether a b := by
  refine ⟨fun h => ?_, fun h => h.keyCount_eq ha hb⟩
  refine (saturated_or_counted ha hb h).resolve_right fun ⟨⟨ha', hbound⟩, ⟨hb', hbound'⟩, hmicros⟩ => ?_
  rw [(value_roundKey ha ha').1] at hbound hmicros
  rw [(value_roundKey hb hb').1] at hbound' hmicros
  have herror := abs_lt.1 (abs_micros_sub_lt hbound)
  have herror' := abs_lt.1 (abs_micros_sub_lt hbound')
  rw [hmicros] at herror
  rcases le_abs.1 hapart with hle | hle <;> linarith

/-! ## Lists of points -/

theorem key_eq_iff_keyCount {p q : Point Float} :
    p.key = q.key ↔ p.type = q.type ∧ keyCount (roundKey p.value) = keyCount (roundKey q.value) := by
  rw [Point.key, Point.key, pointKey_of, pointKey_of, PointKey.mk.injEq]

/-- Of the places with the key of one there is a first. -/
theorem exists_find?_key {places : List Place} {x : Place} (hx : x ∈ places) :
    ∃ y, places.find? (fun z => z.key = y.key) = some y ∧ y.key = x.key := by
  obtain ⟨y, hy⟩ := Option.isSome_iff_exists.1 (List.find?_isSome.2 ⟨x, hx, decide_eq_true rfl⟩ :
    (places.find? fun z => z.key = x.key).isSome)
  have hkey : y.key = x.key := by simpa using List.find?_some hy
  exact ⟨y, by rw [hkey, hy], hkey⟩

/-- Of every finite point a point with its key is gathered. -/
theorem exists_mem_gatherPoints {zeros poles : List (Point Float)} {p : Point Float} (hp : p ∈ zeros ++ poles)
    (hfinite : p.value.isFinite = true) : ∃ p' ∈ gatherPoints zeros poles, p'.key = p.key := by
  have hmem : p.place ∈ ((zeros ++ poles).filter fun p => Scalar.isFinite p.value).map Point.place :=
    List.mem_map_of_mem (List.mem_filter.2 ⟨hp, hfinite⟩)
  obtain ⟨x, hx, hkey⟩ := exists_find?_key hmem
  obtain ⟨p', hp', rfl⟩ := List.mem_map.1 (mem_places_gatherPoints.2 hx)
  exact ⟨p', hp', hkey⟩

theorem exists_mem_mergePoints {points extra : List (Point Float)} {p : Point Float} (hp : p ∈ points ++ extra) :
    ∃ p' ∈ mergePoints points extra, p'.key = p.key := by
  by_cases hknown : p.place.key ∈ (points.map Point.place).map Place.key
  · obtain ⟨x, hx, hkey⟩ := List.mem_map.1 hknown
    obtain ⟨p', hp', rfl⟩ := List.mem_map.1 (mem_places_mergePoints.2 (.inl hx))
    exact ⟨p', hp', hkey⟩
  · have hmem : p.place ∈ extra.map Point.place := by
      refine List.mem_map_of_mem ((List.mem_append.1 hp).resolve_left fun hp => hknown ?_)
      exact List.mem_map_of_mem (List.mem_map_of_mem hp)
    obtain ⟨x, hx, hkey⟩ := exists_find?_key hmem
    obtain ⟨p', hp', rfl⟩ := List.mem_map.1 (mem_places_mergePoints.2 (.inr ⟨hkey ▸ hknown, hx⟩))
    exact ⟨p', hp', hkey⟩

/-- Two different points of a list have the keys of two given ones. -/
def KeptApart (p q : Point Float) (points : List (Point Float)) : Prop :=
  ∃ p' ∈ points, ∃ q' ∈ points, p'.key = p.key ∧ q'.key = q.key ∧ p' ≠ q'

theorem keptApart_of_key_ne {p q : Point Float} {points : List (Point Float)} (hne : p.key ≠ q.key)
    (hp : ∃ p' ∈ points, p'.key = p.key) (hq : ∃ q' ∈ points, q'.key = q.key) : KeptApart p q points := by
  obtain ⟨p', hp', hpkey⟩ := hp
  obtain ⟨q', hq', hqkey⟩ := hq
  exact ⟨p', hp', q', hq', hpkey, hqkey, fun h => hne (by rw [← hpkey, h, hqkey])⟩

theorem not_keptApart_of_key_eq {p q : Point Float} {points : List (Point Float)} (h : p.key = q.key)
    (hkeys : (points.map Point.key).Nodup) : ¬ KeptApart p q points := by
  rintro ⟨p', hp', q', hq', hpkey, hqkey, hne⟩
  exact hne (List.inj_on_of_nodup_map hkeys hp' hq' (by rw [hpkey, h, hqkey]))

/-- **Keys.**  Two finite points have the same key exactly if they are of one type and their round keys are the same,
or both are saturated at one end, or are blurred.  If their values are one or more apart, only saturation is left;
unless they are saturated they are then kept apart, gathered or merged. -/
theorem pointKey_eq_iff {p q : Point Float} (hp : p.value.isFinite = true) (hq : q.value.isFinite = true) :
    (p.key = q.key ↔ p.type = q.type ∧
      (roundKey p.value = roundKey q.value ∨ SaturatedTogether p.value q.value ∨
        Blurred (value (roundKey p.value)) (value (roundKey q.value)) ∨
        Blurred (-value (roundKey p.value)) (-value (roundKey q.value)))) ∧
      (p.type = q.type → 1 ≤ |value p.value - value q.value| →
        (∀ zeros poles, p ∈ zeros ++ poles → q ∈ zeros ++ poles →
          (KeptApart p q (gatherPoints zeros poles) ↔ ¬ SaturatedTogether p.value q.value)) ∧
        ∀ points extra, p ∈ points ++ extra → q ∈ points ++ extra → ¬ SaturatedTogether p.value q.value →
          KeptApart p q (mergePoints points extra)) := by
  refine ⟨by rw [key_eq_iff_keyCount, keyCount_eq_iff hp hq], fun htype hapart => ?_⟩
  have hkey : p.key = q.key ↔ SaturatedTogether p.value q.value := by
    rw [key_eq_iff_keyCount, keyCount_eq_iff_of_apart hp hq hapart]
    exact and_iff_right htype
  refine ⟨fun zeros poles hpmem hqmem => ⟨fun hkept hsaturated => ?_, fun hsaturated => ?_⟩,
    fun points extra hpmem hqmem hsaturated => ?_⟩
  · exact not_keptApart_of_key_eq (hkey.2 hsaturated) (keys_gatherPoints_nodup zeros poles) hkept
  · exact keptApart_of_key_ne (mt hkey.1 hsaturated) (exists_mem_gatherPoints hpmem hp)
      (exists_mem_gatherPoints hqmem hq)
  · exact keptApart_of_key_ne (mt hkey.1 hsaturated) (exists_mem_mergePoints hpmem) (exists_mem_mergePoints hqmem)

/-! ### Zeros that are merged -/

/-- A simple zero. -/
def zeroAt (x : Float) : Point Float := ⟨.zero, x, 1, false⟩

theorem type_zeroAt (x : Float) : (zeroAt x).type = .zero := rfl

/-- **Two keys for four zeros.**  Two that are 10^13 apart have the same key and are merged into one, and so have two
round keys of the band that are a millionth apart. -/
theorem key_not_injective :
    (zeroAt 1e13).value.isFinite = true ∧ (zeroAt 2e13).value.isFinite = true ∧
      (1 : ℚ) ≤ |value (zeroAt 1e13).value - value (zeroAt 2e13).value| ∧
      roundKey (zeroAt 1e13).value ≠ roundKey (zeroAt 2e13).value ∧ (zeroAt 1e13).key = (zeroAt 2e13).key ∧
      (gatherPoints [zeroAt 1e13, zeroAt 2e13] []).length = 1 ∧ (mergePoints [zeroAt 1e13] [zeroAt 2e13]).length = 1 ∧
      (4300714690.896465 : Float).isFinite = true ∧ (4300714690.896466 : Float).isFinite = true ∧
      roundKey (4300714690.896465 : Float) ≠ roundKey 4300714690.896466 ∧
      (zeroAt 4300714690.896465).key = (zeroAt 4300714690.896466).key := by
  decide +kernel

/-- `pointKey_eq_iff` at two zeros that are one apart. -/
theorem pointKey_eq_iff_neighbours :
    (zeroAt 1.0).value.isFinite = true ∧ (zeroAt 2.0).value.isFinite = true ∧
      (1 : ℚ) ≤ |value (zeroAt 1.0).value - value (zeroAt 2.0).value| ∧
      KeptApart (zeroAt 1.0) (zeroAt 2.0) (gatherPoints [zeroAt 2.0, zeroAt 1.0] []) ∧
      KeptApart (zeroAt 1.0) (zeroAt 2.0) (mergePoints [zeroAt 1.0] [zeroAt 2.0]) := by
  have hapart : (1 : ℚ) ≤ |value (zeroAt 1.0).value - value (zeroAt 2.0).value| := by decide +kernel
  have hsaturated : ¬ SaturatedTogether (zeroAt 1.0).value (zeroAt 2.0).value := by
    unfold SaturatedTogether
    decide +kernel
  have hone : (zeroAt 1.0).value.isFinite = true := rfl
  have htwo : (zeroAt 2.0).value.isFinite = true := rfl
  obtain ⟨-, hkept⟩ := pointKey_eq_iff hone htwo
  obtain ⟨hgathered, hmerged⟩ := hkept ((type_zeroAt 1.0).trans (type_zeroAt 2.0).symm) hapart
  have hgather := (hgathered [zeroAt 2.0, zeroAt 1.0] [] (.tail _ (.head _)) (.head _)).2 hsaturated
  have hmerge := hmerged [zeroAt 1.0] [zeroAt 2.0] (.head _) (.tail _ (.head _)) hsaturated
  exact ⟨hone, htwo, hapart, hgather, hmerge⟩

end SignChart
