/-
  How long the text of a number is.

  Numbers are written out in positions, so their texts can be long: the least positive number has over
  three hundred zeros behind the point.  But none comes near the widest field of a chart.

  1. **Digits.**  The grids that are searched lie between the places of the number's first digit and seventeen
     places behind it (`natAbs_decimalExponent_le`, `shortestFrom_spec`), so a point of a grid has no more digits
     than the exponents allow (`lt_of_nearest`).

  2. **Places.**  A decimal is as long as its digits and its scale (`length_decimal_le`).

  **`length_text_le`** puts in the bounds of the 64-bit format.  They are rough: each binary place is counted as
  a decimal one.
-/
import SignChart.Number.Shortest
import Mathlib.Data.Nat.Digits.Defs

namespace SignChart

section
variable {m n : Nat} {e : Int}

/-! ## Digits -/

/-- A number below a power of ten has no more digits than its exponent says. -/
theorem digitCount_le {k : Nat} (h : n < 10 ^ k) : digitCount n ≤ k := by
  unfold digitCount
  split
  · exact Nat.zero_le k
  · next hn =>
    have hk : 0 < k := Nat.pos_of_ne_zero fun h0 => hn (by simpa [h0] using h)
    exact Nat.toDigits_length 10 n k hk h

theorem two_pow_le_ten_pow (k : Nat) : 2 ^ k ≤ 10 ^ k := Nat.pow_le_pow_left (by decide) k

/-- A binary digit makes a number no longer than a decimal one does. -/
theorem shiftLeft_le (n k : Nat) : n <<< k ≤ n * 10 ^ k :=
  Nat.shiftLeft_eq n k ▸ Nat.mul_le_mul_left n (two_pow_le_ten_pow k)

/-- The first digit is no farther from the point than the exponent and the digits of the mantissa. -/
theorem natAbs_decimalExponent_le {k : Nat} (hm : m < 10 ^ k) (e : Int) :
    (decimalExponent m e).natAbs ≤ k + e.natAbs := by
  unfold decimalExponent
  split
  · next e =>
    have hlt : m <<< e < 10 ^ (k + e) := by
      rw [Nat.pow_add]
      exact (shiftLeft_le m e).trans_lt (Nat.mul_lt_mul_of_pos_right hm (Nat.pow_pos (by decide)))
    exact digitCount_le hlt
  · next e =>
    have hunit : 1 <<< (e + 1) ≤ 10 ^ (e + 1) := by simpa using shiftLeft_le 1 (e + 1)
    dsimp only
    split
    · have hle : digitCount (m / 1 <<< (e + 1)) ≤ k := digitCount_le ((Nat.div_le_self _ _).trans_lt hm)
      omega
    · have hlt : (1 <<< (e + 1) - 1) / m < 10 ^ (e + 1) := by
        have hpos : 0 < 1 <<< (e + 1) := by rw [Nat.one_shiftLeft]; exact Nat.two_pow_pos _
        have hdiv := Nat.div_le_self (1 <<< (e + 1) - 1) m
        omega
      have hle := digitCount_le hlt
      omega

/-- A point that is found on a grid is next to the number. -/
theorem le_of_nearest {g : OnGrid} {d : Nat} (h : g.nearest? = some d) : d ≤ g.value + 1 := by
  have hdiv : g.value / g.unit ≤ g.value := Nat.div_le_self _ _
  unfold OnGrid.nearest? at h
  dsimp only at h
  split at h
  · obtain rfl := Option.some.inj h
    split <;> omega
  · obtain rfl := Option.some.inj h
    omega
  · obtain rfl := Option.some.inj h
    omega
  · exact absurd h (by simp)

/-- The digits found on a grid are bounded by those of the number and the distance of the grid. -/
theorem lt_of_nearest {k : Nat} {scale : Int} {d : Nat} (hm : m < 10 ^ k)
    (h : ((Neighbourhood.ofDyadic m e).onGrid scale).nearest? = some d) :
    d < 10 ^ (k + 1 + (scale.natAbs + (e.natAbs + 2)) + 1) := by
  have hd := le_of_nearest h
  have hvalue : ((Neighbourhood.ofDyadic m e).onGrid scale).value ≤
      (4 * m) * 10 ^ (scale.natAbs + (e.natAbs + 2)) := by
    refine Nat.mul_le_mul_left (4 * m) ?_
    have hfactor : Nat.pow 10 (-scale).toNat <<< (e - 2).toNat ≤ 10 ^ (-scale).toNat * 10 ^ (e - 2).toNat :=
      shiftLeft_le _ _
    rw [← Nat.pow_add] at hfactor
    exact hfactor.trans (Nat.pow_le_pow_right (by decide) (by omega))
  have hmant : 4 * m + 1 ≤ 10 ^ (k + 1) := by omega
  have hpos : 0 < 10 ^ (scale.natAbs + (e.natAbs + 2)) := Nat.pow_pos (by decide)
  calc d ≤ 4 * m * 10 ^ (scale.natAbs + (e.natAbs + 2)) + 1 := hd.trans (Nat.succ_le_succ hvalue)
    _ ≤ (4 * m + 1) * 10 ^ (scale.natAbs + (e.natAbs + 2)) := by rw [Nat.add_mul]; omega
    _ ≤ 10 ^ (k + 1) * 10 ^ (scale.natAbs + (e.natAbs + 2)) := Nat.mul_le_mul_right _ hmant
    _ = 10 ^ (k + 1 + (scale.natAbs + (e.natAbs + 2))) := (Nat.pow_add 10 _ _).symm
    _ < 10 ^ (k + 1 + (scale.natAbs + (e.natAbs + 2)) + 1) := Nat.pow_lt_pow_right (by decide) (by omega)

/-- What is found is a point of one of the grids that are searched. -/
theorem shortestFrom_spec {v : Neighbourhood} {k : Int} {d : Decimal} : ∀ {fuel count : Nat},
    shortestFrom v k fuel count = some d →
    ∃ i, count ≤ i ∧ i < count + fuel ∧ d.scale = k - i ∧ (v.onGrid (k - i)).nearest? = some d.digits := by
  intro fuel
  induction fuel with
  | zero => exact fun h => absurd h (by simp [shortestFrom])
  | succ fuel ih =>
    intro count h
    rw [shortestFrom] at h
    split at h
    · next hhit =>
      obtain rfl := Option.some.inj h
      exact ⟨count, le_rfl, by omega, rfl, hhit⟩
    · obtain ⟨i, hle, hlt, hi⟩ := ih h
      exact ⟨i, by omega, by omega, hi⟩

/-! ## Places -/

/-- A decimal number has its digits, the zeros of its scale, a point and a zero in front of that. -/
theorem length_decimal_le (d : Decimal) :
    d.text.length ≤ (Nat.toDigits 10 d.digits).length + d.scale.natAbs + 2 := by
  unfold Decimal.text
  split
  · next zeros h =>
    have hscale : d.scale.natAbs = zeros := congrArg Int.natAbs h
    rw [List.length_append, List.length_replicate]
    omega
  · next n h =>
    have hscale : d.scale.natAbs = n + 1 := congrArg Int.natAbs h
    dsimp only
    split
    · rw [List.length_take, List.length_append, List.length_replicate]
      omega
    · rw [List.length_append, List.length_take, List.length_cons, List.length_reverse]
      refine le_trans (Nat.add_le_add_left (Nat.succ_le_succ (List.dropWhile_suffix _).length_le) _) ?_
      rw [List.length_reverse, List.length_drop, List.length_append, List.length_replicate]
      omega

/-- The shortest decimal of a binary number is no longer than its mantissa and its exponent allow. -/
theorem length_shortest_le {k : Nat} (hm : m < 10 ^ k) (e : Int) :
    (shortest m e).text.length ≤ 3 * k + 3 * e.natAbs + 50 := by
  unfold shortest
  cases hd : shortestFrom (.ofDyadic m e) (decimalExponent m e) 17 1 with
  | none =>
    have hzero : Decimal.text ⟨0, 0⟩ = ['0'] := rfl
    rw [Option.getD_none, hzero, List.length_singleton]
    omega
  | some d =>
    obtain ⟨i, hi, hi', hscale, hhit⟩ := shortestFrom_spec hd
    have hk := natAbs_decimalExponent_le hm e
    have hdigits := Nat.toDigits_length 10 d.digits _ (Nat.succ_pos _) (lt_of_nearest hm hhit)
    have hlength := length_decimal_le d
    rw [hscale] at hlength
    rw [Option.getD_some]
    omega

end

/-! ## Numbers -/

/-- The mantissa and the exponent of a number are those that 64 bits have room for. -/
theorem viewBits_bounds {bits m : Nat} {negative : Bool} {e : Int} (h : viewBits bits = .finite negative m e) :
    m < 2 ^ 53 ∧ e.natAbs ≤ 1074 := by
  have hfraction : bits % (1 <<< 52) < 2 ^ 52 := Nat.mod_lt _ (by decide)
  have hexponent : bits >>> 52 % 2048 < 2048 := Nat.mod_lt _ (by decide)
  have hone : 1 <<< 52 = 2 ^ 52 := by decide
  unfold viewBits at h
  dsimp only at h
  split at h
  · split at h <;> exact absurd h (by simp)
  · split at h
    · obtain ⟨-, rfl, rfl⟩ := FloatView.finite.inj h
      exact ⟨by omega, by decide⟩
    · obtain ⟨-, rfl, rfl⟩ := FloatView.finite.inj h
      exact ⟨by omega, by unfold minExponent; omega⟩

/-- The text of a number is far from too wide for a field. -/
theorem length_text_le (x : Float) : x.text.length ≤ 4000 := by
  have hsigned : ∀ (negative : Bool) {t : Text}, t.length ≤ 3999 →
      (if negative then '-' :: t else t : Text).length ≤ 4000 := by
    intro negative t ht
    cases negative with
    | false => exact Nat.le_succ_of_le ht
    | true => exact Nat.succ_le_succ ht
  unfold Float.text
  cases hview : x.view with
  | nan => decide
  | infinite negative => exact hsigned negative (by decide)
  | finite negative m e =>
    obtain ⟨hm, he⟩ := viewBits_bounds hview
    dsimp only
    split
    · contradiction
    · contradiction
    · exact hsigned _ (by decide)
    · next hview' =>
      obtain ⟨rfl, rfl, rfl⟩ := FloatView.finite.inj hview'
      have hlength := length_shortest_le (hm.trans (by decide : 2 ^ 53 < 10 ^ 16)) e
      exact hsigned negative (by omega)

end SignChart
