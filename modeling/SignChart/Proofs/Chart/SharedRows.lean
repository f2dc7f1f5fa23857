/-
  Rows that factors share.

  A row keeps of its factors the first value, the sum of the multiplicities and the product of the signs far to the
  right.  That is enough to tell the product of their signs on every interval, if they have one value:

  1. **Signs.**  Signs are a group of two elements, in which a power depends on the parity of the exponent
     (`Sign.power_add`).  On an interval a factor has the sign that it has far to the right, times the power of the
     side on which the sample lies (`Factor.signOn`).

  2. **Values.**  Equal values have the same side of every sample, also zeros of different signs (`sideOf_congr`).
     A value on the other side turns over the sign that the row shows, if its multiplicity is odd (`power_total`).

  3. **Groups.**  Every finite factor stands in one group (`factorGroups`), and every group has a row
     (`sharedRow_of_mem`).

  Factors with a text share a row only if they are written alike.  Those without share one if their values agree to six
  decimals, and the row can be wrong between the values (`linearRows_shared`, `unwritten_not_product`).
-/
import SignChart.Proofs.Chart.Multiplicity
import SignChart.Proofs.Number.Negation

namespace SignChart
open Float.Model

/-! ## Signs -/

instance : CommMonoid Sign where
  mul := Sign.times
  one := .plus
  mul_assoc s t u := by cases s <;> cases t <;> cases u <;> rfl
  mul_comm s t := by cases s <;> cases t <;> rfl
  one_mul s := by cases s <;> rfl
  mul_one s := by cases s <;> rfl

theorem Sign.mul_self (s : Sign) : s * s = 1 := by cases s <;> rfl

theorem Sign.power_of_even {n : Nat} (h : n % 2 = 0) (s : Sign) : s.power n = 1 := if_neg (by omega)

theorem Sign.power_of_odd {n : Nat} (h : n % 2 = 1) (s : Sign) : s.power n = s := if_pos h

theorem Sign.power_add (s : Sign) (m n : Nat) : s.power (m + n) = s.power m * s.power n := by
  rcases Nat.mod_two_eq_zero_or_one m with hm | hm <;> rcases Nat.mod_two_eq_zero_or_one n with hn | hn
  · rw [power_of_even hm, power_of_even hn, power_of_even (by omega), mul_one]
  · rw [power_of_even hm, power_of_odd hn, power_of_odd (by omega), one_mul]
  · rw [power_of_odd hm, power_of_even hn, power_of_odd (by omega), mul_one]
  · rw [power_of_odd hm, power_of_odd hn, power_of_even (by omega), mul_self]

section
variable {fs : List (Factor Float)} {f : Factor Float} {m : MergedFactor Float} {ps : List (Point Float)}
  {d : Domain Float} {v w : Float} {i : Float × Float}

/-- The side of a value on which the sample of an interval lies. -/
def sideOf (v : Float) (i : Float × Float) : Sign := .of (sampleBetween i.1 i.2 - v)

/-- The sign of a factor on an interval. -/
def Factor.signOn (f : Factor Float) (i : Float × Float) : Sign :=
  f.contribution * (sideOf f.value i).power f.multiplicity

theorem rowSegments_eq (bounds : List Float) (v : Float) (n : Nat) (s : Sign) :
    rowSegments bounds v n s = (intervals bounds).map fun i => s * (sideOf v i).power n := by
  refine List.map_congr_left fun i _ => ?_
  show (if n % 2 = 0 then s else s * sideOf v i) = _
  split
  · next h => rw [Sign.power_of_even h, mul_one]
  · next h => rw [Sign.power_of_odd (by omega)]

/-- The row that a finite factor has by itself. -/
theorem segments_alone (hf : Scalar.isFinite f.value = true) (ps : List (Point Float)) (d : Domain Float) :
    (linearRows [f] ps d).map Row.segments = [(intervals (boundaries ps d)).map f.signOn] := by
  have halone : mergeFactors [f] = [⟨f, f.multiplicity, f.contribution⟩] := by
    rw [mergeFactors, List.filter_cons, if_pos hf]
    rfl
  rw [linearRows, halone]
  exact congrArg (fun s => [s]) (rowSegments_eq _ f.value f.multiplicity f.contribution)

/-! ## Values -/

/-- A zero has one of two signs and no other digits. -/
theorem Float.unpack_eq_zero {x : Float} (hx : x.isFinite = true) (h : HasValue.value x = 0) :
    ∃ s, x.toModel.unpack = .zero s := by
  have hpackable := packable_unpack hx
  have hvalue : unpackedValue x.toModel.unpack = 0 := h
  cases hu : x.toModel.unpack with
  | notANumber | infinity _ => rw [hu] at hpackable; exact hpackable.elim
  | zero s => exact ⟨s, rfl⟩
  | finite s m e hm =>
    have habs : (0 : ℚ) < |unpackedValue x.toModel.unpack| := by
      rw [hu, unpackedValue, abs_apply_mul]
      positivity
    rw [hvalue, abs_zero] at habs
    exact absurd habs (lt_irrefl 0)

/-- **Equal values** lie on the same side of every number. -/
theorem Float.sign_sub_congr {x y : Float} (hx : x.isFinite = true) (hy : y.isFinite = true) (h : (x == y) = true)
    (t : Float) : Sign.of (t - x) = Sign.of (t - y) := by
  have hvalue := (Float.beq_iff hx hy).1 h
  by_cases hzero : HasValue.value x = 0
  · obtain ⟨a, ha⟩ := unpack_eq_zero hx hzero
    obtain ⟨b, hb⟩ := unpack_eq_zero hy (hvalue ▸ hzero)
    show Sign.of (Float.ofModel (.pack (UnpackedFloat.sub _ t.toModel.unpack x.toModel.unpack))) =
      Sign.of (Float.ofModel (.pack (UnpackedFloat.sub _ t.toModel.unpack y.toModel.unpack)))
    rw [ha, hb]
    -- a difference from zero depends on the sign of that zero only if both are zero
    cases t.toModel.unpack with
    | notANumber | infinity _ | finite _ _ _ _ => rfl
    | zero c => cases a <;> cases b <;> cases c <;> decide +kernel
  · rw [Float.eq_of_value_eq hx hy hvalue hzero]

theorem sideOf_congr (hv : Scalar.isFinite v = true) (hw : Scalar.isFinite w = true) (h : (v == w) = true)
    (i : Float × Float) : sideOf v i = sideOf w i :=
  Float.sign_sub_congr hv hw h _

/-- How many of some factors change their sign between a value and the sample of an interval. -/
def opposed (v : Float) (i : Float × Float) (fs : List (Factor Float)) : Nat :=
  fs.countP fun f => f.multiplicity % 2 = 1 ∧ sideOf f.value i ≠ sideOf v i

/-- **Values.**  The side of one value, for the multiplicities of all, is the product of the sides of all values,
turned over for each that is opposed. -/
theorem power_total (v : Float) (i : Float × Float) (fs : List (Factor Float)) :
    (sideOf v i).power (total fs) =
      (fs.map fun f => (sideOf f.value i).power f.multiplicity).prod * Sign.minus.power (opposed v i fs) := by
  have hone (s t : Sign) (n : Nat) :
      s.power n = t.power n * Sign.minus.power (if n % 2 = 1 ∧ t ≠ s then 1 else 0) := by
    rcases Nat.mod_two_eq_zero_or_one n with hn | hn
    · rw [Sign.power_of_even hn, Sign.power_of_even hn, if_neg (by omega)]
      rfl
    · rw [Sign.power_of_odd hn, Sign.power_of_odd hn]
      cases s <;> cases t <;> simp [hn] <;> rfl
  induction fs with
  | nil => rfl
  | cons f rest ih =>
    have htotal : total (f :: rest) = f.multiplicity + total rest := List.sum_cons
    have hopposed : opposed v i (f :: rest) =
        (if f.multiplicity % 2 = 1 ∧ sideOf f.value i ≠ sideOf v i then 1 else 0) + opposed v i rest := by
      rw [opposed, List.countP_cons, Nat.add_comm, opposed]
      simp only [decide_eq_true_eq]
    rw [htotal, hopposed, Sign.power_add, Sign.power_add, ih, hone (sideOf v i) (sideOf f.value i), List.map_cons,
      List.prod_cons]
    ac_rfl

/-- Values that are equal are not opposed. -/
theorem opposed_eq_zero (h : ∀ f ∈ fs, sideOf f.value i = sideOf v i) : opposed v i fs = 0 :=
  List.countP_eq_zero.2 fun f hf => by simp [h f hf]

/-- The sign of joined factors on an interval. -/
theorem sign_joined (f : Factor Float) (rest : List (Factor Float)) (i : Float × Float) :
    rest.foldl (fun s f => s * f.contribution) f.contribution * (sideOf f.value i).power (f.multiplicity + total rest) =
      ((f :: rest).map (·.signOn i)).prod * Sign.minus.power (opposed f.value i (f :: rest)) := by
  have hsign : ∀ s : Sign, rest.foldl (fun s f => s * f.contribution) s = s * (rest.map Factor.contribution).prod := by
    induction rest with
    | nil => exact fun s => (mul_one s).symm
    | cons g rest ih => intro s; rw [List.foldl_cons, ih, List.map_cons, List.prod_cons, mul_assoc]
  have hall : rest.foldl (fun s f => s * f.contribution) f.contribution = ((f :: rest).map Factor.contribution).prod :=
    (hsign _).trans List.prod_cons.symm
  have htotal : f.multiplicity + total rest = total (f :: rest) := List.sum_cons.symm
  have hproduct : ((f :: rest).map (·.signOn i)).prod = ((f :: rest).map Factor.contribution).prod *
      ((f :: rest).map fun f => (sideOf f.value i).power f.multiplicity).prod := List.prod_map_mul
  rw [hall, htotal, power_total, hproduct, mul_assoc]

/-! ## Groups -/

/-- Factors in groups that share a row, in the order of the first of each. -/
def factorGroups (fs : List (Factor Float)) : List (List (Factor Float)) :=
  (firstsBy Factor.rowKey [] fs).map fun f => fs.filter fun g => g.rowKey = f.rowKey

/-- What has one of some different keys, gathered by these. -/
theorem flatten_filter_perm {β κ : Type} [DecidableEq κ] (key : β → κ) (l : List β) {ks : List κ} (h : ks.Nodup) :
    (ks.map fun k => l.filter fun x => key x = k).flatten.Perm (l.filter fun x => key x ∈ ks) := by
  induction ks with
  | nil => simp
  | cons k ks ih =>
    obtain ⟨hk, hks⟩ := List.nodup_cons.1 h
    have hfirst : (l.filter fun x => key x ∈ k :: ks).filter (fun x => key x = k) = l.filter fun x => key x = k := by
      rw [List.filter_filter]
      refine List.filter_congr fun x _ => ?_
      by_cases hx : key x = k <;> simp [hx]
    have hrest : (l.filter fun x => key x ∈ k :: ks).filter (fun x => !decide (key x = k)) =
        l.filter fun x => key x ∈ ks := by
      rw [List.filter_filter]
      refine List.filter_congr fun x _ => ?_
      by_cases hx : key x = k
      · simp [hx, hk]
      · simp [hx]
    have hsplit := List.filter_append_perm (fun x => decide (key x = k)) (l.filter fun x => key x ∈ k :: ks)
    rw [hfirst, hrest] at hsplit
    rw [List.map_cons, List.flatten_cons]
    exact ((ih hks).append_left _).trans hsplit

/-- **Groups.**  Every factor is in one group. -/
theorem flatten_factorGroups_perm (fs : List (Factor Float)) : (factorGroups fs).flatten.Perm fs := by
  have hperm := flatten_filter_perm Factor.rowKey fs (firstsBy_nodup Factor.rowKey [] fs).1
  have hall : fs.filter (fun f => f.rowKey ∈ (firstsBy Factor.rowKey [] fs).map Factor.rowKey) = fs := by
    refine List.filter_eq_self.2 fun f hf => decide_eq_true ?_
    obtain ⟨g, hg⟩ : ∃ g, fs.find? (fun g => g.rowKey = f.rowKey) = some g :=
      Option.isSome_iff_exists.1 (List.find?_isSome.2 ⟨f, hf, by simp⟩)
    have hkey : g.rowKey = f.rowKey := by simpa using List.find?_some hg
    rw [← hkey] at hg ⊢
    exact List.mem_map_of_mem ((mem_firstsBy_iff Factor.rowKey).2 ⟨List.not_mem_nil, hg⟩)
  rw [hall, List.map_map] at hperm
  exact hperm

/-- A group begins with the first factor of its key. -/
theorem head?_factorGroups (fs : List (Factor Float)) :
    (factorGroups fs).map List.head? = (firstsBy Factor.rowKey [] fs).map some := by
  rw [factorGroups, List.map_map]
  refine List.map_congr_left fun f hf => ?_
  show (fs.filter fun g => g.rowKey = f.rowKey).head? = some f
  rw [List.head?_filter]
  exact ((mem_firstsBy_iff Factor.rowKey).1 hf).2

/-! ## Rows -/

/-- The factors that get rows. -/
def finitePart (fs : List (Factor Float)) : List (Factor Float) := fs.filter fun f => Scalar.isFinite f.value

theorem isFinite_of_mem_finitePart (hf : f ∈ finitePart fs) : Scalar.isFinite f.value = true := by
  simpa using (List.mem_filter.1 hf).2

theorem mergeFactors_finitePart (fs : List (Factor Float)) : mergeFactors (finitePart fs) = mergeFactors fs := by
  rw [mergeFactors, finitePart, List.filter_filter, mergeFactors]
  simp only [Bool.and_self]

/-- Factors of one type that have one text have one value.  (Zeros of both signs are one value.) -/
def ValuedWhereWritten (fs : List (Factor Float)) : Prop :=
  ∀ f ∈ fs, ∀ g ∈ fs, f.type = g.type → f.base = g.base → f.base ≠ [] → (f.value == g.value) = true

/-- The row that a group of factors shares, on some intervals. -/
structure SharedRow (is : List (Float × Float)) (group : List (Factor Float)) (r : Row Float) : Prop where
  place : group.head?.map (·.point.place) = some r.place
  multiplicity : r.multiplicity = total group
  /-- The row shows the product of the signs of the factors, turned over for each that is opposed. -/
  segments : r.segments = is.map fun i => (group.map (·.signOn i)).prod * Sign.minus.power (opposed r.value i group)
  /-- None is where the factors are written alike. -/
  written : (∃ f ∈ group, f.base ≠ []) → r.segments = is.map fun i => (group.map (·.signOn i)).prod

/-- Factors with a text share a row only if they are written alike. -/
theorem written_alike {f g : Factor Float} (h : g.rowKey = f.rowKey) (hg : g.base ≠ []) :
    g.type = f.type ∧ g.base = f.base := by
  unfold Factor.rowKey at h
  rw [if_neg hg] at h
  split at h
  · exact absurd h (by simp)
  · exact RowKey.expr.inj h

theorem sharedRow_of_mem (hfinite : ∀ f ∈ fs, Scalar.isFinite f.value = true) (hvalued : ValuedWhereWritten fs)
    (hm : m ∈ mergeFactors fs) (bounds : List Float) :
    SharedRow (intervals bounds) (fs.filter fun f => f.rowKey = m.factor.rowKey) (m.row bounds) := by
  obtain ⟨f, rest, hfs, hjoined⟩ := of_mem_mergeFactors hfinite hm
  have hfactor : m.factor = f := by rw [hjoined]
  have hsegments : (m.row bounds).segments = (intervals bounds).map fun i =>
      ((f :: rest).map (·.signOn i)).prod * Sign.minus.power (opposed f.value i (f :: rest)) := by
    rw [hjoined]
    exact (rowSegments_eq ..).trans (List.map_congr_left fun i _ => sign_joined f rest i)
  have hmem : ∀ g ∈ f :: rest, g ∈ fs ∧ g.rowKey = f.rowKey := by
    intro g hg
    rw [← hfs, hfactor] at hg
    simpa using hg
  rw [hfs]
  refine ⟨?_, ?_, ?_, ?_⟩
  · rw [hjoined]
    rfl
  · rw [hjoined]
    exact List.sum_cons.symm
  · rw [show (m.row bounds).value = f.value from congrArg Factor.value hfactor]
    exact hsegments
  · rintro ⟨g, hg, hbase⟩
    rw [hsegments]
    refine List.map_congr_left fun i _ => ?_
    -- what shares the row with a factor that has a text has the same text, hence one value with the first
    have hsides : ∀ h ∈ f :: rest, sideOf h.value i = sideOf f.value i := by
      intro h hh
      have hfbase : f.base ≠ [] := (written_alike (hmem g hg).2 hbase).2 ▸ hbase
      obtain ⟨htype, htext⟩ := written_alike (hmem h hh).2.symm hfbase
      obtain ⟨hf, -⟩ := hmem f List.mem_cons_self
      obtain ⟨hh, -⟩ := hmem h hh
      exact (sideOf_congr (hfinite f hf) (hfinite h hh) (hvalued f hf h hh htype htext hfbase) i).symm
    rw [opposed_eq_zero hsides, Sign.power_of_even rfl, mul_one]

/-- **Shared rows.**  Each group of finite factors has a row, in the order of the first factor of each group.  A row has
the multiplicities of its group together.  It shows the product of the signs that the factors show by themselves, if
these have a text; if not, each that is opposed to the first turns the row over. -/
theorem linearRows_shared (hvalued : ValuedWhereWritten (finitePart fs)) (ps : List (Point Float)) (d : Domain Float) :
    (∀ f ∈ finitePart fs, (linearRows [f] ps d).map Row.segments = [(intervals (boundaries ps d)).map f.signOn]) ∧
      List.Forall₂ (SharedRow (intervals (boundaries ps d))) (factorGroups (finitePart fs)) (linearRows fs ps d) ∧
      (factorGroups (finitePart fs)).flatten.Perm (finitePart fs) ∧
      (factorGroups (finitePart fs)).map List.head? = (firstsBy Factor.rowKey [] (finitePart fs)).map some := by
  refine ⟨fun f hf => segments_alone (isFinite_of_mem_finitePart hf) ps d, ?_, flatten_factorGroups_perm _,
    head?_factorGroups _⟩
  rw [factorGroups, finitePart, ← factors_mergeFactors, linearRows, List.map_map, List.forall₂_map_left_iff,
    List.forall₂_map_right_iff, List.forall₂_same]
  intro m hm
  rw [← mergeFactors_finitePart] at hm
  exact sharedRow_of_mem (fun f hf => isFinite_of_mem_finitePart hf) hvalued hm _

end

/-- Factors of which two are written alike. -/
def repeated : List (Factor Float) :=
  [⟨.zero, 2.0, 1, .minus, "2-x".toList⟩, ⟨.zero, -0.5, 3, .plus, "2*x+1".toList⟩,
    ⟨.zero, 2.0, 2, .minus, "2-x".toList⟩]

/-- `linearRows_shared` at factors of which two are written alike. -/
theorem linearRows_shared_repeated :
    ValuedWhereWritten (finitePart repeated) ∧
      ∃ r s, linearRows repeated [] .standard = [r, s] ∧ r.multiplicity = 3 ∧ s.multiplicity = 3 ∧
        r.segments = (intervals (boundaries [] .standard)).map fun i =>
          (([repeated[0], repeated[2]] : List (Factor Float)).map (·.signOn i)).prod := by
  have hvalued : ValuedWhereWritten (finitePart repeated) := by
    unfold ValuedWhereWritten
    decide +kernel
  have hgroups : factorGroups (finitePart repeated) = [[repeated[0], repeated[2]], [repeated[1]]] := rfl
  obtain ⟨-, hrows, -⟩ := linearRows_shared hvalued [] .standard
  rw [hgroups] at hrows
  obtain ⟨r, rest, hr, hrest, hlinear⟩ := List.forall₂_cons_left_iff.1 hrows
  obtain ⟨s, rest, hs, hnil, rfl⟩ := List.forall₂_cons_left_iff.1 hrest
  obtain rfl := List.forall₂_nil_left_iff.1 hnil
  exact ⟨hvalued, r, s, hlinear, hr.multiplicity, hs.multiplicity,
    hr.written ⟨repeated[0], List.mem_cons_self, by decide⟩⟩

/-! ### A product that is not shown

Two factors without a text are zero at 0 and a little above.  They have one key, and share a row that does not change
its sign. -/

/-- The two factors. -/
def unwritten : List (Factor Float) := [⟨.zero, 0.0, 1, .plus, []⟩, ⟨.zero, 4e-7, 1, .plus, []⟩]

/-- **A product that is not shown**: between the two zeros one factor is positive and one negative. -/
theorem unwritten_not_product :
    (∀ f ∈ unwritten, ∀ g ∈ unwritten, f.type = g.type → f.base = g.base → f.base ≠ [] → f.value = g.value) ∧
      unwritten.flatMap (fun f => (linearRows [f] [] ⟨0.0, 4e-7⟩).map Row.segments) = [[.plus], [.minus]] ∧
      (linearRows unwritten [] ⟨0.0, 4e-7⟩).map Row.segments = [[.plus]] ∧ Sign.plus * Sign.minus ≠ .plus := by
  decide +kernel

end SignChart
