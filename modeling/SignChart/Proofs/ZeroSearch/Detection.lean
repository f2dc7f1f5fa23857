/-
  What a search detects, and that it reports all of it once.

  A zero is detected at an exact sample, by a closer look at a small one, or by halving between two samples in a row that
  differ in sign (`Detected`).  This says nothing of scans, of samples that are not finite, or of what was seen before;
  the search is built of these, and it reports what is detected:

  1. **Scans.**  What a scan shows at a place depends on this place and the one before it alone (`scan_gridPoints`), so
     the candidates are the zeros that are detected, no more and no less (`mem_candidates_iff`).

  2. **Nothing is lost.**  A candidate is left out only beside a zero that is known, and any other is known from there
     on.  By induction each of them is represented in the end (`exists_near_of_mem`), and nothing else is reported
     (`findZeros_detects`).

  3. **Nothing comes twice.**  A zero that is near a known one is left out, so each that is reported has another key than
     all that were known before it, and is no closer to them than what counts as the same (`findZeros_apart`).
-/
import SignChart.Proofs.Number.Negation
import SignChart.Proofs.ZeroSearch.Stationary

namespace SignChart

section Scan
variable {α : Type} [Scalar α] (f : α → α)

/-! ## Scans, place by place -/

/-- The sample at a place, if it is finite. -/
def sample? (x : α) : Option (α × α) := if Scalar.isFinite (f x) then some (x, f x) else none

/-- What a scan shows at a place, where `prev` is the sample before it. -/
def shownAt (prev : Option (α × α)) (x : α) : List (Candidate α) :=
  if Scalar.isFinite (f x) then atSample f x (f x) ++ betweenSamples f prev x (f x) else []

theorem scan_cons (prev : Option (α × α)) (x : α) (rest : List α) :
    scan f prev (x :: rest) = shownAt f prev x ++ scan f (sample? f x) rest := by
  rw [scan, shownAt, sample?]
  by_cases hx : Scalar.isFinite (f x) = true
  · simp only [hx, if_true]
  · simp only [hx, Bool.false_eq_true, if_false, List.nil_append]

/-- The sample before the place `i` of a grid. There is none before the first place. -/
def sampleBefore (range : α) : Nat → Option (α × α)
  | 0 => none
  | i + 1 => sample? f (gridPoint range i)

/-- A scan from the place `k` on, where the sample before it is all that is left of the places before. -/
theorem scan_gridPoints (range : α) (n : Nat) :
    ∀ k, scan f (sampleBefore f range k) ((List.range' k n).map (gridPoint range)) =
      (List.range' k n).flatMap fun i => shownAt f (sampleBefore f range i) (gridPoint range i) := by
  induction n with
  | zero => exact fun k => rfl
  | succ n ih =>
    intro k
    rw [List.range'_succ, List.map_cons, List.flatMap_cons, scan_cons, ← ih (k + 1)]
    rfl

theorem mem_candidates {ranges : List α} {c : Candidate α} :
    c ∈ candidates f ranges ↔
      ∃ range ∈ ranges, ∃ i ≤ gridSteps, c ∈ shownAt f (sampleBefore f range i) (gridPoint range i) := by
  have hscan (range : α) : scan f none (grid range) =
      (List.range' 0 (gridSteps + 1)).flatMap fun i => shownAt f (sampleBefore f range i) (gridPoint range i) := by
    rw [grid, List.range_eq_range', ← scan_gridPoints]
    rfl
  simp only [candidates, hscan, List.mem_flatMap, List.mem_range'_1, Nat.zero_le, true_and, Nat.zero_add,
    Nat.lt_succ_iff]

/-! ## What a place shows -/

variable {f}

theorem mem_atSample {x y : α} {c : Candidate α} :
    c ∈ atSample f x y ↔ (y == (0.0 : α)) = true ∧ c = ⟨x, touchMultiplicity f x⟩ ∨
      (y == (0.0 : α)) = false ∧ Scalar.abs y < (nearZero : α) ∧ stationaryZero? f x y = some c := by
  unfold atSample
  by_cases hzero : (y == (0.0 : α)) = true
  · simp [hzero]
  · by_cases hnear : Scalar.abs y < (nearZero : α) <;> simp [hzero, hnear]

theorem mem_betweenSamples {px py x y : α} {c : Candidate α} :
    c ∈ betweenSamples f (some (px, py)) x y ↔ (py == (0.0 : α)) = false ∧ (y == (0.0 : α)) = false ∧
      Sign.of py ≠ Sign.of y ∧ ∃ r, bisect f px x = some r ∧ c = ⟨r, 1⟩ := by
  unfold betweenSamples
  cases hpy : py == (0.0 : α) with
  | true => simp [hpy]
  | false =>
    cases hy : y == (0.0 : α) with
    | true => simp
    | false =>
      by_cases hsigns : Sign.of py = Sign.of y
      · simp [hsigns]
      · simp [hpy, hsigns, eq_comm (a := c)]

/-- The sample before a place is a finite one at the place before. -/
theorem mem_betweenSamples_sampleBefore {range : α} {i : Nat} {x y : α} {c : Candidate α} :
    c ∈ betweenSamples f (sampleBefore f range i) x y ↔ ∃ j, i = j + 1 ∧
      Scalar.isFinite (f (gridPoint range j)) = true ∧
      c ∈ betweenSamples f (some (gridPoint range j, f (gridPoint range j))) x y := by
  cases i with
  | zero => simp [sampleBefore, betweenSamples]
  | succ i =>
    by_cases hfinite : Scalar.isFinite (f (gridPoint range i)) = true
    · simp [sampleBefore, sample?, hfinite]
    · simp [sampleBefore, sample?, hfinite, betweenSamples]

end Scan

variable {f : Float → Float} {existing : List (Point Float)}

/-! ## What is detected -/

/-- The zeros that the samples on the grids of some ranges make known. -/
inductive Detected (f : Float → Float) (ranges : List Float) : Candidate Float → Prop
  /-- A sample is zero. -/
  | exact {range : Float} {i : Nat} (hrange : range ∈ ranges) (hi : i ≤ gridSteps)
      (hzero : (f (gridPoint range i) == 0.0) = true) :
      Detected f ranges ⟨gridPoint range i, touchMultiplicity f (gridPoint range i)⟩
  /-- A sample is not zero, but small, and a closer look finds a zero. -/
  | stationary {range : Float} {i : Nat} {c : Candidate Float} (hrange : range ∈ ranges) (hi : i ≤ gridSteps)
      (hpos : 0.0 < Scalar.abs (f (gridPoint range i))) (hnear : Scalar.abs (f (gridPoint range i)) < nearZero)
      (hfound : stationaryZero? f (gridPoint range i) (f (gridPoint range i)) = some c) : Detected f ranges c
  /-- Two samples in a row are finite, not zero and of opposite signs, and halving finds a zero between them. -/
  | crossing {range : Float} {i : Nat} {r : Float} (hrange : range ∈ ranges) (hi : i < gridSteps)
      (hleft : Scalar.isFinite (f (gridPoint range i)) = true) (hleftZero : (f (gridPoint range i) == 0.0) = false)
      (hright : Scalar.isFinite (f (gridPoint range (i + 1))) = true)
      (hrightZero : (f (gridPoint range (i + 1)) == 0.0) = false)
      (hsigns : Sign.of (f (gridPoint range i)) ≠ Sign.of (f (gridPoint range (i + 1))))
      (hroot : bisect f (gridPoint range i) (gridPoint range (i + 1)) = some r) : Detected f ranges ⟨r, 1⟩

/-- What a finite sample of a grid shows is detected. -/
theorem Detected.of_shownAt {ranges : List Float} {range : Float} {i : Nat} {c : Candidate Float}
    (hrange : range ∈ ranges) (hi : i ≤ gridSteps) (hc : c ∈ shownAt f (sampleBefore f range i) (gridPoint range i)) :
    Detected f ranges c := by
  unfold shownAt at hc
  split at hc
  · next hfinite =>
    rcases List.mem_append.1 hc with hc | hc
    · rcases mem_atSample.1 hc with ⟨hzero, rfl⟩ | ⟨hzero, hnear, hfound⟩
      · exact .exact hrange hi hzero
      · exact .stationary hrange hi ((Float.zero_lt_abs_iff hfinite).2 hzero) hnear hfound
    · obtain ⟨j, rfl, hleft, hc⟩ := mem_betweenSamples_sampleBefore.1 hc
      obtain ⟨hleftZero, hrightZero, hsigns, r, hroot, rfl⟩ := mem_betweenSamples.1 hc
      exact .crossing hrange (Nat.lt_of_succ_le hi) hleft hleftZero hfinite hrightZero hsigns hroot
  · exact absurd hc List.not_mem_nil

/-- **Scans.**  The candidates of a search are the zeros that are detected. -/
theorem mem_candidates_iff {ranges : List Float} {c : Candidate Float} :
    c ∈ candidates f ranges ↔ Detected f ranges c := by
  rw [mem_candidates]
  constructor
  · rintro ⟨range, hrange, i, hi, hc⟩
    exact .of_shownAt hrange hi hc
  · intro hdetected
    cases hdetected with
    | @exact range i hrange hi hzero =>
      have hfinite : Scalar.isFinite (f (gridPoint range i)) = true := Float.isFinite_of_beq_zero hzero
      refine ⟨range, hrange, i, hi, ?_⟩
      rw [shownAt, if_pos hfinite]
      exact List.mem_append_left _ (mem_atSample.2 (Or.inl ⟨hzero, rfl⟩))
    | @stationary range i c hrange hi hpos hnear hfound =>
      have hfinite : Scalar.isFinite (f (gridPoint range i)) = true := Float.isFinite_of_abs_lt (by decide) hnear
      refine ⟨range, hrange, i, hi, ?_⟩
      rw [shownAt, if_pos hfinite]
      have hzero := (Float.zero_lt_abs_iff hfinite).1 hpos
      exact List.mem_append_left _ (mem_atSample.2 (Or.inr ⟨hzero, hnear, hfound⟩))
    | @crossing range i r hrange hi hleft hleftZero hright hrightZero hsigns hroot =>
      refine ⟨range, hrange, i + 1, hi, ?_⟩
      rw [shownAt, if_pos hright]
      refine List.mem_append_right _ (mem_betweenSamples_sampleBefore.2 ⟨i, rfl, hleft, ?_⟩)
      exact mem_betweenSamples.2 ⟨hleftZero, hrightZero, hsigns, r, hroot, rfl⟩

/-- A zero that is detected has the multiplicity 1 or 2. -/
theorem Detected.multiplicity {ranges : List Float} {c : Candidate Float} (h : Detected f ranges c) :
    c.multiplicity = 1 ∨ c.multiplicity = 2 := by
  cases h with
  | exact =>
    simp only [touchMultiplicity]
    split
    · exact Or.inr rfl
    · exact Or.inl rfl
  | stationary _ _ _ _ hfound => exact multiplicity_of_stationaryZero? hfound
  | crossing => exact Or.inl rfl

/-! ## Nothing is lost -/

/-- A candidate is near its own point. -/
theorem Candidate.near_point (c : Candidate Float) : c.point.Near (roundKey c.value) := ⟨rfl, Or.inl rfl⟩

/-- **Run.**  Each candidate is near a zero that was known before or is new. -/
theorem exists_near_of_mem (cs : List (Candidate Float)) :
    ∀ ps : List (Point Float), ∀ c ∈ cs, ∃ p ∈ ps ++ newZeros (.ofPoints ps) cs, p.Near (roundKey c.value) := by
  induction cs with
  | nil => exact fun _ c hc => absurd hc List.not_mem_nil
  | cons d rest ih =>
    intro ps c hc
    rw [newZeros_cons]
    by_cases hknown : ∃ p ∈ ps, p.Near (roundKey d.value)
    · rw [if_pos hknown]
      rcases List.mem_cons.1 hc with rfl | hc
      · obtain ⟨p, hp, hnear⟩ := hknown
        exact ⟨p, List.mem_append_left _ hp, hnear⟩
      · exact ih ps c hc
    · rw [if_neg hknown]
      rcases List.mem_cons.1 hc with rfl | hc
      · exact ⟨c.point, List.mem_append_right _ List.mem_cons_self, c.near_point⟩
      · obtain ⟨p, hp, hnear⟩ := ih (d.point :: ps) c hc
        refine ⟨p, ?_, hnear⟩
        rw [List.cons_append, List.mem_cons, List.mem_append] at hp
        rw [List.mem_append, List.mem_cons]
        tauto

/-- A new zero is the point of a candidate. -/
theorem exists_candidate_of_mem (cs : List (Candidate Float)) :
    ∀ ps : List (Point Float), ∀ p ∈ newZeros (.ofPoints ps) cs, ∃ c ∈ cs, p = c.point := by
  induction cs with
  | nil => exact fun _ p hp => absurd hp List.not_mem_nil
  | cons d rest ih =>
    intro ps p hp
    rw [newZeros_cons] at hp
    split at hp
    · obtain ⟨c, hc, heq⟩ := ih ps p hp
      exact ⟨c, List.mem_cons_of_mem _ hc, heq⟩
    · rcases List.mem_cons.1 hp with rfl | hp
      · exact ⟨d, List.mem_cons_self, rfl⟩
      · obtain ⟨c, hc, heq⟩ := ih _ p hp
        exact ⟨c, List.mem_cons_of_mem _ hc, heq⟩

theorem findZeros_eq (f : Float → Float) (existing : List (Point Float)) :
    findZeros f existing =
      newZeros (.ofPoints existing) (if vanishes f then [] else candidates f (searchRanges existing)) := by
  unfold findZeros
  split <;> rfl

theorem detected_of_mem_findZeros {p : Point Float} (hp : p ∈ findZeros f existing) :
    ∃ c, Detected f (searchRanges existing) c ∧ p = c.point := by
  rw [findZeros_eq] at hp
  obtain ⟨c, hc, heq⟩ := exists_candidate_of_mem _ _ p hp
  split at hc
  · exact absurd hc List.not_mem_nil
  · exact ⟨c, mem_candidates_iff.1 hc, heq⟩

/-- **Nothing is lost.**  Each zero that is detected is near one that exists or is reported, and each zero that is reported
is one that is detected, rounded. -/
theorem findZeros_detects (hf : vanishes f = false) (existing : List (Point Float)) :
    (∀ c, Detected f (searchRanges existing) c →
        ∃ p ∈ existing ++ findZeros f existing, p.Near (roundKey c.value)) ∧
      ∀ p ∈ findZeros f existing, ∃ c, Detected f (searchRanges existing) c ∧ p = c.point := by
  refine ⟨fun c hc => ?_, fun p hp => detected_of_mem_findZeros hp⟩
  rw [findZeros, hf, if_neg Bool.false_ne_true]
  exact exists_near_of_mem _ existing c (mem_candidates_iff.2 hc)

theorem mem_searchRanges {range : Float} (h : range ∈ baseRanges) (existing : List (Point Float)) :
    range ∈ searchRanges existing := by
  unfold searchRanges
  dsimp only
  split
  · exact List.mem_append_left _ h
  · exact h

/-- The sample at 1 makes the zero of `doubleZero` known. -/
theorem detected_probedZero : Detected doubleZero (searchRanges []) probedZero := by
  have hrange : (10.0 : Float) ∈ searchRanges [] := mem_searchRanges List.mem_cons_self []
  refine .stationary hrange (i := 330) (by decide) ?_ ?_ ?_
  all_goals rw [gridPoint_one]
  · decide +kernel
  · decide +kernel
  · exact found_doubleZero

/-- `findZeros_detects` for `doubleZero`: the search reports its zero. -/
theorem findZeros_detects_doubleZero :
    vanishes doubleZero = false ∧ Detected doubleZero (searchRanges []) probedZero ∧
      (∃ p ∈ [] ++ findZeros doubleZero [], p.Near (roundKey probedZero.value)) ∧
      ∀ p ∈ findZeros doubleZero [], ∃ c, Detected doubleZero (searchRanges []) c ∧ p = c.point := by
  have hf : vanishes doubleZero = false := vanishes_eq_false (Nat.zero_le _) (by decide +kernel) (by decide +kernel)
  obtain ⟨hlost, hreported⟩ := findZeros_detects hf []
  exact ⟨hf, detected_probedZero, hlost probedZero detected_probedZero, hreported⟩

/-! ## Nothing comes twice -/

/-- The two points are told apart: they have different keys, and are no closer than what counts as the same. -/
def Point.Apart (q p : Point Float) : Prop := q.key ≠ p.key ∧ ¬ Scalar.abs (q.value - p.value) < (1e-5 : Float)

theorem Point.apart_of_not_near {q p : Point Float} (hq : q.type = .zero) (hp : p.type = .zero)
    (hfar : ¬ q.Near p.value) : q.Apart p :=
  ⟨key_ne_of_not_near hp hfar, fun hclose => hfar ⟨hq, Or.inr hclose⟩⟩

/-- **Nothing comes twice.**  What is reported are zeros that a search found, of multiplicity 1 or 2 and with a rounded
value, and each of them is apart from every zero that exists, and from every one that was reported before it. -/
theorem findZeros_apart (f : Float → Float) (existing : List (Point Float)) :
    (∀ p ∈ findZeros f existing, p.type = .zero ∧ p.numeric = true ∧ (p.multiplicity = 1 ∨ p.multiplicity = 2) ∧
        ∃ v, p.value = roundKey v) ∧
      (∀ q ∈ existing, q.type = .zero → ∀ p ∈ findZeros f existing, q.Apart p) ∧
      (findZeros f existing).Pairwise Point.Apart := by
  have hfound : ∀ p ∈ findZeros f existing, p.type = .zero ∧ p.numeric = true ∧
      (p.multiplicity = 1 ∨ p.multiplicity = 2) ∧ ∃ v, p.value = roundKey v := by
    intro p hp
    obtain ⟨c, hc, rfl⟩ := detected_of_mem_findZeros hp
    exact ⟨rfl, rfl, hc.multiplicity, c.value, rfl⟩
  refine ⟨hfound, fun q hq htype p hp => ?_, ?_⟩
  · refine Point.apart_of_not_near htype (hfound p hp).1 ?_
    rw [findZeros_eq] at hp
    exact (newZeros_new _ existing p hp).2 q hq
  · have hpairwise : (findZeros f existing).Pairwise fun q p => ¬ q.Near p.value := by
      rw [findZeros_eq]
      exact newZeros_pairwise _ existing
    exact hpairwise.imp_of_mem fun hq hp hfar => Point.apart_of_not_near (hfound _ hq).1 (hfound _ hp).1 hfar

end SignChart
