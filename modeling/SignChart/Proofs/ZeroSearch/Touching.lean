/-
  Zeros that are touched, and what is left of them when points are merged.

  A scan gives an exact zero with one sign on both sides the multiplicity 2.  A zero that is found is a new one
  though, with no other of its key or close to it among the existing points and those found before.  So the
  greater multiplicity, which merging would take, is never seen by it: what is found is put beside what exists
  (`mergePoints_findZeros`), and a zero that is touched, but was known before, keeps what it had
  (`touching_kept_iff`).  At 1 the function `(x-1)*(x*x-1)` loses its second zero like this
  (`touching_lost`).

  1. **Scans.**  What a scan shows at a place comes after what it shows before (`candidates_eq`).

  2. **New zeros.**  Step by step: a candidate near what is known is left out, any other is a point and is
     known from there on (`newZeros_cons`).  By induction no two new zeros share a key, and none shares one with
     what was known (`newZeros_new`, `newZeros_pairwise`).

  3. **Merging.**  Points whose keys are new are put at the end (`foldl_addPoint_eq_append`).
-/
import SignChart.Proofs.Number.Magnitude
import SignChart.Proofs.Point.Merging
import SignChart.ZeroSearch

namespace SignChart

section Search
variable {α : Type} [Scalar α]

/-! ## Scans -/

/-- A scan of two runs of places is a scan of the first and then of the second, with what the first leaves as the
sample before. -/
theorem scan_append (f : α → α) (xs ys : List α) :
    ∀ prev, ∃ prev', scan f prev (xs ++ ys) = scan f prev xs ++ scan f prev' ys := by
  induction xs with
  | nil => exact fun prev => ⟨prev, rfl⟩
  | cons x rest ih =>
    intro prev
    by_cases hx : Scalar.isFinite (f x)
    · obtain ⟨prev', h⟩ := ih (some (x, f x))
      refine ⟨prev', ?_⟩
      rw [List.cons_append, scan, scan, if_pos hx, if_pos hx, h, List.append_assoc _ (scan ..)]
    · obtain ⟨prev', h⟩ := ih none
      exact ⟨prev', by rw [List.cons_append, scan, scan, if_neg hx, if_neg hx, h]⟩

/-- A grid is cut at each of its places. -/
theorem grid_eq (range : α) {i : Nat} (hi : i ≤ gridSteps) :
    grid range = (grid range).take i ++ gridPoint range i :: (grid range).drop (i + 1) := by
  have hlength : i < (grid range).length := by simp [grid]; omega
  conv_lhs => rw [← List.take_append_drop i (grid range), List.drop_eq_getElem_cons hlength]
  simp [grid]

/-- What the scans show before the one of `range` comes to its place `i`, where those of `before` were done. -/
def candidatesBefore (f : α → α) (before : List α) (range : α) (i : Nat) : List (Candidate α) :=
  candidates f before ++ scan f none ((grid range).take i)

/-- **Scans.**  An exact zero among the samples is shown, after what is shown before. -/
theorem candidates_eq (f : α → α) (before after : List α) (range : α) {i : Nat} (hi : i ≤ gridSteps)
    (hfinite : Scalar.isFinite (f (gridPoint range i)) = true) (hzero : (f (gridPoint range i) == 0.0) = true) :
    ∃ later, candidates f (before ++ range :: after) = candidatesBefore f before range i ++
      ⟨gridPoint range i, touchMultiplicity f (gridPoint range i)⟩ :: later := by
  obtain ⟨prev, hscan⟩ := scan_append f ((grid range).take i)
    (gridPoint range i :: (grid range).drop (i + 1)) none
  rw [← grid_eq range hi, scan, if_pos hfinite, atSample, if_pos hzero] at hscan
  refine ⟨betweenSamples f prev (gridPoint range i) (f (gridPoint range i)) ++
    (scan f (some (gridPoint range i, f (gridPoint range i))) ((grid range).drop (i + 1)) ++ candidates f after), ?_⟩
  rw [candidatesBefore, candidates, List.flatMap_append, List.flatMap_cons, hscan]
  simp only [candidates, List.append_assoc, List.cons_append, List.nil_append]

/-! ## New zeros -/

/-- The point is a zero of the same key as `v`, or close to it. -/
def Point.Near (p : Point α) (v : α) : Prop :=
  p.type = .zero ∧ (p.key = PointKey.of .zero v ∨ Scalar.abs (p.value - v) < (1e-5 : α))

theorem has_ofPoints {ps : List (Point α)} {v : α} :
    (KnownZeros.ofPoints ps).has v = true ↔ ∃ p ∈ ps, p.Near v := by
  simp [KnownZeros.has, KnownZeros.ofPoints, Point.Near]

/-- A candidate as a point. -/
def Candidate.point (c : Candidate α) : Point α := ⟨.zero, roundKey c.value, c.multiplicity, true⟩

open Classical in
/-- **Step.**  A candidate that is near a known zero is left out; another one is new, and known from there on. -/
theorem newZeros_cons (ps : List (Point α)) (c : Candidate α) (cs : List (Candidate α)) :
    newZeros (.ofPoints ps) (c :: cs) =
      if ∃ p ∈ ps, p.Near (roundKey c.value) then newZeros (.ofPoints ps) cs
      else c.point :: newZeros (.ofPoints (c.point :: ps)) cs := by
  have hcons : KnownZeros.ofPoints (c.point :: ps) =
      (PointKey.of .zero (roundKey c.value), roundKey c.value) :: KnownZeros.ofPoints ps := by
    simp [KnownZeros.ofPoints, Candidate.point, Point.key]
  rw [newZeros, hcons]
  by_cases h : ∃ p ∈ ps, p.Near (roundKey c.value)
  · rw [if_pos h, if_pos (has_ofPoints.2 h)]
  · rw [if_neg h, if_neg fun hhas => h (has_ofPoints.1 hhas)]
    rfl

/-- New zeros of two runs of candidates: those of the first, and those of the second that are new then. -/
theorem newZeros_append (cs ds : List (Candidate α)) :
    ∀ ps : List (Point α), newZeros (.ofPoints ps) (cs ++ ds) = newZeros (.ofPoints ps) cs ++
      newZeros (.ofPoints ((newZeros (.ofPoints ps) cs).reverse ++ ps)) ds := by
  induction cs with
  | nil => intro ps; rfl
  | cons c rest ih =>
    intro ps
    rw [List.cons_append, newZeros_cons, newZeros_cons]
    by_cases h : ∃ p ∈ ps, p.Near (roundKey c.value)
    · rw [if_pos h, if_pos h, ih]
    · rw [if_neg h, if_neg h, ih, List.cons_append, List.reverse_cons, List.append_assoc, List.singleton_append]

/-- New zeros are zeros, and none of the known ones is near them. -/
theorem newZeros_new (cs : List (Candidate α)) :
    ∀ ps : List (Point α), ∀ p ∈ newZeros (.ofPoints ps) cs, p.type = .zero ∧ ∀ q ∈ ps, ¬ q.Near p.value := by
  induction cs with
  | nil => exact fun ps p hp => absurd hp List.not_mem_nil
  | cons c rest ih =>
    intro ps p hp
    rw [newZeros_cons] at hp
    by_cases h : ∃ p ∈ ps, p.Near (roundKey c.value)
    · rw [if_pos h] at hp
      exact ih ps p hp
    · rw [if_neg h] at hp
      rcases List.mem_cons.1 hp with rfl | hp
      · exact ⟨rfl, fun q hq hnear => h ⟨q, hq, hnear⟩⟩
      · obtain ⟨htype, hfar⟩ := ih _ p hp
        exact ⟨htype, fun q hq => hfar q (List.mem_cons_of_mem _ hq)⟩

/-- No new zero is near one that was found before it. -/
theorem newZeros_pairwise (cs : List (Candidate α)) :
    ∀ ps : List (Point α), (newZeros (.ofPoints ps) cs).Pairwise fun q p => ¬ q.Near p.value := by
  induction cs with
  | nil => exact fun ps => List.Pairwise.nil
  | cons c rest ih =>
    intro ps
    rw [newZeros_cons]
    by_cases h : ∃ p ∈ ps, p.Near (roundKey c.value)
    · rw [if_pos h]
      exact ih ps
    · rw [if_neg h]
      exact (ih _).cons fun p hp => (newZeros_new rest _ p hp).2 _ List.mem_cons_self

/-! ## Merging -/

theorem addPoint_eq_append {combine : Nat → Nat → Nat} {p : Point α} {ps : List (Point α)}
    (h : ∀ q ∈ ps, q.key ≠ p.key) : addPoint combine p ps = ps ++ [p] := by
  induction ps with
  | nil => rfl
  | cons q rest ih =>
    rw [addPoint, if_neg (h q List.mem_cons_self), ih fun q hq => h q (List.mem_cons_of_mem _ hq), List.cons_append]

/-- Points whose keys are new are put at the end. -/
theorem foldl_addPoint_eq_append (combine : Nat → Nat → Nat) {extra : List (Point α)}
    (hdistinct : extra.Pairwise fun q p => q.key ≠ p.key) :
    ∀ {ps : List (Point α)}, (∀ q ∈ ps, ∀ p ∈ extra, q.key ≠ p.key) →
      extra.foldl (fun ps p => addPoint combine p ps) ps = ps ++ extra := by
  induction extra with
  | nil => exact fun _ => (List.append_nil _).symm
  | cons p rest ih =>
    intro ps hnew
    obtain ⟨hp, hrest⟩ := List.pairwise_cons.1 hdistinct
    rw [List.foldl_cons, addPoint_eq_append fun q hq => hnew q hq p List.mem_cons_self, ih hrest,
      List.append_assoc, List.singleton_append]
    intro q hq r hr
    rcases List.mem_append.1 hq with hq | hq
    · exact hnew q hq r (List.mem_cons_of_mem _ hr)
    · rw [List.mem_singleton.1 hq]
      exact hp r hr

/-- Zeros with one key are near each other. -/
theorem key_ne_of_not_near {q p : Point α} (hp : p.type = .zero) (h : ¬ q.Near p.value) : q.key ≠ p.key := by
  intro hkey
  have htype : q.type = .zero := (congrArg PointKey.type hkey).trans hp
  exact h ⟨htype, Or.inl (by rw [hkey, Point.key, hp])⟩

/-- **Merging.**  What a search finds is put beside the points that exist: no multiplicity is changed. -/
theorem mergePoints_findZeros (f : α → α) (existing : List (Point α)) :
    mergePoints existing (findZeros f existing) = sortPoints (existing ++ findZeros f existing) := by
  unfold findZeros
  split
  · rw [List.append_nil]
    rfl
  · have hnew := newZeros_new (candidates f (searchRanges existing)) existing
    rw [mergePoints, foldl_addPoint_eq_append]
    · exact (newZeros_pairwise _ existing).imp_of_mem fun _ hp h => key_ne_of_not_near (hnew _ hp).1 h
    · exact fun q hq p hp => key_ne_of_not_near (hnew p hp).1 ((hnew p hp).2 q hq)

theorem mem_mergePoints_findZeros {f : α → α} {existing : List (Point α)} {p : Point α} :
    p ∈ mergePoints existing (findZeros f existing) ↔ p ∈ existing ++ findZeros f existing := by
  rw [mergePoints_findZeros, sortPoints, List.mem_mergeSort]

end Search

/-! ## Zeros that are touched -/

section Touch
variable {f : Float → Float} {existing : List (Point Float)}

/-- The function is zero at a place, and has one sign on both sides of it. -/
structure Touches (f : Float → Float) (x : Float) : Prop where
  zero : (f x == 0.0) = true
  left_finite : Scalar.isFinite (f (x - touchOffset)) = true
  right_finite : Scalar.isFinite (f (x + touchOffset)) = true
  left_ne_zero : (f (x - touchOffset) == 0.0) = false
  right_ne_zero : (f (x + touchOffset) == 0.0) = false
  sign_eq : Sign.of (f (x - touchOffset)) = Sign.of (f (x + touchOffset))

theorem Touches.touchMultiplicity_eq {x : Float} (h : Touches f x) : touchMultiplicity f x = 2 := by
  unfold touchMultiplicity
  rw [if_pos]
  exact ⟨h.left_finite, h.right_finite, by rw [h.left_ne_zero]; rfl, by rw [h.right_ne_zero]; rfl, h.sign_eq⟩

/-- What is found before the scan of `range` comes to its place `i`, where those of `before` were done. -/
def foundBefore (f : Float → Float) (existing : List (Point Float)) (before : List Float) (range : Float) (i : Nat) :
    List (Point Float) :=
  newZeros (.ofPoints existing) (candidatesBefore f before range i)

/-- The search when it comes to a zero that is touched. -/
theorem findZeros_eq_append (hf : vanishes f = false) {before after : List Float} {range : Float}
    (hranges : searchRanges existing = before ++ range :: after) {i : Nat} (hi : i ≤ gridSteps)
    (htouches : Touches f (gridPoint range i)) :
    ∃ later, findZeros f existing = foundBefore f existing before range i ++
      newZeros (.ofPoints ((foundBefore f existing before range i).reverse ++ existing))
        (⟨gridPoint range i, 2⟩ :: later) := by
  obtain ⟨later, hcandidates⟩ := candidates_eq f before after range hi
    (Float.isFinite_of_beq_zero htouches.zero) htouches.zero
  refine ⟨later, ?_⟩
  rw [findZeros, hf, if_neg Bool.false_ne_true, hranges, hcandidates, newZeros_append, htouches.touchMultiplicity_eq]
  rfl

/-- A zero that is touched is found, unless one near it is known before. -/
theorem mem_findZeros_of_touches (hf : vanishes f = false) {before after : List Float} {range : Float}
    (hranges : searchRanges existing = before ++ range :: after) {i : Nat} (hi : i ≤ gridSteps)
    (htouches : Touches f (gridPoint range i))
    (hnew : ∀ p ∈ existing ++ foundBefore f existing before range i, ¬ p.Near (roundKey (gridPoint range i))) :
    ⟨.zero, roundKey (gridPoint range i), 2, true⟩ ∈ findZeros f existing := by
  obtain ⟨later, hfound⟩ := findZeros_eq_append hf hranges hi htouches
  have hfar : ¬ ∃ p ∈ (foundBefore f existing before range i).reverse ++ existing,
      p.Near (roundKey (gridPoint range i)) := by
    rintro ⟨p, hp, hnear⟩
    refine hnew p ?_ hnear
    rw [List.mem_append, List.mem_reverse] at hp
    exact List.mem_append.2 hp.symm
  rw [hfound, newZeros_cons, if_neg hfar]
  exact List.mem_append_right _ List.mem_cons_self

/-- Near a zero that exists in its place already, nothing is found. -/
theorem not_near_of_mem_findZeros {q p : Point Float} {v : Float} (hq : q ∈ existing) (htype : q.type = .zero)
    (hvalue : q.value = v) (hp : p ∈ findZeros f existing) : ¬ p.Near v := by
  unfold findZeros at hp
  split at hp
  · exact absurd hp List.not_mem_nil
  obtain ⟨hzero, hfar⟩ := newZeros_new _ existing p hp
  rintro ⟨-, hkey | hclose⟩
  · exact key_ne_of_not_near hzero (hfar q hq) (by rw [hkey, Point.key, htype, hvalue])
  · refine hfar q hq ⟨htype, Or.inr ?_⟩
    have hsymm : Scalar.abs (q.value - p.value) = Scalar.abs (p.value - v) :=
      hvalue ▸ Float.abs_sub_comm q.value p.value
    rw [hsymm]
    exact hclose

/-- There, what is known decides alone. -/
theorem kept_iff_of_known {q : Point Float} {v : Float} (hq : q ∈ existing) (htype : q.type = .zero)
    (hvalue : q.value = v) :
    (∃ p ∈ mergePoints existing (findZeros f existing), p.Near v ∧ 2 ≤ p.multiplicity) ↔
      ∃ p ∈ existing, p.Near v ∧ 2 ≤ p.multiplicity := by
  constructor
  · rintro ⟨p, hp, hnear, htwo⟩
    rcases List.mem_append.1 (mem_mergePoints_findZeros.1 hp) with hp | hp
    · exact ⟨p, hp, hnear, htwo⟩
    · exact absurd hnear (not_near_of_mem_findZeros hq htype hvalue hp)
  · rintro ⟨p, hp, hnear⟩
    exact ⟨p, mem_mergePoints_findZeros.2 (List.mem_append_left _ hp), hnear⟩

theorem vanishes_eq_false {i : Nat} (hi : i ≤ gridSteps) (hfinite : Scalar.isFinite (f (gridPoint 10.0 i)) = true)
    (hzero : (f (gridPoint 10.0 i) == 0.0) = false) : vanishes f = false := by
  have hmem : f (gridPoint 10.0 i) ∈ ((grid 10.0).map f).filter Scalar.isFinite :=
    List.mem_filter.2 ⟨List.mem_map_of_mem (List.mem_map_of_mem (List.mem_range.2 (by omega))), hfinite⟩
  have hall : (((grid 10.0).map f).filter Scalar.isFinite).all (· == (0.0 : Float)) = false :=
    List.all_eq_false.2 ⟨_, hmem, by rw [hzero]; exact Bool.false_ne_true⟩
  rw [vanishes, hall, Bool.and_false]

/-- **Touched zeros.**  Among the merged points there is a zero near one that is touched with a multiplicity of 2
or more exactly when no zero near it was known before the scan came to it, or one that was known has such a
multiplicity, or one that is found later has. -/
theorem touching_kept_iff (hf : vanishes f = false) {before after : List Float} {range : Float}
    (hranges : searchRanges existing = before ++ range :: after) {i : Nat} (hi : i ≤ gridSteps)
    (htouches : Touches f (gridPoint range i)) :
    (∃ p ∈ mergePoints existing (findZeros f existing),
        p.Near (roundKey (gridPoint range i)) ∧ 2 ≤ p.multiplicity) ↔
      (∀ p ∈ existing ++ foundBefore f existing before range i, ¬ p.Near (roundKey (gridPoint range i))) ∨
      (∃ p ∈ existing ++ foundBefore f existing before range i,
        p.Near (roundKey (gridPoint range i)) ∧ 2 ≤ p.multiplicity) ∨
      ∃ p ∈ findZeros f existing, p ∉ foundBefore f existing before range i ∧
        p.Near (roundKey (gridPoint range i)) ∧ 2 ≤ p.multiplicity := by
  simp only [mem_mergePoints_findZeros, List.mem_append]
  constructor
  · rintro ⟨p, hexists | hfound, hnear⟩
    · exact Or.inr (Or.inl ⟨p, Or.inl hexists, hnear⟩)
    by_cases hbefore : p ∈ foundBefore f existing before range i
    · exact Or.inr (Or.inl ⟨p, Or.inr hbefore, hnear⟩)
    · exact Or.inr (Or.inr ⟨p, hfound, hbefore, hnear⟩)
  · rintro (hnew | ⟨p, hexists | hbefore, hnear⟩ | ⟨p, hfound, -, hnear⟩)
    · have hfound := mem_findZeros_of_touches hf hranges hi htouches fun p hp => hnew p (List.mem_append.1 hp)
      exact ⟨_, Or.inr hfound, ⟨rfl, Or.inl rfl⟩, le_refl 2⟩
    · exact ⟨p, Or.inl hexists, hnear⟩
    · obtain ⟨later, hfound⟩ := findZeros_eq_append hf hranges hi htouches
      exact ⟨p, Or.inr (hfound ▸ List.mem_append_left _ hbefore), hnear⟩
    · exact ⟨p, Or.inr hfound, hnear⟩

/-! ### A multiplicity that is lost

The product `(x-1)*(x*x-1)` is zero twice at 1.  Its first factor shows one of these zeros, the scan sees that the
other factor makes the product touch zero there, and merging the two forgets it. -/

/-- The product. -/
def halfHidden (x : Float) : Float := (x - 1.0) * (x * x - 1.0)

/-- The zero that its first factor shows. -/
def shownZeros : List (Point Float) := [⟨.zero, 1.0, 1, false⟩]

theorem vanishes_halfHidden : vanishes halfHidden = false :=
  vanishes_eq_false (Nat.zero_le _) (by decide +kernel) (by decide +kernel)

theorem gridPoint_one : gridPoint (10.0 : Float) 330 = 1.0 := by decide +kernel

theorem roundKey_one : roundKey (1.0 : Float) = 1.0 := by decide +kernel

theorem touches_halfHidden : Touches halfHidden (gridPoint 10.0 330) := by
  rw [gridPoint_one]
  constructor <;> decide +kernel

/-- **A multiplicity that is lost**: the first scan sees at its place 330, which is 1, that the product touches
zero, and the merged points have no zero near 1 with a multiplicity of 2. -/
theorem touching_lost :
    vanishes halfHidden = false ∧ searchRanges shownZeros = 10.0 :: [25.0, 50.0] ∧ 330 ≤ gridSteps ∧
      Touches halfHidden (gridPoint 10.0 330) ∧
      ¬ ∃ p ∈ mergePoints shownZeros (findZeros halfHidden shownZeros),
        p.Near (roundKey (gridPoint 10.0 330)) ∧ 2 ≤ p.multiplicity := by
  refine ⟨vanishes_halfHidden, by decide +kernel, by decide, touches_halfHidden, ?_⟩
  have hknown : ⟨.zero, 1.0, 1, false⟩ ∈ shownZeros := List.mem_cons_self
  rw [gridPoint_one, roundKey_one, kept_iff_of_known hknown rfl rfl]
  rintro ⟨p, hp, -, htwo⟩
  rw [List.mem_singleton.1 hp] at htwo
  exact absurd htwo (by decide)

/-- `touching_kept_iff` at 1 for the product, with the zero of its first factor. -/
theorem touching_kept_iff_halfHidden :
    vanishes halfHidden = false ∧ searchRanges shownZeros = [] ++ 10.0 :: [25.0, 50.0] ∧ 330 ≤ gridSteps ∧
      Touches halfHidden (gridPoint 10.0 330) ∧
      ((∃ p ∈ mergePoints shownZeros (findZeros halfHidden shownZeros),
          p.Near (roundKey (gridPoint 10.0 330)) ∧ 2 ≤ p.multiplicity) ↔
        (∀ p ∈ shownZeros ++ foundBefore halfHidden shownZeros [] 10.0 330,
          ¬ p.Near (roundKey (gridPoint 10.0 330))) ∨
        (∃ p ∈ shownZeros ++ foundBefore halfHidden shownZeros [] 10.0 330,
          p.Near (roundKey (gridPoint 10.0 330)) ∧ 2 ≤ p.multiplicity) ∨
        ∃ p ∈ findZeros halfHidden shownZeros, p ∉ foundBefore halfHidden shownZeros [] 10.0 330 ∧
          p.Near (roundKey (gridPoint 10.0 330)) ∧ 2 ≤ p.multiplicity) := by
  have hranges : searchRanges shownZeros = [] ++ 10.0 :: [25.0, 50.0] := by decide +kernel
  exact ⟨vanishes_halfHidden, hranges, by decide, touches_halfHidden,
    touching_kept_iff vanishes_halfHidden hranges (by decide) touches_halfHidden⟩

end Touch
end SignChart
