/-
  What gathering points conserves.

  The points of a factorization are put together from its zeros and poles, one after another.  Values that are not
  finite are passed over, the first entry of a key decides what its point is, and later ones add their
  multiplicities to it; at the end the points are sorted.  `Gathers` is what comes of it, and it holds of
  every factorization, however equal and nearly equal roots are mixed in it (`gathers_points`).

  1. **Keys.**  What a search for a key finds among the points are the entries of this key, joined one after another
     (`find?_gatherPoints`): the first of them with the sum of their multiplicities (`joined?_add`).

  2. **The whole.**  Adding an entry adds its multiplicity to the sum of all (`sum_addPoint` for one entry,
     `sum_gatherPoints` for all), so that none is lost.

  3. **Order.**  A sum does not depend on the order of what is added.  So the multiplicity of a key does not either
     (`mem_multiplicities_iff`), though the value of its point may.
-/
import SignChart.Factorization
import SignChart.Proofs.Point.Merging

namespace SignChart

/-! ## Points for keys -/

theorem foldl_add (ns : List Nat) : ∀ n, ns.foldl (· + ·) n = n + ns.sum := by
  induction ns with
  | nil => intro n; rfl
  | cons m rest ih => intro n; rw [List.foldl_cons, ih, List.sum_cons, Nat.add_assoc]

/-- What a search for a key finds among gathered points. -/
theorem find?_gatherPoints (zeros poles : List (Point Float)) (k : PointKey) :
    (gatherPoints zeros poles).find? (fun p => p.key = k) =
      joined? (· + ·) ((zeros ++ poles).filter fun p => Scalar.isFinite p.value) k := by
  have hperm := List.mergeSort_perm (((zeros ++ poles).filter fun p => Scalar.isFinite p.value).foldl
    (fun ps p => addPoint (· + ·) p ps) []) fun p q => inOrder p.type p.value q.type q.value
  have hnodup := (hperm.map Point.key).nodup_iff.1 (keys_gatherPoints_nodup zeros poles)
  rw [gatherPoints, sortPoints, find?_perm hperm hnodup]
  exact find?_foldl (find?_addPoint (· + ·)) k _ []

/-- The multiplicities of the points with a key together. -/
def multiplicityAt (ps : List (Point Float)) (k : PointKey) : Nat :=
  ((ps.filter fun p => p.key = k).map Point.multiplicity).sum

/-- Joined, the points of a key are the first of them with all their multiplicities. -/
theorem joined?_add {ps : List (Point Float)} {k : PointKey} {p : Point Float}
    (h : joined? (· + ·) ps k = some p) :
    ∃ q, ps.find? (fun q => q.key = k) = some q ∧ p = { q with multiplicity := multiplicityAt ps k } := by
  obtain ⟨q, rest, hfilter, rfl⟩ := joined?_eq_some h
  refine ⟨q, by rw [← List.head?_filter, hfilter]; rfl, ?_⟩
  rw [multiplicityAt, hfilter, foldl_add, List.map_cons, List.sum_cons]

/-! ## All points together -/

/-- **Step.**  An entry adds its multiplicity, whether there is a point of its key or not. -/
theorem sum_addPoint (p : Point Float) (ps : List (Point Float)) :
    ((addPoint (· + ·) p ps).map Point.multiplicity).sum = (ps.map Point.multiplicity).sum + p.multiplicity := by
  induction ps with
  | nil => simp [addPoint]
  | cons q rest ih =>
    rw [addPoint]
    split
    · simp only [List.map_cons, List.sum_cons]
      omega
    · simp only [List.map_cons, List.sum_cons, ih]
      omega

/-- **Run.**  So do all entries. -/
theorem sum_foldl_addPoint (added : List (Point Float)) :
    ∀ ps : List (Point Float), ((added.foldl (fun ps p => addPoint (· + ·) p ps) ps).map Point.multiplicity).sum =
      (ps.map Point.multiplicity).sum + (added.map Point.multiplicity).sum := by
  induction added with
  | nil => exact fun ps => (Nat.add_zero _).symm
  | cons p rest ih =>
    intro ps
    rw [List.foldl_cons, ih, sum_addPoint, List.map_cons, List.sum_cons, Nat.add_assoc]

theorem sum_gatherPoints (zeros poles : List (Point Float)) :
    ((gatherPoints zeros poles).map Point.multiplicity).sum =
      (((zeros ++ poles).filter fun p => Scalar.isFinite p.value).map Point.multiplicity).sum := by
  have hperm := List.mergeSort_perm (((zeros ++ poles).filter fun p => Scalar.isFinite p.value).foldl
    (fun ps p => addPoint (· + ·) p ps) []) fun p q => inOrder p.type p.value q.type q.value
  rw [gatherPoints, sortPoints, (hperm.map Point.multiplicity).sum_eq, sum_foldl_addPoint]
  exact Nat.zero_add _

/-! ## Gathered points -/

/-- The points put together what was given: they have one point for each key, which is the first that was given under
this key but for its multiplicity, the sum of those given under it; and they are in order. -/
structure Gathers (given points : List (Point Float)) : Prop where
  sorted : points.Pairwise fun p q =>
    p.value.rank < q.value.rank ∨ p.value = q.value ∧ (p.type = .zero ∨ q.type = .pole)
  keys : (points.map Point.key).Nodup
  covers : ∀ k, k ∈ points.map Point.key ↔ k ∈ given.map Point.key
  first : ∀ p ∈ points, ∃ q, given.find? (fun q => q.key = p.key) = some q ∧
    p = { q with multiplicity := multiplicityAt given p.key }
  conserved : (points.map Point.multiplicity).sum = (given.map Point.multiplicity).sum

/-- The zeros and poles of a factorization that have a finite value, zeros first. -/
def Factorization.entries (s : Factorization Float) : List (Point Float) :=
  (s.zeros ++ s.poles).filter fun p => Scalar.isFinite p.value

theorem sorted_gatherPoints (zeros poles : List (Point Float)) : (gatherPoints zeros poles).Pairwise fun p q =>
    p.value.rank < q.value.rank ∨ p.value = q.value ∧ (p.type = .zero ∨ q.type = .pole) := by
  have hsorted : (gatherPoints zeros poles).Pairwise fun p q => p.place.le q.place :=
    List.pairwise_map.1 (places_sortPoints_sorted _)
  refine hsorted.imp fun hle => ?_
  rcases Place.le_iff.1 hle with h | ⟨hrank, htype⟩
  · exact Or.inl h
  · exact Or.inr ⟨Float.rank_injective hrank, htype⟩

theorem Factorization.gathers (s : Factorization Float) : Gathers s.entries s.points := by
  have hkeys := keys_gatherPoints_nodup s.zeros s.poles
  have hfind := find?_gatherPoints s.zeros s.poles
  have hjoined : ∀ p ∈ s.points, joined? (· + ·) s.entries p.key = some p := fun p hp =>
    (hfind p.key).symm.trans (find?_key_of_nodup Point.key hkeys hp)
  exact {
    sorted := sorted_gatherPoints _ _
    keys := hkeys
    covers := mem_keys_iff_of_find? hkeys hfind
    first := fun p hp => joined?_add (hjoined p hp)
    conserved := sum_gatherPoints _ _ }

/-! ## The order of the entries -/

/-- The keys of points with their multiplicities. -/
def multiplicities (ps : List (Point Float)) : Set (PointKey × Nat) :=
  { x | ∃ p ∈ ps, p.key = x.1 ∧ p.multiplicity = x.2 }

/-- What was given decides which multiplicity a key has. -/
theorem Gathers.mem_multiplicities_iff {given points : List (Point Float)} (h : Gathers given points)
    {x : PointKey × Nat} :
    x ∈ multiplicities points ↔ x.1 ∈ given.map Point.key ∧ multiplicityAt given x.1 = x.2 := by
  have hmultiplicity : ∀ p ∈ points, p.multiplicity = multiplicityAt given p.key := fun p hp => by
    obtain ⟨q, -, hpq⟩ := h.first p hp
    exact congrArg Point.multiplicity hpq
  rw [← h.covers, List.mem_map]
  constructor
  · rintro ⟨p, hp, hkey, hm⟩
    exact ⟨⟨p, hp, hkey⟩, by rw [← hkey, ← hmultiplicity p hp, hm]⟩
  · rintro ⟨⟨p, hp, hkey⟩, hm⟩
    exact ⟨p, hp, hkey, by rw [hmultiplicity p hp, hkey, hm]⟩

/-- It does not matter in which order. -/
theorem multiplicityAt_perm {ps qs : List (Point Float)} (h : ps.Perm qs) (k : PointKey) :
    multiplicityAt ps k = multiplicityAt qs k :=
  ((h.filter _).map Point.multiplicity).sum_eq

/-- **Conservation.**  The points of a factorization gather its finite zeros and poles.  In another order of the zeros,
or of the poles, every key keeps its multiplicity. -/
theorem gathers_points (s : Factorization Float) : Gathers s.entries s.points ∧
    ∀ r : Factorization Float, r.zeros.Perm s.zeros → r.poles.Perm s.poles →
      multiplicities r.points = multiplicities s.points := by
  refine ⟨s.gathers, fun r hzeros hpoles => ?_⟩
  have hperm : r.entries.Perm s.entries := (hzeros.append hpoles).filter _
  ext x
  rw [r.gathers.mem_multiplicities_iff, s.gathers.mem_multiplicities_iff,
    (hperm.map Point.key).mem_iff, multiplicityAt_perm hperm]

/-- `gathers_points` at two zeros with one key, between others, that are given in another order. -/
theorem gathers_points_reversed :
    let zeros : List (Point Float) := [⟨.zero, 1.0, 1, false⟩, ⟨.zero, -2.0, 1, false⟩, ⟨.zero, 1.0000001, 3, true⟩]
    let poles : List (Point Float) := [⟨.pole, 1.0, 2, false⟩]
    let s : Factorization Float := { Factorization.empty with zeros, poles }
    let r : Factorization Float := { Factorization.empty with zeros := zeros.reverse, poles }
    r.zeros.Perm s.zeros ∧ r.poles.Perm s.poles ∧ Gathers s.entries s.points ∧
      multiplicities r.points = multiplicities s.points := by
  intro zeros poles s r
  have hzeros : r.zeros.Perm s.zeros := List.reverse_perm zeros
  have hpoles : r.poles.Perm s.poles := .refl poles
  exact ⟨hzeros, hpoles, (gathers_points s).1, (gathers_points s).2 r hzeros hpoles⟩

end SignChart
