/-
  The multiplicities of rows and of points.

  Points are gathered by their keys, rows by the texts of factors, and then only the first row of each key is kept.
  So the row of a key counts the factors that are written like the first one, and its point counts all of
  them: a row has the multiplicity of its point exactly when no factor of its key is written differently
  (`multiplicity_eq_iff`).  In a product like `(x-2)*(2*x-4)*x` one is (`multiplicity_lost`).

  1. **Points.**  The point of a key sums up the factors with this key (`multiplicity_factorPoints`).

  2. **Rows.**  The row of a text sums up the factors with this text (`multiplicity_mergeFactors`).  A row of a chart is
     that of the first factor with its key, if factors written alike have one value (`exists_first`).

  3. **Both.**  What the point counts and the row does not is what the factors written differently have
     (`multiplicity_add_lost`).
-/
import SignChart.Proofs.Chart.Shape
import SignChart.Proofs.Point.Gathering

namespace SignChart

/-! ## Sums -/

/-- The multiplicities of some factors together. -/
def total (fs : List (Factor Float)) : Nat := (fs.map Factor.multiplicity).sum

theorem total_filter_add (p : Factor Float → Prop) [DecidablePred p] (fs : List (Factor Float)) :
    total (fs.filter fun f => p f) + total (fs.filter fun f => ¬ p f) = total fs := by
  have h := List.sum_map_ite p Factor.multiplicity Factor.multiplicity fs
  simp only [ite_self] at h
  exact h.symm

theorem total_eq_zero_iff {fs : List (Factor Float)} : total fs = 0 ↔ ∀ f ∈ fs, f.multiplicity = 0 := by
  rw [total, List.sum_eq_zero_iff]
  simp

/-! ## Points of factors -/

/-- The factors with a key. -/
def factorsAt (k : PointKey) (fs : List (Factor Float)) : List (Factor Float) := fs.filter fun f => f.point.key = k

/-- The points of factors: zeros and poles gathered. -/
def factorPoints (fs : List (Factor Float)) : List (Point Float) :=
  gatherPoints (pointsOf .zero fs) (pointsOf .pole fs)

/-- The points of a key are among those of its type. -/
theorem filter_key_pointsOf (k : PointKey) (type : PointType) (fs : List (Factor Float)) :
    (pointsOf type fs).filter (fun p => p.key = k) =
      if type = k.type then (factorsAt k fs).map Factor.point else [] := by
  induction fs with
  | nil => simp [pointsOf, factorsAt]
  | cons f rest ih =>
    have hcons : pointsOf type (f :: rest) = pointsOf type [f] ++ pointsOf type rest :=
      pointsOf_append type [f] rest
    rw [hcons, List.filter_append, ih, factorsAt, factorsAt, List.filter_cons]
    by_cases hk : f.point.key = k
    · have htype : f.type = k.type := by rw [← hk]; rfl
      by_cases ht : type = k.type
      · simp [pointsOf, htype, ht, hk]
      · simp [pointsOf, htype, ht, Ne.symm ht]
    · by_cases ht : f.type = type <;> simp [pointsOf, ht, hk]

/-- All points of the factors with a key have it. -/
theorem filter_key_factorsAt (k : PointKey) (fs : List (Factor Float)) :
    ((factorsAt k fs).map Factor.point).filter (fun p => p.key = k) = (factorsAt k fs).map Factor.point := by
  rw [List.filter_eq_self]
  intro p hp
  obtain ⟨f, hf, rfl⟩ := List.mem_map.1 hp
  exact (List.mem_filter.1 hf).2

/-- The points of finite factors are joined from all of them. -/
theorem find?_factorPoints {fs : List (Factor Float)} (hfinite : ∀ f ∈ fs, Scalar.isFinite f.value = true)
    (k : PointKey) :
    (factorPoints fs).find? (fun p => p.key = k) = joined? (· + ·) ((factorsAt k fs).map Factor.point) k := by
  have hall : (pointsOf .zero fs ++ pointsOf .pole fs).filter (fun p => Scalar.isFinite p.value) =
      pointsOf .zero fs ++ pointsOf .pole fs := by
    rw [List.filter_eq_self]
    intro p hp
    rcases List.mem_append.1 hp with hp | hp <;>
      · obtain ⟨f, hf, rfl⟩ := List.mem_map.1 hp
        exact hfinite f (List.mem_filter.1 hf).1
  rw [factorPoints, find?_gatherPoints, hall, joined?, joined?, List.filter_append, filter_key_pointsOf,
    filter_key_pointsOf, filter_key_factorsAt]
  cases k.type <;> simp

/-- **Points.**  A point has the multiplicities of all factors with its key, and there is one for every factor. -/
theorem multiplicity_factorPoints {fs : List (Factor Float)} (hfinite : ∀ f ∈ fs, Scalar.isFinite f.value = true)
    {f : Factor Float} (hf : f ∈ fs) :
    ∃ p, (factorPoints fs).find? (fun p => p.key = f.point.key) = some p ∧
      p.multiplicity = total (factorsAt f.point.key fs) := by
  have hmem : f.point ∈ (factorsAt f.point.key fs).map Factor.point :=
    List.mem_map_of_mem (List.mem_filter.2 ⟨hf, by simp⟩)
  obtain ⟨p, hp⟩ := Option.ne_none_iff_exists'.1 (joined?_ne_none (· + ·) hmem)
  refine ⟨p, (find?_factorPoints hfinite _).trans hp, ?_⟩
  obtain ⟨q, -, rfl⟩ := joined?_add hp
  show multiplicityAt ((factorsAt f.point.key fs).map Factor.point) f.point.key = _
  rw [multiplicityAt, filter_key_factorsAt, List.map_map]
  rfl

/-! ## Rows of factors -/

/-- A factor joined to those that share its row, if there are any. -/
def MergedFactor.join : Option (MergedFactor Float) → Factor Float → MergedFactor Float
  | none, f => ⟨f, f.multiplicity, f.contribution⟩
  | some m, f => ⟨m.factor, m.multiplicity + f.multiplicity, m.sign * f.contribution⟩

theorem mergeFactor_eq_upsert (f : Factor Float) (ms : List (MergedFactor Float)) :
    mergeFactor f ms = upsert (fun m => m.factor.rowKey) f.rowKey (fun m => MergedFactor.join (some m) f)
      (MergedFactor.join none f) ms := by
  induction ms with
  | nil => rfl
  | cons m rest ih => rw [mergeFactor, upsert, ih]; rfl

/-- **Step.**  Merging a factor joins it to those of its row, and leaves all others alone. -/
theorem find?_mergeFactor (f : Factor Float) (ms : List (MergedFactor Float)) (k : RowKey) :
    (mergeFactor f ms).find? (fun m => m.factor.rowKey = k) =
      if f.rowKey = k then some (MergedFactor.join (ms.find? fun m => m.factor.rowKey = k) f)
      else ms.find? fun m => m.factor.rowKey = k := by
  rw [mergeFactor_eq_upsert, find?_upsert]
  · cases ms.find? fun m => m.factor.rowKey = k <;> rfl
  · exact fun m => rfl
  · rfl

/-- **Run.**  Joined factors are the first of them, the sum of their multiplicities, and the product of their signs. -/
theorem foldl_joinFactor (fs : List (Factor Float)) :
    ∀ m : MergedFactor Float, fs.foldl (fun o f => some (MergedFactor.join o f)) (some m) =
      some ⟨m.factor, m.multiplicity + total fs, fs.foldl (fun s f => s * f.contribution) m.sign⟩ := by
  induction fs with
  | nil => intro m; rfl
  | cons f rest ih =>
    intro m
    rw [List.foldl_cons, ih, total, total, List.map_cons, List.sum_cons, ← Nat.add_assoc]
    rfl

/-- What shares a row is joined from all factors with its key. -/
theorem of_mem_mergeFactors {fs : List (Factor Float)} (hfinite : ∀ f ∈ fs, Scalar.isFinite f.value = true)
    {m : MergedFactor Float} (hm : m ∈ mergeFactors fs) :
    ∃ f rest, fs.filter (fun f => f.rowKey = m.factor.rowKey) = f :: rest ∧
      m = ⟨f, f.multiplicity + total rest, rest.foldl (fun s f => s * f.contribution) f.contribution⟩ := by
  have hnodup : ((mergeFactors fs).map fun m => m.factor.rowKey).Nodup := by
    have h := (firstsBy_nodup Factor.rowKey [] (fs.filter fun f => Scalar.isFinite f.value)).1
    rw [← factors_mergeFactors, List.map_map] at h
    exact h
  have hfind := find?_key_of_nodup (fun m : MergedFactor Float => m.factor.rowKey) hnodup hm
  rw [mergeFactors, List.filter_eq_self.2 hfinite,
    find?_foldl find?_mergeFactor m.factor.rowKey fs []] at hfind
  cases hfs : fs.filter fun f => f.rowKey = m.factor.rowKey with
  | nil => rw [hfs] at hfind; exact absurd hfind (by simp)
  | cons f rest =>
    rw [hfs, List.foldl_cons] at hfind
    exact ⟨f, rest, rfl, Option.some.inj (hfind.symm.trans (foldl_joinFactor rest (MergedFactor.join none f)))⟩

/-- **Rows.**  A row has the multiplicities of all factors that share it. -/
theorem multiplicity_mergeFactors {fs : List (Factor Float)} (hfinite : ∀ f ∈ fs, Scalar.isFinite f.value = true)
    {m : MergedFactor Float} (hm : m ∈ mergeFactors fs) :
    m.multiplicity = total (fs.filter fun f => f.rowKey = m.factor.rowKey) := by
  obtain ⟨f, rest, hfs, hjoined⟩ := of_mem_mergeFactors hfinite hm
  rw [hfs, total, List.map_cons, List.sum_cons, hjoined]
  rfl

/-- Factors that are written alike have one value. -/
def ValuedByText (fs : List (Factor Float)) : Prop :=
  ∀ f ∈ fs, ∀ g ∈ fs, f.type = g.type → f.base = g.base → f.value = g.value

/-- The factors of an expression are such. -/
theorem valuedByText_factorize (t : Text) : ValuedByText (factorize t).factors :=
  fun _ hf _ hg _ => value_eq_of_base_eq hf hg

/-- Factors share a row when they have one key and are written alike. -/
theorem ValuedByText.rowKey_eq_iff {fs : List (Factor Float)} (h : ValuedByText fs) {f g : Factor Float}
    (hf : f ∈ fs) (hg : g ∈ fs) : f.rowKey = g.rowKey ↔ f.point.key = g.point.key ∧ f.base = g.base := by
  have hkey : ∀ f : Factor Float, f.point.key = PointKey.of f.type f.value := fun _ => rfl
  unfold Factor.rowKey
  by_cases hfb : f.base = [] <;> by_cases hgb : g.base = []
  · rw [if_pos hfb, if_pos hgb, RowKey.value.injEq, hfb, hgb]
    exact ⟨fun hk => ⟨hk, rfl⟩, fun hk => hk.1⟩
  · rw [if_pos hfb, if_neg hgb]
    exact ⟨fun hk => absurd hk (by simp), fun hk => absurd (hk.2.symm.trans hfb) hgb⟩
  · rw [if_neg hfb, if_pos hgb]
    exact ⟨fun hk => absurd hk (by simp), fun hk => absurd (hk.2.trans hgb) hfb⟩
  · rw [if_neg hfb, if_neg hgb, RowKey.expr.injEq]
    constructor
    · rintro ⟨htype, hbase⟩
      rw [hkey, hkey, htype, h f hf g hg htype hbase]
      exact ⟨rfl, hbase⟩
    · rintro ⟨hk, hbase⟩
      exact ⟨congrArg PointKey.type hk, hbase⟩

theorem firstRows_eq (rows : List (Row Float)) : ∀ seen, firstRows seen rows = firstsBy Row.key seen rows := by
  induction rows with
  | nil => intro seen; rfl
  | cons r rest ih =>
    intro seen
    rw [firstRows, firstsBy]
    by_cases h : r.key ∈ seen
    · rw [if_pos h, if_pos h, ih]
    · rw [if_neg h, if_neg h, ih]

/-- A row of a chart comes first among the rows with its key. -/
theorem find?_of_mem_factorRows {fs : List (Factor Float)} {ps : List (Point Float)} {d : Domain Float}
    {r : Row Float} (h : r ∈ factorRows fs ps d) :
    (linearRows fs ps d ++ positionRows ps d).find? (fun s => s.key = r.key) = some r := by
  unfold factorRows at h
  dsimp only at h
  split at h
  · exact absurd h List.not_mem_nil
  · have hfirst := List.mem_mergeSort.1 h
    rw [firstRows_eq] at hfirst
    exact ((mem_firstsBy_iff Row.key).1 hfirst).2

/-- A search for a key among merged factors finds those that are written like the first factor with this key. -/
theorem find?_key_mergeFactors {fs : List (Factor Float)} (hfinite : ∀ f ∈ fs, Scalar.isFinite f.value = true)
    (hvalued : ValuedByText fs) (k : PointKey) :
    ((mergeFactors fs).find? fun m => m.factor.point.key = k).map MergedFactor.factor =
      fs.find? fun f => f.point.key = k := by
  have hfactors := congrArg (List.find? fun f => decide (f.point.key = k)) (factors_mergeFactors fs)
  rw [List.filter_eq_self.2 hfinite, List.find?_map,
    find?_firstsBy Factor.rowKey _ [] fs (fun f hf g hg h => ?_) fun f _ h => absurd h List.not_mem_nil] at hfactors
  · exact hfactors
  -- factors that share a row have one key
  · rw [((hvalued.rowKey_eq_iff hf hg).1 h).1]

/-- Every point of factors is the point of one of them. -/
theorem exists_factor_of_mem {fs : List (Factor Float)} (hfinite : ∀ f ∈ fs, Scalar.isFinite f.value = true)
    {p : Point Float} (hp : p ∈ factorPoints fs) : ∃ f ∈ fs, f.point.key = p.key := by
  have hfind := find?_key_of_nodup Point.key (keys_gatherPoints_nodup (pointsOf .zero fs) (pointsOf .pole fs)) hp
  obtain ⟨q, rest, hfilter, _⟩ := joined?_eq_some ((find?_factorPoints hfinite p.key).symm.trans hfind)
  have hq : q ∈ (factorsAt p.key fs).map Factor.point := (List.mem_filter.1 (hfilter ▸ List.mem_cons_self)).1
  obtain ⟨f, hf, _⟩ := List.mem_map.1 hq
  exact ⟨f, (List.mem_filter.1 hf).1, by simpa using (List.mem_filter.1 hf).2⟩

/-- **The first factor.**  A row of a chart is that of the factors that are written like the first factor with its
key. -/
theorem exists_first {fs : List (Factor Float)} (hfinite : ∀ f ∈ fs, Scalar.isFinite f.value = true)
    (hvalued : ValuedByText fs) {d : Domain Float} {r : Row Float} (hr : r ∈ factorRows fs (factorPoints fs) d) :
    ∃ g, fs.find? (fun f => f.point.key = r.key) = some g ∧
      r.multiplicity = total (fs.filter fun f => f.rowKey = g.rowKey) := by
  have hfirst := find?_of_mem_factorRows hr
  have hmerged := find?_key_mergeFactors hfinite hvalued r.key
  have hrows : (linearRows fs (factorPoints fs) d).find? (fun s => s.key = r.key) =
      ((mergeFactors fs).find? fun m => m.factor.point.key = r.key).map
        (·.row (boundaries (factorPoints fs) d)) := List.find?_map ..
  rw [List.find?_append, hrows] at hfirst
  cases hm : (mergeFactors fs).find? fun m => m.factor.point.key = r.key with
  | some m =>
    -- rows of factors come before those of positions
    rw [hm] at hfirst
    obtain rfl := Option.some.inj hfirst
    rw [hm] at hmerged
    exact ⟨m.factor, hmerged.symm, multiplicity_mergeFactors hfinite (List.mem_of_find?_eq_some hm)⟩
  | none =>
    -- a row that is made from a position has the key of a factor, which has a row before it
    rw [hm, Option.map_none, Option.none_or] at hfirst
    rw [hm, Option.map_none] at hmerged
    obtain ⟨p, hp, rfl⟩ := List.mem_map.1 (List.mem_of_find?_eq_some hfirst)
    obtain ⟨f, hf, hkey⟩ := exists_factor_of_mem hfinite (List.mem_filter.1 hp).1
    exact absurd (decide_eq_true hkey) (List.find?_eq_none.1 hmerged.symm f hf)

/-! ## Rows and points -/

/-- **Both.**  What a point counts and the row of its key does not are the factors written differently. -/
theorem multiplicity_add_lost {fs : List (Factor Float)} (hfinite : ∀ f ∈ fs, Scalar.isFinite f.value = true)
    (hvalued : ValuedByText fs) {d : Domain Float} {r : Row Float} (hr : r ∈ factorRows fs (factorPoints fs) d) :
    ∃ g p, fs.find? (fun f => f.point.key = r.key) = some g ∧
      (factorPoints fs).find? (fun p => p.key = r.key) = some p ∧
      r.multiplicity + total ((factorsAt r.key fs).filter fun f => ¬ f.base = g.base) = p.multiplicity := by
  obtain ⟨g, hg, hrow⟩ := exists_first hfinite hvalued hr
  have hmem := List.mem_of_find?_eq_some hg
  have hkey : g.point.key = r.key := by simpa using List.find?_some hg
  obtain ⟨p, hp, hpoint⟩ := multiplicity_factorPoints hfinite hmem
  rw [hkey] at hp hpoint
  have hshared : fs.filter (fun f => f.rowKey = g.rowKey) = (factorsAt r.key fs).filter fun f => f.base = g.base := by
    rw [factorsAt, List.filter_filter]
    refine List.filter_congr fun f hf => ?_
    rw [← hkey, Bool.and_comm, ← Bool.decide_and]
    exact decide_eq_decide.2 (hvalued.rowKey_eq_iff hf hmem)
  refine ⟨g, p, hg, hp, ?_⟩
  rw [hrow, hshared, hpoint, total_filter_add]

/-- For the factors of an expression, written alike or not, a row counts no more than the point of its key. -/
theorem multiplicity_le_factorize (t : Text) (hfinite : ∀ f ∈ (factorize t).factors, Scalar.isFinite f.value = true)
    {d : Domain Float} {r : Row Float} (hr : r ∈ factorRows (factorize t).factors (factorize t).points d) :
    ∃ p ∈ (factorize t).points, p.key = r.key ∧ r.multiplicity ≤ p.multiplicity := by
  have hpoints : (factorize t).points = factorPoints (factorize t).factors :=
    congr (congrArg gatherPoints (factorize_listed t .zero)) (factorize_listed t .pole)
  rw [hpoints] at hr ⊢
  obtain ⟨g, p, -, hp, hlost⟩ := multiplicity_add_lost hfinite (valuedByText_factorize t) hr
  exact ⟨p, List.mem_of_find?_eq_some hp, by simpa using List.find?_some hp, by omega⟩

/-- **Multiplicities.**  A row has the multiplicity of its point exactly when all factors of this key are written like
the first of them.  (A factor of multiplicity 0 counts nothing.) -/
theorem multiplicity_eq_iff {fs : List (Factor Float)} (hfinite : ∀ f ∈ fs, Scalar.isFinite f.value = true)
    (hvalued : ValuedByText fs) {d : Domain Float} {r : Row Float} (hr : r ∈ factorRows fs (factorPoints fs) d) :
    ∃ g p, fs.find? (fun f => f.point.key = r.key) = some g ∧
      (factorPoints fs).find? (fun p => p.key = r.key) = some p ∧
      (r.multiplicity = p.multiplicity ↔
        ∀ f ∈ fs, f.point.key = r.key → f.base = g.base ∨ f.multiplicity = 0) := by
  obtain ⟨g, p, hg, hp, hlost⟩ := multiplicity_add_lost hfinite hvalued hr
  refine ⟨g, p, hg, hp, ?_⟩
  have hzero : r.multiplicity = p.multiplicity ↔
      total ((factorsAt r.key fs).filter fun f => ¬ f.base = g.base) = 0 := by omega
  rw [hzero, total_eq_zero_iff]
  simp only [factorsAt, List.mem_filter, decide_eq_true_eq, and_imp]
  exact forall₃_congr fun f _ _ => or_iff_not_imp_left.symm

/-! ### A multiplicity that is lost

In `(x-2)*(2*x-4)*x` two factors are zero at 2.  They are written differently, so that each has a row of its
own, and of these only the first is kept: it changes sign at 2, where the product does not. -/

/-- The factors of the product. -/
def proportional : List (Factor Float) :=
  [⟨.zero, 2.0, 1, .plus, "x-2".toList⟩, ⟨.zero, 2.0, 1, .plus, "2*x-4".toList⟩, ⟨.zero, 0.0, 1, .plus, ['x']⟩]

theorem proportional_finite : ∀ f ∈ proportional, Scalar.isFinite f.value = true := by decide

theorem proportional_valued : ValuedByText proportional := by
  unfold ValuedByText
  decide

/-- The row that is kept at 2. -/
def proportionalRow (d : Domain Float) : Row Float :=
  MergedFactor.row ⟨⟨.zero, 2.0, 1, .plus, "x-2".toList⟩, 1, .plus⟩ (boundaries (factorPoints proportional) d)

theorem key_two_ne_zero : PointKey.of .zero (2.0 : Float) ≠ PointKey.of .zero (0.0 : Float) := by
  decide +kernel

theorem key_proportionalRow (d : Domain Float) : (proportionalRow d).key = PointKey.of .zero 2.0 := by
  have hvalue : (proportionalRow d).value = 2.0 := rfl
  have htype : (proportionalRow d).type = .zero := rfl
  rw [Row.key, hvalue, htype]

theorem proportionalRow_mem (d : Domain Float) :
    proportionalRow d ∈ factorRows proportional (factorPoints proportional) d := by
  have hrows : ∃ s t more, linearRows proportional (factorPoints proportional) d ++
      positionRows (factorPoints proportional) d = proportionalRow d :: s :: t :: more ∧
        (s.type = .zero ∧ s.value = 2.0) ∧ t.type = .zero ∧ t.value = 0.0 :=
    ⟨_, _, _, rfl, ⟨rfl, rfl⟩, rfl, rfl⟩
  obtain ⟨s, t, more, hrows, ⟨hstype, hsvalue⟩, httype, htvalue⟩ := hrows
  have hs : s.key = (proportionalRow d).key := by rw [key_proportionalRow, Row.key, hstype, hsvalue]
  have ht : t.key ≠ (proportionalRow d).key := by
    rw [key_proportionalRow, Row.key, httype, htvalue]
    exact key_two_ne_zero.symm
  have hfirst : firstRows [] (proportionalRow d :: s :: t :: more) =
      proportionalRow d :: t :: firstRows [t.key, (proportionalRow d).key] more := by
    rw [firstRows, if_neg List.not_mem_nil, firstRows, hs, if_pos List.mem_cons_self, firstRows,
      if_neg fun h => ht (List.mem_singleton.1 h)]
  rw [factorRows, hrows, hfirst, if_neg (by simp)]
  exact List.mem_mergeSort.2 List.mem_cons_self

theorem total_factorsAt_two : total (factorsAt (PointKey.of .zero 2.0) proportional) = 2 := by
  decide +kernel

/-- **A multiplicity that is lost**: the point at 2 has multiplicity 2, its row has multiplicity 1. -/
theorem multiplicity_lost :
    (∀ f ∈ proportional, Scalar.isFinite f.value = true) ∧ ValuedByText proportional ∧
      ∀ d : Domain Float, ∃ r ∈ factorRows proportional (factorPoints proportional) d,
        ∃ p ∈ factorPoints proportional, p.key = r.key ∧ p.multiplicity = 2 ∧ r.multiplicity = 1 := by
  refine ⟨proportional_finite, proportional_valued, fun d => ⟨_, proportionalRow_mem d, ?_⟩⟩
  obtain ⟨p, hp, hmultiplicity⟩ := multiplicity_factorPoints proportional_finite List.mem_cons_self
  have hkey := List.find?_some hp
  rw [decide_eq_true_eq] at hkey
  exact ⟨p, List.mem_of_find?_eq_some hp, hkey.trans (key_proportionalRow d).symm,
    hmultiplicity.trans total_factorsAt_two, rfl⟩

/-- `multiplicity_eq_iff` at the row at 2. -/
theorem multiplicity_eq_iff_proportional :
    (∀ f ∈ proportional, Scalar.isFinite f.value = true) ∧ ValuedByText proportional ∧
      proportionalRow .standard ∈ factorRows proportional (factorPoints proportional) .standard ∧
      ∃ g p, proportional.find? (fun f => f.point.key = (proportionalRow .standard).key) = some g ∧
        (factorPoints proportional).find? (fun p => p.key = (proportionalRow .standard).key) = some p ∧
        ((proportionalRow .standard).multiplicity = p.multiplicity ↔
          ∀ f ∈ proportional, f.point.key = (proportionalRow .standard).key → f.base = g.base ∨ f.multiplicity = 0) :=
  ⟨proportional_finite, proportional_valued, proportionalRow_mem _,
    multiplicity_eq_iff proportional_finite proportional_valued (proportionalRow_mem _)⟩

end SignChart
