/-
  The shape of a chart: its points, signs and rows line up.

  Points are merged by rounded value, rows of factors by the text of the factor, zeros that the search
  finds come from a third source and rows made from a position alone from a fourth.  The chart is well
  shaped all the same (`wellShaped_chart`):

  1. **Factors.**  The value of a linear factor is computed from its base and from nothing else, so that factors
     with one text have one value (`value_eq_of_base_eq`).  Merging factors by text and then rows by key
     therefore keeps, for each key, the factor that a search for the key finds first; gathering
     points does the same (`mem_places_points`).

  2. **Points.**  What the search adds to the points of the factors are zeros with new keys
     (`places_criticalPoints`), and each of these gets a row from its position.

  3. **Rows.**  So the rows stand at the same places as the points (`mem_places_firstRows`).  Both lists are
     sorted by one linear order, hence they are the same list of places (`places_factorRows`).
-/
import SignChart.Chart.Basic
import SignChart.Proofs.Factorization.Extraction
import SignChart.Proofs.Point.Order

namespace SignChart

/-! ## Lengths -/

theorem length_intervals {α : Type} (bs : List α) : (intervals bs).length = bs.length - 1 := by
  fun_induction intervals bs with
  | case1 x y rest ih => simp only [List.length_cons] at ih ⊢; omega
  | case2 bs h =>
    match bs with
    | [] => rfl
    | [_] => rfl
    | x :: y :: rest => exact absurd rfl (h x y rest)

theorem length_intervals_boundaries (ps : List (Point Float)) (d : Domain Float) :
    (intervals (boundaries ps d)).length = ps.length + 1 := by
  rw [length_intervals]
  simp [boundaries]

theorem length_intervalSignsFrom (f : Float → Float) (is : List (Float × Float)) :
    ∀ prev, (intervalSignsFrom f prev is).length = is.length := by
  induction is with
  | nil => intro prev; rfl
  | cons i rest ih =>
    intro prev
    simp only [intervalSignsFrom, List.length_cons, ih]

/-! ## Factors -/

theorem mem_factors_factorize {t : Text} {f : Factor Float} (h : f ∈ (factorize t).factors) :
    ∃ part g type, linearFactor? part = some g ∧ f = g.place type := by
  rw [factorize_factors] at h
  obtain ⟨⟨op, token⟩, _, hf⟩ := List.mem_flatMap.1 h
  have hf' : f ∈ tokenFactors op token := hf
  unfold tokenFactors at hf'
  split at hf'
  · next p hp =>
    obtain ⟨g, hg, rfl⟩ := List.mem_map.1 hf'
    rw [factors_of_product? hp] at hg
    obtain ⟨part, _, hpart⟩ := List.mem_filterMap.1 hg
    exact ⟨stripParens part, g, op.pointType, hpart, rfl⟩
  · simp at hf'

/-- The text of a factor is not empty, for it mentions `x`. -/
theorem base_ne_nil {t : Text} {f : Factor Float} (h : f ∈ (factorize t).factors) : f.base ≠ [] := by
  obtain ⟨part, g, type, hg, rfl⟩ := mem_factors_factorize h
  exact List.ne_nil_of_mem (of_linearFactor? hg).2.1

/-- Factors of an expression that are written alike have the same value. -/
theorem value_eq_of_base_eq {t : Text} {f g : Factor Float} (hf : f ∈ (factorize t).factors)
    (hg : g ∈ (factorize t).factors) (h : f.base = g.base) : f.value = g.value := by
  obtain ⟨_, f', _, hf', rfl⟩ := mem_factors_factorize hf
  obtain ⟨_, g', _, hg', rfl⟩ := mem_factors_factorize hg
  have hb : f'.base = g'.base := h
  obtain ⟨_, _, u, hu, _, hru⟩ := of_linearFactor? hf'
  obtain ⟨_, _, v, hv, _, hrv⟩ := of_linearFactor? hg'
  rw [hb, hv] at hu
  obtain rfl := Except.ok.inj hu
  show f'.root = g'.root
  rw [hru, hrv]

/-- Factors that share a row have the same place. -/
theorem place_eq_of_rowKey_eq {t : Text} {f g : Factor Float} (hf : f ∈ (factorize t).factors)
    (hg : g ∈ (factorize t).factors) (h : f.rowKey = g.rowKey) : f.point.place = g.point.place := by
  unfold Factor.rowKey at h
  rw [if_neg (base_ne_nil hf), if_neg (base_ne_nil hg)] at h
  obtain ⟨htype, hbase⟩ := RowKey.expr.inj h
  exact Prod.ext htype (value_eq_of_base_eq hf hg hbase)

/-- The factors that count: those with a finite value. -/
def finiteFactors (t : Text) : List (Factor Float) :=
  (factorize t).factors.filter fun f => Scalar.isFinite f.value

/-- The first place of a key among the factors of an expression. -/
def firstPlace? (t : Text) (key : PointKey) : Option Place :=
  ((finiteFactors t).map fun f => f.point.place).find? fun y => y.key = key

theorem key_of_firstPlace? {t : Text} {key : PointKey} {x : Place} (h : firstPlace? t key = some x) :
    x.key = key := by
  simpa using List.find?_some h

theorem filter_pointsOf (type : PointType) (fs : List (Factor Float)) :
    (pointsOf type fs).filter (fun p => Scalar.isFinite p.value) =
      pointsOf type (fs.filter fun f => Scalar.isFinite f.value) := by
  simp only [pointsOf, List.filter_map, List.filter_filter, Bool.and_comm]
  rfl

/-- A key is searched for among the points of its own type. -/
theorem find?_pointsOf (key : PointKey) (type : PointType) (fs : List (Factor Float)) :
    ((pointsOf type fs).map Point.place).find? (fun y => y.key = key) =
      if type = key.type then (fs.map fun f => f.point.place).find? fun y => y.key = key else none := by
  induction fs with
  | nil => simp [pointsOf]
  | cons f rest ih =>
    have hcons : pointsOf type (f :: rest) = pointsOf type [f] ++ pointsOf type rest :=
      pointsOf_append type [f] rest
    rw [hcons, List.map_append, List.find?_append, ih, List.map_cons, List.find?_cons]
    by_cases hk : f.point.place.key = key
    · have htype : f.type = key.type := by rw [← hk]; rfl
      by_cases ht : type = key.type
      · simp [pointsOf, htype, ht, hk]
      · simp [pointsOf, htype, ht, Ne.symm ht]
    · by_cases ht : f.type = type <;> simp [pointsOf, ht, hk]

/-- The points of an expression stand at the first places of their keys. -/
theorem mem_places_points {t : Text} {x : Place} :
    x ∈ (factorize t).points.map Point.place ↔ firstPlace? t x.key = some x := by
  have hz : (factorize t).zeros = pointsOf .zero (factorize t).factors := factorize_listed t .zero
  have hp : (factorize t).poles = pointsOf .pole (factorize t).factors := factorize_listed t .pole
  rw [Factorization.points, mem_places_gatherPoints, hz, hp, List.filter_append, filter_pointsOf,
    filter_pointsOf, List.map_append, List.find?_append, find?_pointsOf, find?_pointsOf, firstPlace?,
    finiteFactors]
  cases x.key.type <;> simp

/-! ## Points -/

theorem type_of_mem_newZeros {cs : List (Candidate Float)} :
    ∀ {known : KnownZeros Float} {p : Point Float}, p ∈ newZeros known cs → p.type = .zero := by
  induction cs with
  | nil => intro known p h; simp [newZeros] at h
  | cons c rest ih =>
    intro known p h
    simp only [newZeros] at h
    split at h
    · exact ih h
    · rcases List.mem_cons.1 h with rfl | h
      · rfl
      · exact ih h

/-- The search finds zeros only. -/
theorem type_of_mem_findZeros {f : Float → Float} {ps : List (Point Float)} {p : Point Float}
    (h : p ∈ findZeros f ps) : p.type = .zero := by
  unfold findZeros at h
  split at h
  · simp at h
  · exact type_of_mem_newZeros h

/-- **Points.**  The points of a chart are sorted and have different keys; they hold all points of the
factors, and what they hold besides is zeros with new keys. -/
theorem places_criticalPoints (t : Text) (f : Float → Float) :
    ((criticalPoints (factorize t) f).map Point.place).Pairwise (fun a b => a.le b) ∧
      ((criticalPoints (factorize t) f).map Point.key).Nodup ∧
      (∀ x, firstPlace? t x.key = some x → x ∈ (criticalPoints (factorize t) f).map Point.place) ∧
      ∀ x ∈ (criticalPoints (factorize t) f).map Point.place,
        firstPlace? t x.key = some x ∨ firstPlace? t x.key = none ∧ x.1 = .zero := by
  have hsorted : ((factorize t).points.map Point.place).Pairwise fun a b => a.le b :=
    places_sortPoints_sorted _
  have hkeys : ((factorize t).points.map Point.key).Nodup := keys_gatherPoints_nodup _ _
  have hcases : criticalPoints (factorize t) f =
      if (factorize t).points = [] ∨ (factorize t).unparsed ≠ [] then
        mergePoints (factorize t).points (findZeros f (factorize t).points)
      else (factorize t).points := rfl
  rw [hcases]
  split
  -- with a search, and without
  · refine ⟨places_sortPoints_sorted _, keys_mergePoints_nodup _ hkeys, ?_, ?_⟩
    · intro x hx
      exact mem_places_mergePoints.2 (Or.inl (mem_places_points.2 hx))
    · intro x hx
      rcases mem_places_mergePoints.1 hx with hx | ⟨hnew, hx⟩
      · exact Or.inl (mem_places_points.1 hx)
      · right
        obtain ⟨p, hp, rfl⟩ := List.mem_map.1 (List.mem_of_find?_eq_some hx)
        refine ⟨?_, type_of_mem_findZeros hp⟩
        cases hy : firstPlace? t p.place.key with
        | none => rfl
        | some y =>
          -- a first place of this key would stand among the points already
          have hyk := key_of_firstPlace? hy
          have hmem : y ∈ (factorize t).points.map Point.place :=
            mem_places_points.2 (by rw [hyk]; exact hy)
          exact absurd (hyk ▸ List.mem_map_of_mem hmem) hnew
  · refine ⟨hsorted, hkeys, fun x hx => mem_places_points.2 hx, fun x hx => ?_⟩
    exact Or.inl (mem_places_points.1 hx)

/-! ## Rows -/

/-- The place of a row. -/
def Row.place (r : Row Float) : Place := (r.type, r.value)

/-- **Step.**  One more factor gets a row of its own if no row has its key. -/
theorem factor_mergeFactor (f : Factor Float) (ms : List (MergedFactor Float)) :
    (mergeFactor f ms).map MergedFactor.factor =
      if f.rowKey ∈ (ms.map MergedFactor.factor).map Factor.rowKey then ms.map MergedFactor.factor
      else ms.map MergedFactor.factor ++ [f] := by
  induction ms with
  | nil => rfl
  | cons m rest ih =>
    rw [mergeFactor]
    by_cases h : m.factor.rowKey = f.rowKey
    · rw [if_pos h, if_pos (by rw [List.map_cons, List.map_cons, h]; exact List.mem_cons_self)]
      rfl
    · have hmem : f.rowKey ∈ ((m :: rest).map MergedFactor.factor).map Factor.rowKey ↔
          f.rowKey ∈ (rest.map MergedFactor.factor).map Factor.rowKey := by
        rw [List.map_cons, List.map_cons, List.mem_cons]
        exact ⟨fun hm => hm.resolve_left (Ne.symm h), Or.inr⟩
      rw [if_neg h, List.map_cons, ih]
      by_cases hr : f.rowKey ∈ (rest.map MergedFactor.factor).map Factor.rowKey
      · rw [if_pos hr, if_pos (hmem.2 hr)]; rfl
      · rw [if_neg hr, if_neg fun hm => hr (hmem.1 hm)]; rfl

/-- **Run.**  The first factor of each text gets a row. -/
theorem factors_mergeFactors (fs : List (Factor Float)) :
    (mergeFactors fs).map MergedFactor.factor =
      firstsBy Factor.rowKey [] (fs.filter fun f => Scalar.isFinite f.value) := by
  have hrun : (mergeFactors fs).map MergedFactor.factor =
      firstsBy Factor.rowKey [] ((fs.filter fun f => Scalar.isFinite f.value).map id) :=
    view_foldl Factor.rowKey factor_mergeFactor (fs.filter fun f => Scalar.isFinite f.value) []
  rwa [List.map_id] at hrun

/-- The rows of factors are those of the first factor of each text. -/
theorem places_linearRows (fs : List (Factor Float)) (ps : List (Point Float)) (d : Domain Float) :
    (linearRows fs ps d).map Row.place =
      (firstsBy Factor.rowKey [] (fs.filter fun f => Scalar.isFinite f.value)).map
        fun f => f.point.place := by
  rw [← factors_mergeFactors, linearRows, List.map_map, List.map_map]
  rfl

theorem places_positionRows (ps : List (Point Float)) (d : Domain Float) :
    (positionRows ps d).map Row.place = (ps.filter fun p => p.type = .zero).map Point.place := by
  rw [positionRows, List.map_map]
  rfl

theorem places_firstRows (rows : List (Row Float)) :
    ∀ seen, (firstRows seen rows).map Row.place = firstsBy Place.key seen (rows.map Row.place) := by
  induction rows with
  | nil => intro seen; rfl
  | cons r rest ih =>
    intro seen
    have hkey : r.place.key = r.key := rfl
    rw [firstRows, List.map_cons, firstsBy, hkey]
    by_cases h : r.key ∈ seen
    · rw [if_pos h, if_pos h, ih]
    · rw [if_neg h, if_neg h, List.map_cons, ih]

/-- A search among the rows of factors finds the first place of a key. -/
theorem find?_linearRows (t : Text) (key : PointKey) (ps : List (Point Float)) (d : Domain Float) :
    ((linearRows (factorize t).factors ps d).map Row.place).find? (fun y => y.key = key) =
      firstPlace? t key := by
  rw [places_linearRows, firstPlace?, finiteFactors, List.find?_map, List.find?_map]
  congr 1
  -- factors of one text have one place, so merging by text loses no key
  refine find?_firstsBy Factor.rowKey _ [] _ (fun f hf g hg h => ?_) (fun f _ h => absurd h (by simp))
  show decide (f.point.place.key = key) = decide (g.point.place.key = key)
  rw [place_eq_of_rowKey_eq (List.mem_filter.1 hf).1 (List.mem_filter.1 hg).1 h]

/-- **Rows.**  The rows stand at the same places as the points. -/
theorem mem_places_firstRows (t : Text) (f : Float → Float) (d : Domain Float) (x : Place) :
    x ∈ (firstRows [] (linearRows (factorize t).factors (criticalPoints (factorize t) f) d ++
        positionRows (criticalPoints (factorize t) f) d)).map Row.place ↔
      x ∈ (criticalPoints (factorize t) f).map Point.place := by
  obtain ⟨_, hkeys, hfirst, hrest⟩ := places_criticalPoints t f
  rw [places_firstRows, List.map_append, mem_firstsBy_iff, List.find?_append, find?_linearRows,
    places_positionRows]
  constructor
  · rintro ⟨_, h⟩
    -- the rows of factors come first, so they decide wherever a factor has this key
    cases hx : firstPlace? t x.key with
    | some y =>
      rw [hx] at h
      obtain rfl := Option.some.inj h
      exact hfirst y hx
    | none =>
      rw [hx, Option.none_or] at h
      obtain ⟨p, hp, rfl⟩ := List.mem_map.1 (List.mem_of_find?_eq_some h)
      exact List.mem_map_of_mem (List.mem_filter.1 hp).1
  · intro hx
    refine ⟨List.not_mem_nil, ?_⟩
    rcases hrest x hx with h | ⟨h, hzero⟩
    · rw [h]; rfl
    · -- a zero that the search found: its row is the one made from its position
      rw [h, Option.none_or]
      obtain ⟨p, hp, rfl⟩ := List.mem_map.1 hx
      have hmem : p.place ∈ ((criticalPoints (factorize t) f).filter fun p => p.type = .zero).map
          Point.place := List.mem_map_of_mem (List.mem_filter.2 ⟨hp, decide_eq_true hzero⟩)
      refine find?_key_of_nodup Place.key ?_ hmem
      rw [← map_key_eq]
      exact hkeys.sublist (List.filter_sublist.map _)

/-- The rows stand one at each point, before they are sorted. -/
theorem places_firstRows_perm (t : Text) (f : Float → Float) (d : Domain Float) :
    ((firstRows [] (linearRows (factorize t).factors (criticalPoints (factorize t) f) d ++
        positionRows (criticalPoints (factorize t) f) d)).map Row.place).Perm
      ((criticalPoints (factorize t) f).map Point.place) := by
  obtain ⟨_, hkeys, _, _⟩ := places_criticalPoints t f
  refine (List.perm_ext_iff_of_nodup ?_ ?_).2 (mem_places_firstRows t f d)
  · rw [places_firstRows]
    exact nodup_of_map Place.key (firstsBy_nodup Place.key [] _).1
  · exact nodup_of_map Place.key (by rw [← map_key_eq]; exact hkeys)

/-- The rows of a chart stand where its points do, in the same order; there are none for fewer than two
points. -/
theorem places_factorRows (t : Text) (f : Float → Float) (d : Domain Float) :
    (factorRows (factorize t).factors (criticalPoints (factorize t) f) d).map Row.place =
      if (criticalPoints (factorize t) f).length < 2 then []
      else (criticalPoints (factorize t) f).map Point.place := by
  have hperm := places_firstRows_perm t f d
  -- the number of rows before sorting decides whether there are any
  have hlength := hperm.length_eq
  rw [List.length_map, List.length_map] at hlength
  rw [factorRows, hlength]
  by_cases h : (criticalPoints (factorize t) f).length < 2
  · rw [if_pos h, if_pos h]; rfl
  · rw [if_neg h, if_neg h]
    have hsort := List.mergeSort_perm (firstRows [] (linearRows (factorize t).factors
      (criticalPoints (factorize t) f) d ++ positionRows (criticalPoints (factorize t) f) d))
      fun r s => inOrder r.type r.value s.type s.value
    refine List.Perm.eq_of_pairwise (fun _ _ _ _ => Place.le_antisymm) ?_
      (places_criticalPoints t f).1 ((hsort.map Row.place).trans hperm)
    exact places_mergeSort_sorted Row.place _

theorem mem_of_mem_firstRows {r : Row Float} {rows : List (Row Float)} :
    ∀ {seen}, r ∈ firstRows seen rows → r ∈ rows := by
  induction rows with
  | nil => intro seen h; exact h
  | cons s rest ih =>
    intro seen h
    rw [firstRows] at h
    by_cases hs : s.key ∈ seen
    · rw [if_pos hs] at h
      exact List.mem_cons_of_mem _ (ih h)
    · rw [if_neg hs] at h
      rcases List.mem_cons.1 h with rfl | h
      · exact List.mem_cons_self
      · exact List.mem_cons_of_mem _ (ih h)

/-- Every row has a sign for each interval between points. -/
theorem length_segments_of_mem_factorRows {fs : List (Factor Float)} {ps : List (Point Float)}
    {d : Domain Float} {r : Row Float} (h : r ∈ factorRows fs ps d) :
    r.segments.length = ps.length + 1 := by
  have hsegments : ∀ v n s, (rowSegments (boundaries ps d) v n s).length = ps.length + 1 := by
    intro v n s
    rw [rowSegments, List.length_map, length_intervals_boundaries]
  unfold factorRows at h
  dsimp only at h
  split at h
  · exact absurd h List.not_mem_nil
  · rcases List.mem_append.1 (mem_of_mem_firstRows (List.mem_mergeSort.1 h)) with h | h
    · obtain ⟨m, _, rfl⟩ := List.mem_map.1 h
      exact hsegments _ _ _
    · obtain ⟨p, _, rfl⟩ := List.mem_map.1 h
      exact hsegments _ _ _

/-! ## The chart -/

/-- A chart is well shaped when its points are in order and no two of them are the same, when it has one
sign more than points, and when its rows, if it has two points or more, stand at the points one by one,
each with as many signs as the chart. -/
structure Chart.WellShaped (c : Chart) : Prop where
  sorted : c.points.Pairwise fun p q => inOrder p.type p.value q.type q.value
  keys : (c.points.map Point.key).Nodup
  segments : c.segments.length = c.points.length + 1
  no_rows : c.points.length < 2 → c.rows = []
  rows : 2 ≤ c.points.length → c.rows.length = c.points.length ∧
    ∀ i (hp : i < c.points.length) (hr : i < c.rows.length),
      c.rows[i].type = c.points[i].type ∧ c.rows[i].value = c.points[i].value ∧
        c.rows[i].segments.length = c.points.length + 1

theorem wellShaped_ofFunction (text : Text) (f : Float → Float) (previous : Option (Domain Float)) :
    (Chart.ofFunction text f previous).WellShaped := by
  obtain ⟨hsorted, hkeys, _, _⟩ := places_criticalPoints text f
  have hrows : (Chart.ofFunction text f previous).rows.map Row.place =
      if (Chart.ofFunction text f previous).points.length < 2 then []
      else (Chart.ofFunction text f previous).points.map Point.place :=
    places_factorRows text f _
  refine ⟨List.pairwise_map.1 hsorted, hkeys, ?_, ?_, ?_⟩
  · exact (length_intervalSignsFrom _ _ _).trans (length_intervals_boundaries _ _)
  · intro h
    rw [if_pos h] at hrows
    exact List.map_eq_nil_iff.1 hrows
  · intro h
    rw [if_neg (Nat.not_lt.2 h)] at hrows
    have hlength := congrArg List.length hrows
    rw [List.length_map, List.length_map] at hlength
    refine ⟨hlength, fun i hp hr => ?_⟩
    have hplace : (Chart.ofFunction text f previous).rows[i].place =
        (Chart.ofFunction text f previous).points[i].place := by
      have hget := congrArg (fun l => l[i]?) hrows
      rw [List.getElem?_map, List.getElem?_map, List.getElem?_eq_getElem hr,
        List.getElem?_eq_getElem hp] at hget
      exact Option.some.inj hget
    obtain ⟨htype, hvalue⟩ := Prod.ext_iff.1 hplace
    exact ⟨htype, hvalue, length_segments_of_mem_factorRows (List.getElem_mem hr)⟩

/-- How a chart of what a user typed comes about: by compiling the canonical text, with nothing changed but
the text that is shown. -/
theorem ofInput_eq_ok {raw : Text} {previous : Option (Domain Float)} {c : Chart}
    (h : Chart.ofInput raw previous = .ok c) :
    ∃ f, compile (canonical (normalize raw)) = .ok f ∧
      c = { Chart.ofFunction (canonical (normalize raw)) f.call previous with
        expression := normalize raw } := by
  unfold Chart.ofInput at h
  dsimp only at h
  split at h
  · exact absurd h (by simp)
  split at h
  · exact absurd h (by simp)
  split at h
  · exact absurd h (by simp)
  split at h
  · exact absurd h (by simp)
  · next f hf => exact ⟨f, hf, (Except.ok.inj h).symm⟩

/-- What is typed gives a chart if its canonical form is chartable and compiles. -/
theorem ofInput_of_compile {raw : Text} (previous : Option (Domain Float)) {f : Evaluator}
    (hok : firstUnchartable? (canonical (normalize raw)) = none) (hnormal : normalize raw ≠ [])
    (hcanonical : canonical (normalize raw) ≠ []) (hf : compile (canonical (normalize raw)) = .ok f) :
    Chart.ofInput raw previous =
      .ok { Chart.ofFunction (canonical (normalize raw)) f.call previous with
        expression := normalize raw } := by
  rw [Chart.ofInput]
  dsimp only
  rw [if_neg hnormal, if_neg hcanonical, hok, hf]

/-- **The shape of a chart.**  Every chart is well shaped, whatever its function and the domain before it, and
so is every chart of what a user typed. -/
theorem wellShaped_chart (previous : Option (Domain Float)) :
    (∀ text f, (Chart.ofFunction text f previous).WellShaped) ∧
      ∀ raw c, Chart.ofInput raw previous = .ok c → c.WellShaped := by
  refine ⟨fun text f => wellShaped_ofFunction text f previous, fun raw c h => ?_⟩
  obtain ⟨f, _, rfl⟩ := ofInput_eq_ok h
  obtain ⟨h₁, h₂, h₃, h₄, h₅⟩ := wellShaped_ofFunction (canonical (normalize raw)) f.call previous
  exact ⟨h₁, h₂, h₃, h₄, h₅⟩

/-! ### A fraction

The fraction `(x-1)/(x+2)` has a zero and a pole, so that its chart has two rows. -/

/-- The numerator. -/
def unitLine : Text := "x-1".toList

/-- The denominator. -/
def shiftedLine : Text := "x+2".toList

theorem compile_unitLine : ∃ f, compile unitLine = .ok f ∧ f.call = fun x => x - 1.0 := by
  have htokens : (Lexer.ofText unitLine).tokens =
      [.ok ⟨.ident, 0, ['x']⟩, .ok ⟨.op .sub, 1, ['-']⟩, .ok ⟨.number, 2, ['1']⟩] := by cbv
  have hparse : parse standardTable unitLine = .ok
      [⟨.load ['x'], 0, ['x']⟩, ⟨.push 1.0, 2, ['1']⟩, ⟨.operate .sub, 1, ['-']⟩] := by
    rw [parse, htokens]; rfl
  exact ⟨_, by rw [compile, hparse]; rfl, rfl⟩

theorem compile_shiftedLine : ∃ f, compile shiftedLine = .ok f ∧ f.call = fun x => x + 2.0 := by
  have htokens : (Lexer.ofText shiftedLine).tokens =
      [.ok ⟨.ident, 0, ['x']⟩, .ok ⟨.op .add, 1, ['+']⟩, .ok ⟨.number, 2, ['2']⟩] := by cbv
  have hparse : parse standardTable shiftedLine = .ok
      [⟨.load ['x'], 0, ['x']⟩, ⟨.push 2.0, 2, ['2']⟩, ⟨.operate .add, 1, ['+']⟩] := by
    rw [parse, htokens]; rfl
  exact ⟨_, by rw [compile, hparse]; rfl, rfl⟩

theorem stripParens_unitLine : stripParens unitLine = unitLine := by cbv

theorem linearFactor?_unitLine : linearFactor? unitLine = some ⟨1.0, 1, .plus, unitLine⟩ := by
  obtain ⟨f, hf, hcall⟩ := compile_unitLine
  have hends : endValues? f = some (-1.0, 0.0) := by
    rw [endValues?, hcall]
    decide
  have hline : [-1.0, 2.0, 0.5].all (onLine f (0.0 - -1.0) (-1.0)) = true := by
    simp only [List.all_cons, List.all_nil, onLine, hcall]
    decide +kernel
  have hroot : snapZero (-(-1.0) / (0.0 - -1.0)) = 1.0 := by decide +kernel
  have hsign : Sign.of (0.0 - -1.0 : Float) = .plus := by decide +kernel
  rw [linearFactor?_of_line (by decide) stripParens_unitLine (by decide) hf hends (by decide +kernel) hline, hroot, hsign]

theorem linearFactor?_shiftedLine : linearFactor? shiftedLine = some ⟨-2.0, 1, .plus, shiftedLine⟩ := by
  obtain ⟨f, hf, hcall⟩ := compile_shiftedLine
  have hends : endValues? f = some (2.0, 3.0) := by
    rw [endValues?, hcall]
    decide
  have hline : [-1.0, 2.0, 0.5].all (onLine f (3.0 - 2.0) 2.0) = true := by
    simp only [List.all_cons, List.all_nil, onLine, hcall]
    decide +kernel
  have hroot : snapZero (-2.0 / (3.0 - 2.0)) = -2.0 := by decide +kernel
  have hsign : Sign.of (3.0 - 2.0 : Float) = .plus := by decide +kernel
  have hstrip : stripParens shiftedLine = shiftedLine := by cbv
  rw [linearFactor?_of_line (by decide) hstrip (by decide) hf hends (by decide +kernel) hline, hroot, hsign]

/-- The fraction. -/
def lineFraction : Text := "(x-1)/(x+2)".toList

theorem factorize_lineFraction : factorize lineFraction =
    (Factorization.empty.addProduct .zero ⟨[⟨1.0, 1, .plus, unitLine⟩], .plus * .plus⟩).addProduct .pole
      ⟨[⟨-2.0, 1, .plus, shiftedLine⟩], .plus * .plus⟩ := by
  have htokens : factorTokens lineFraction = [(.mul, "(x-1)".toList), (.div, "(x+2)".toList)] := by decide
  have hzero : product? "(x-1)".toList = some ⟨[⟨1.0, 1, .plus, unitLine⟩], .plus * .plus⟩ :=
    product?_of_line (by cbv) (by decide) (by decide) stripParens_unitLine linearFactor?_unitLine
  have hpole : product? "(x+2)".toList = some ⟨[⟨-2.0, 1, .plus, shiftedLine⟩], .plus * .plus⟩ :=
    product?_of_line (by cbv) (by decide) (by decide) (by cbv) linearFactor?_shiftedLine
  rw [factorize, htokens]
  show (Factorization.empty.addToken .mul "(x-1)".toList).addToken .div "(x+2)".toList = _
  unfold Factorization.addToken
  rw [hzero, hpole]
  rfl

/-- The points of its factors are all that it has. -/
theorem criticalPoints_lineFraction (f : Float → Float) : (criticalPoints (factorize lineFraction) f).length = 2 := by
  have hpoints : (factorize lineFraction).points.length = 2 := by
    rw [factorize_lineFraction, Factorization.points, gatherPoints, sortPoints, List.length_mergeSort]
    decide +kernel
  have hunparsed : (factorize lineFraction).unparsed = [] := by
    rw [factorize_lineFraction]
    rfl
  rw [criticalPoints, if_neg (not_or.2 ⟨List.ne_nil_of_length_pos (by omega), not_not.2 hunparsed⟩), hpoints]

/-- `wellShaped_chart` at the fraction. -/
theorem wellShaped_fraction :
    (Chart.ofFunction lineFraction (fun x => (x - 1) / (x + 2)) none).WellShaped ∧
      ∃ c, Chart.ofInput "f(x) = (x - 1)/(x + 2)".toList none = .ok c ∧ c.WellShaped ∧
        c.points.length = 2 ∧ c.rows.length = 2 := by
  have hnormal : normalize "f(x) = (x - 1)/(x + 2)".toList = "(x - 1)/(x + 2)".toList := by cbv
  have hcanonical : canonical "(x - 1)/(x + 2)".toList = lineFraction := by cbv
  have htokens : (Lexer.ofText lineFraction).tokens =
      [.ok ⟨.openParen, 0, ['(']⟩, .ok ⟨.ident, 1, ['x']⟩, .ok ⟨.op .sub, 2, ['-']⟩,
        .ok ⟨.number, 3, ['1']⟩, .ok ⟨.closeParen, 4, [')']⟩, .ok ⟨.op .div, 5, ['/']⟩,
        .ok ⟨.openParen, 6, ['(']⟩, .ok ⟨.ident, 7, ['x']⟩, .ok ⟨.op .add, 8, ['+']⟩,
        .ok ⟨.number, 9, ['2']⟩, .ok ⟨.closeParen, 10, [')']⟩] := by cbv
  have hparse : parse standardTable lineFraction = .ok
      [⟨.load ['x'], 1, ['x']⟩, ⟨.push 1.0, 3, ['1']⟩, ⟨.operate .sub, 2, ['-']⟩,
        ⟨.load ['x'], 7, ['x']⟩, ⟨.push 2.0, 9, ['2']⟩, ⟨.operate .add, 8, ['+']⟩,
        ⟨.operate .div, 5, ['/']⟩] := by
    rw [parse, htokens]; rfl
  obtain ⟨f, hf⟩ : ∃ f, compile lineFraction = .ok f := ⟨_, by rw [compile, hparse]; rfl⟩
  have hchart := ofInput_of_compile none (f := f) (by rw [hnormal, hcanonical]; decide)
      (by rw [hnormal]; decide) (by rw [hnormal, hcanonical]; decide)
      (by rw [hnormal, hcanonical, hf])
  rw [hnormal, hcanonical] at hchart
  have hshape := (wellShaped_chart none).2 _ _ hchart
  have hpoints := criticalPoints_lineFraction f.call
  exact ⟨(wellShaped_chart none).1 _ _, _, hchart, hshape, hpoints, (hshape.rows hpoints.ge).1.trans hpoints⟩

end SignChart
