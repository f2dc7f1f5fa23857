/-
  The order of points, and what adding and merging does to a list of them.

  1. **The order.**  A number's place among all bit patterns, `Float.rank`, tells all numbers apart
     (`Float.rank_injective`), so that `inOrder` is a linear order on pairs of a type and a value
     (`Place.le_antisymm`).

  2. **First occurrences.**  Points are merged by their key, rows by theirs and factors by their text, each
     time with the first of equals deciding place and value.  `firstsBy` is that rule on its own: it
     keeps the elements that a search for their key finds (`mem_firstsBy_iff`).

  3. **Merging.**  Where only types and values matter, `addPoint` adds a point whose key is new and does nothing
     else (`places_addPoint`); a run of additions therefore appends the first occurrences
     (`places_foldl_addPoint`).
-/
import Mathlib
import SignChart.Point

namespace SignChart

/-! ## The order -/

theorem Float.toBits_injective {x y : Float} (h : x.toBits = y.toBits) : x = y := by
  obtain ⟨⟨b, hb⟩⟩ := x
  obtain ⟨⟨c, hc⟩⟩ := y
  obtain rfl : b = c := h
  rfl

/-- No two numbers have the same place in the total order. -/
theorem Float.rank_injective {x y : Float} (h : x.rank = y.rank) : x = y := by
  refine Float.toBits_injective (UInt64.toNat_inj.1 ?_)
  -- negative numbers have negative ranks, the others not
  simp only [Float.rank] at h
  split at h <;> split at h <;> omega

/-- A type and a value: all of a point that its place in a list and its key depend on. -/
abbrev Place := PointType × Float

/-- The order of places is by value, then zeros before poles. -/
def Place.le (a b : Place) : Bool := inOrder a.1 a.2 b.1 b.2

theorem Place.le_iff {a b : Place} :
    a.le b = true ↔
      a.2.rank < b.2.rank ∨ a.2.rank = b.2.rank ∧ (a.1 = .zero ∨ b.1 = .pole) := by
  have hord : Scalar.order a.2 b.2 = compare a.2.rank b.2.rank := rfl
  have htype : (a.1.order b.1).isLE = true ↔ a.1 = .zero ∨ b.1 = .pole := by
    cases a.1 <;> cases b.1 <;> decide
  rw [Place.le, inOrder, hord]
  rcases Int.lt_trichotomy a.2.rank b.2.rank with h | h | h
  · simp [Int.compare_eq_lt.2 h, h]
  · rw [Int.compare_eq_eq.2 h]
    show (a.1.order b.1).isLE = true ↔ _
    rw [htype]
    exact ⟨fun ht => Or.inr ⟨h, ht⟩, fun ht => (ht.resolve_left (by omega)).2⟩
  · simp [Int.compare_eq_gt.2 h]
    omega

theorem Place.le_trans {a b c : Place} (hab : a.le b) (hbc : b.le c) : a.le c := by
  rw [Place.le_iff] at hab hbc ⊢
  grind

theorem Place.le_total (a b : Place) : (a.le b || b.le a) = true := by
  rw [Bool.or_eq_true, Place.le_iff, Place.le_iff]
  rcases Int.lt_trichotomy a.2.rank b.2.rank with h | h | h
  · exact Or.inl (Or.inl h)
  · cases ha : a.1 <;> cases hb : b.1 <;> simp [h]
  · exact Or.inr (Or.inl h)

theorem Place.le_antisymm {a b : Place} (hab : a.le b) (hba : b.le a) : a = b := by
  rw [Place.le_iff] at hab hba
  have hvalue : a.2 = b.2 := Float.rank_injective (by omega)
  have htype : a.1 = b.1 := by cases ha : a.1 <;> cases hb : b.1 <;> grind
  exact Prod.ext htype hvalue

/-- Sorting things by their places sorts the places. -/
theorem places_mergeSort_sorted {β : Type} (place : β → Place) (l : List β) :
    ((l.mergeSort fun a b => (place a).le (place b)).map place).Pairwise fun a b => a.le b := by
  rw [List.pairwise_map]
  exact @List.pairwise_mergeSort _ (fun a b => (place a).le (place b))
    (fun _ _ _ => Place.le_trans) (fun _ _ => Place.le_total _ _) l

theorem nodup_of_map {β κ : Type} (key : β → κ) {l : List β} (h : (l.map key).Nodup) : l.Nodup :=
  (List.pairwise_map.1 h).imp fun hne he => hne (congrArg key he)

/-! ## First occurrences -/

section Firsts
variable {β κ : Type} [DecidableEq κ] (key : β → κ)

/-- The first element of every key that is not among `seen`. -/
def firstsBy (seen : List κ) : List β → List β
  | [] => []
  | x :: rest =>
    if key x ∈ seen then firstsBy seen rest else x :: firstsBy (key x :: seen) rest

/-- An element is a first occurrence exactly when its key is new and a search for the key finds it. -/
theorem mem_firstsBy_iff {x : β} :
    ∀ {seen : List κ} {l : List β},
      x ∈ firstsBy key seen l ↔ key x ∉ seen ∧ l.find? (fun y => key y = key x) = some x := by
  intro seen l
  induction l generalizing seen with
  | nil => simp [firstsBy]
  | cons y rest ih =>
    rw [firstsBy, List.find?_cons]
    by_cases hy : key y ∈ seen
    · rw [if_pos hy, ih]
      by_cases hyx : key y = key x
      · exact ⟨fun h => absurd (hyx ▸ hy) h.1, fun h => absurd (hyx ▸ hy) h.1⟩
      · simp [hyx]
    · rw [if_neg hy, List.mem_cons, ih]
      by_cases hyx : key y = key x
      · simp only [hyx, decide_true, List.mem_cons, true_or, not_true_eq_false, false_and, or_false]
        constructor
        · rintro rfl; exact ⟨hy, rfl⟩
        · rintro ⟨_, h⟩; exact (Option.some.inj h).symm
      · have hne : x ≠ y := fun h => hyx (by rw [h])
        simp [hyx, hne, Ne.symm hyx]

/-- First occurrences have different keys, and none that was seen before. -/
theorem firstsBy_nodup :
    ∀ (seen : List κ) (l : List β),
      ((firstsBy key seen l).map key).Nodup ∧ ∀ x ∈ firstsBy key seen l, key x ∉ seen := by
  intro seen l
  induction l generalizing seen with
  | nil => simp [firstsBy]
  | cons y rest ih =>
    rw [firstsBy]
    by_cases hy : key y ∈ seen
    · rw [if_pos hy]; exact ih seen
    · rw [if_neg hy]
      obtain ⟨hn, hs⟩ := ih (key y :: seen)
      constructor
      · rw [List.map_cons, List.nodup_cons]
        refine ⟨fun hmem => ?_, hn⟩
        obtain ⟨x, hx, hxy⟩ := List.mem_map.1 hmem
        exact hs x hx (hxy ▸ List.mem_cons_self)
      · intro x hx
        rcases List.mem_cons.1 hx with rfl | hx
        · exact hy
        · exact fun h => hs x hx (List.mem_cons_of_mem _ h)

/-- Which elements come first depends only on which keys were seen. -/
theorem firstsBy_congr {seen seen' : List κ} (h : ∀ k, k ∈ seen ↔ k ∈ seen') (l : List β) :
    firstsBy key seen l = firstsBy key seen' l := by
  induction l generalizing seen seen' with
  | nil => rfl
  | cons y rest ih =>
    have hcons : ∀ k, k ∈ key y :: seen ↔ k ∈ key y :: seen' := by
      intro k; rw [List.mem_cons, List.mem_cons, h k]
    rw [firstsBy, firstsBy]
    by_cases hy : key y ∈ seen
    · rw [if_pos hy, if_pos ((h _).1 hy), ih h]
    · rw [if_neg hy, if_neg fun hy' => hy ((h _).2 hy'), ih hcons]

/-- **The run lemma.**  If one step puts an element at the end when its key is new and changes nothing else,
as far as `view` shows, then a run of steps appends the first occurrences of new keys. -/
theorem view_foldl {γ δ : Type} {view : γ → β} {item : δ → β} {add : δ → List γ → List γ}
    (hstep : ∀ d l, (add d l).map view =
      if key (item d) ∈ (l.map view).map key then l.map view else l.map view ++ [item d])
    (ds : List δ) :
    ∀ l : List γ, (ds.foldl (fun l d => add d l) l).map view =
      l.map view ++ firstsBy key ((l.map view).map key) (ds.map item) := by
  induction ds with
  | nil => intro l; simp [firstsBy]
  | cons d rest ih =>
    intro l
    rw [List.foldl_cons, ih, hstep, List.map_cons, firstsBy]
    by_cases h : key (item d) ∈ (l.map view).map key
    · rw [if_pos h, if_pos h]
    · rw [if_neg h, if_neg h, List.append_assoc, List.singleton_append]
      congr 2
      -- the key of the new element is now among those seen, whether at the front or at the end
      refine firstsBy_congr key (fun k => ?_) _
      rw [List.map_append, List.mem_append, List.mem_cons]
      simp [or_comm]

/-- A search for something that equal keys share finds the same in a list and in its first occurrences. -/
theorem find?_firstsBy (q : β → Bool) :
    ∀ (seen : List κ) (l : List β), (∀ x ∈ l, ∀ y ∈ l, key x = key y → q x = q y) →
      (∀ x ∈ l, key x ∈ seen → q x = false) → (firstsBy key seen l).find? q = l.find? q := by
  intro seen l
  induction l generalizing seen with
  | nil => intro _ _; rfl
  | cons y rest ih =>
    intro hq hs
    have hq' : ∀ x ∈ rest, ∀ y ∈ rest, key x = key y → q x = q y := fun x hx z hz =>
      hq x (List.mem_cons_of_mem _ hx) z (List.mem_cons_of_mem _ hz)
    have hs' : ∀ x ∈ rest, key x ∈ seen → q x = false := fun x hx => hs x (List.mem_cons_of_mem _ hx)
    rw [firstsBy]
    by_cases hy : key y ∈ seen
    -- an element whose key was seen is not what is searched for
    · rw [if_pos hy, ih seen hq' hs', List.find?_cons_of_neg (by simp [hs y List.mem_cons_self hy])]
    · rw [if_neg hy]
      cases hqy : q y with
      | true => rw [List.find?_cons_of_pos hqy, List.find?_cons_of_pos hqy]
      | false =>
        rw [List.find?_cons_of_neg (by simp [hqy]), List.find?_cons_of_neg (by simp [hqy])]
        -- neither is anything that shares the key of `y`
        refine ih _ hq' fun x hx hk => ?_
        rcases List.mem_cons.1 hk with hk | hk
        · rw [hq x (List.mem_cons_of_mem _ hx) y List.mem_cons_self hk, hqy]
        · exact hs' x hx hk

/-- Where all keys differ, a search for the key of an element finds that element. -/
theorem find?_key_of_nodup {l : List β} (h : (l.map key).Nodup) {x : β} (hx : x ∈ l) :
    l.find? (fun y => key y = key x) = some x := by
  induction l with
  | nil => simp at hx
  | cons y rest ih =>
    rw [List.map_cons, List.nodup_cons] at h
    rcases List.mem_cons.1 hx with rfl | hx
    · exact List.find?_cons_of_pos (by simp)
    · have hne : key y ≠ key x := fun he => h.1 (he ▸ List.mem_map_of_mem hx)
      rw [List.find?_cons_of_neg (by simpa using hne)]
      exact ih h.2 hx

end Firsts

/-! ## Merging points -/

/-- The place of a point. -/
def Point.place (p : Point Float) : Place := (p.type, p.value)

/-- The key of all points at a place. -/
def Place.key (x : Place) : PointKey := PointKey.of x.1 x.2

theorem map_key_eq (ps : List (Point Float)) : ps.map Point.key = (ps.map Point.place).map Place.key := by
  rw [List.map_map]; rfl

/-- **Step.**  Adding a point puts its place at the end if its key is new, and moves nothing otherwise. -/
theorem places_addPoint (combine : Nat → Nat → Nat) (p : Point Float) (ps : List (Point Float)) :
    (addPoint combine p ps).map Point.place =
      if p.key ∈ ps.map Point.key then ps.map Point.place else ps.map Point.place ++ [p.place] := by
  induction ps with
  | nil => rfl
  | cons q rest ih =>
    rw [addPoint]
    by_cases h : q.key = p.key
    · rw [if_pos h, if_pos (by rw [List.map_cons, h]; exact List.mem_cons_self)]
      rfl
    · have hmem : p.key ∈ (q :: rest).map Point.key ↔ p.key ∈ rest.map Point.key := by
        rw [List.map_cons, List.mem_cons]
        exact ⟨fun hm => hm.resolve_left (Ne.symm h), Or.inr⟩
      rw [if_neg h, List.map_cons, ih]
      by_cases hr : p.key ∈ rest.map Point.key
      · rw [if_pos hr, if_pos (hmem.2 hr)]; rfl
      · rw [if_neg hr, if_neg fun hm => hr (hmem.1 hm)]; rfl

/-- **Run.**  Adding points one after another appends the first of every new key. -/
theorem places_foldl_addPoint (combine : Nat → Nat → Nat) (extra ps : List (Point Float)) :
    (extra.foldl (fun ps p => addPoint combine p ps) ps).map Point.place =
      ps.map Point.place ++
        firstsBy Place.key ((ps.map Point.place).map Place.key) (extra.map Point.place) := by
  refine view_foldl Place.key (fun p ps => ?_) extra ps
  rw [places_addPoint, map_key_eq]
  rfl

theorem mem_places_sortPoints {ps : List (Point Float)} {x : Place} :
    x ∈ (sortPoints ps).map Point.place ↔ x ∈ ps.map Point.place :=
  ((List.mergeSort_perm ps _).map Point.place).mem_iff

theorem places_sortPoints_sorted (ps : List (Point Float)) :
    ((sortPoints ps).map Point.place).Pairwise fun a b => a.le b :=
  places_mergeSort_sorted Point.place ps

/-- A place is in a merged list if it was there before or comes first among the new ones of its key. -/
theorem mem_places_mergePoints {points extra : List (Point Float)} {x : Place} :
    x ∈ (mergePoints points extra).map Point.place ↔
      x ∈ points.map Point.place ∨
        x.key ∉ (points.map Point.place).map Place.key ∧
          (extra.map Point.place).find? (fun y => y.key = x.key) = some x := by
  rw [mergePoints, mem_places_sortPoints, places_foldl_addPoint, List.mem_append, mem_firstsBy_iff]

/-- A place is in a gathered list if it comes first among the finite ones of its key. -/
theorem mem_places_gatherPoints {zeros poles : List (Point Float)} {x : Place} :
    x ∈ (gatherPoints zeros poles).map Point.place ↔
      (((zeros ++ poles).filter fun p => Scalar.isFinite p.value).map Point.place).find?
        (fun y => y.key = x.key) = some x := by
  rw [gatherPoints, mem_places_sortPoints, places_foldl_addPoint, List.map_nil, List.nil_append,
    mem_firstsBy_iff]
  simp

/-- Merging keeps keys different. -/
theorem keys_mergePoints_nodup {points : List (Point Float)} (extra : List (Point Float))
    (h : (points.map Point.key).Nodup) : ((mergePoints points extra).map Point.key).Nodup := by
  have hperm := (List.mergeSort_perm (extra.foldl (fun ps p => addPoint Nat.max p ps) points)
    fun p q => inOrder p.type p.value q.type q.value).map Point.key
  refine hperm.nodup_iff.2 ?_
  obtain ⟨hn, hs⟩ := firstsBy_nodup Place.key ((points.map Point.place).map Place.key)
    (extra.map Point.place)
  rw [map_key_eq, places_foldl_addPoint, List.map_append, List.nodup_append]
  refine ⟨by rw [← map_key_eq]; exact h, hn, ?_⟩
  intro a ha b hb hab
  obtain ⟨x, hx, rfl⟩ := List.mem_map.1 hb
  exact hs x hx (hab ▸ ha)

theorem keys_gatherPoints_nodup (zeros poles : List (Point Float)) :
    ((gatherPoints zeros poles).map Point.key).Nodup := by
  have hperm := (List.mergeSort_perm
    (((zeros ++ poles).filter fun p => Scalar.isFinite p.value).foldl
      (fun ps p => addPoint (· + ·) p ps) [])
    fun p q => inOrder p.type p.value q.type q.value).map Point.key
  refine hperm.nodup_iff.2 ?_
  rw [map_key_eq, places_foldl_addPoint]
  exact (firstsBy_nodup Place.key [] _).1

end SignChart
