/-
  Points merged step by step, and what is left of them.

  A session adds lists of points to the points it has.  Each step looks for the key of a new point in a list that
  the step before sorted by exact values, and what it adds may repeat itself and what is there.  All the same the
  points of a session are determined by what was added, and by nothing else (`summarizes_session`):

  1. **Keys.**  A list of points is a table with a point for each key.  A search for a key finds what it found
     before, joined with the points of that key that were added since, one after another (`find?_upsert` for one
     point, `find?_foldl` for a run).  Sorting does not change what is found, as no key occurs
     twice (`find?_perm`).

  2. **Summaries.**  `Summarizes added points` says what the points are to what was added: one for each
     key, with the value of the first and the greatest multiplicity, in order.  Only one list is that
     (`Summarizes.unique`).

  3. **Sessions.**  One step takes a summary to a summary (`Summarizes.merge`), hence so does any number of them.
-/
import SignChart.Proofs.Point.Order

namespace SignChart

/-! ## Searching for a key -/

section Search
variable {κ γ δ : Type} [DecidableEq κ] {key : γ → κ} {item : δ → κ}

/-- A table with the first element of a key changed, or with a new one at the end. -/
def upsert (key : γ → κ) (k : κ) (change : γ → γ) (new : γ) : List γ → List γ
  | [] => [new]
  | x :: rest => if key x = k then change x :: rest else x :: upsert key k change new rest

/-- **The step lemma.**  Such a change is seen by a search for the key, and by no other. -/
theorem find?_upsert {change : γ → γ} {new : γ} {k : κ} (hchange : ∀ x, key (change x) = key x) (hnew : key new = k)
    (l : List γ) (j : κ) :
    (upsert key k change new l).find? (fun x => key x = j) =
      if k = j then some ((l.find? fun x => key x = j).elim new change) else l.find? fun x => key x = j := by
  induction l with
  | nil => by_cases h : k = j <;> simp [upsert, hnew, h]
  | cons x rest ih =>
    rw [upsert]
    by_cases hx : key x = k
    · rw [if_pos hx]
      by_cases h : k = j
      · rw [if_pos h, List.find?_cons_of_pos (by simpa [hchange, hx] using h),
          List.find?_cons_of_pos (by simpa [hx] using h)]
        rfl
      · rw [if_neg h, List.find?_cons_of_neg (by simpa [hchange, hx] using h),
          List.find?_cons_of_neg (by simpa [hx] using h)]
    · rw [if_neg hx]
      by_cases h : key x = j
      · have hk : k ≠ j := fun hk => hx (h.trans hk.symm)
        rw [if_neg hk, List.find?_cons_of_pos (by simpa using h), List.find?_cons_of_pos (by simpa using h)]
      · rw [List.find?_cons_of_neg (by simpa using h), List.find?_cons_of_neg (by simpa using h), ih]

/-- **The run lemma.**  If a step joins its element to what a search for the element's key finds, and leaves
the other keys alone, then a run joins all elements of a key to what a search for it finds. -/
theorem find?_foldl {join : Option γ → δ → γ} {add : δ → List γ → List γ}
    (hstep : ∀ d l k, (add d l).find? (fun x => key x = k) =
      if item d = k then some (join (l.find? fun x => key x = k) d) else l.find? fun x => key x = k)
    (k : κ) (ds : List δ) :
    ∀ l, (ds.foldl (fun l d => add d l) l).find? (fun x => key x = k) =
      (ds.filter fun d => item d = k).foldl (fun o d => some (join o d)) (l.find? fun x => key x = k) := by
  induction ds with
  | nil => intro l; rfl
  | cons d rest ih =>
    intro l
    rw [List.foldl_cons, ih, hstep]
    by_cases h : item d = k
    · rw [if_pos h, List.filter_cons_of_pos (by simpa using h), List.foldl_cons]
    · rw [if_neg h, List.filter_cons_of_neg (by simpa using h)]

/-- Where all keys differ, a search finds the element with the key and no other. -/
theorem find?_eq_some_iff_of_nodup {l : List γ} (h : (l.map key).Nodup) {k : κ} {x : γ} :
    l.find? (fun y => key y = k) = some x ↔ x ∈ l ∧ key x = k := by
  constructor
  · intro hx
    exact ⟨List.mem_of_find?_eq_some hx, by simpa using List.find?_some hx⟩
  · rintro ⟨hx, rfl⟩
    exact find?_key_of_nodup key h hx

/-- Where all keys differ, the order does not matter to a search. -/
theorem find?_perm {l m : List γ} (hp : l.Perm m) (h : (m.map key).Nodup) (k : κ) :
    l.find? (fun x => key x = k) = m.find? fun x => key x = k := by
  refine Option.ext fun x => ?_
  rw [find?_eq_some_iff_of_nodup h, find?_eq_some_iff_of_nodup ((hp.map key).nodup_iff.2 h), hp.mem_iff]

end Search

/-! ## Joining points -/

section Join
variable {α : Type}

/-- A point joined to the one that is there already, if there is one. -/
def Point.join (combine : Nat → Nat → Nat) : Option (Point α) → Point α → Point α
  | none, p => p
  | some q, p => { q with multiplicity := combine q.multiplicity p.multiplicity }

/-- What is there keeps everything but its multiplicity. -/
theorem foldl_join (combine : Nat → Nat → Nat) (ps : List (Point α)) :
    ∀ q : Point α, ps.foldl (fun o p => some (Point.join combine o p)) (some q) =
      some { q with multiplicity := (ps.map Point.multiplicity).foldl combine q.multiplicity } := by
  induction ps with
  | nil => intro q; rfl
  | cons p rest ih => intro q; rw [List.foldl_cons, Point.join, ih]; rfl

variable [Scalar α]

theorem addPoint_eq_upsert (combine : Nat → Nat → Nat) (p : Point α) (ps : List (Point α)) :
    addPoint combine p ps = upsert Point.key p.key (fun q => Point.join combine (some q) p) p ps := by
  induction ps with
  | nil => rfl
  | cons q rest ih => rw [addPoint, upsert, ih]; rfl

/-- **Step.**  Adding a point joins it to the one of its key, and leaves all other keys alone. -/
theorem find?_addPoint (combine : Nat → Nat → Nat) (p : Point α) (ps : List (Point α)) (k : PointKey) :
    (addPoint combine p ps).find? (fun q => q.key = k) =
      if p.key = k then some (Point.join combine (ps.find? fun q => q.key = k) p)
      else ps.find? fun q => q.key = k := by
  rw [addPoint_eq_upsert, find?_upsert]
  · cases ps.find? fun q => q.key = k <;> rfl
  · exact fun q => rfl
  · rfl

/-- The points of one key among others, joined in their order. -/
def joined? (combine : Nat → Nat → Nat) (ps : List (Point α)) (k : PointKey) : Option (Point α) :=
  (ps.filter fun p => p.key = k).foldl (fun o p => some (Point.join combine o p)) none

/-- The first of the points decides all but the multiplicity. -/
theorem joined?_eq_some {combine : Nat → Nat → Nat} {ps : List (Point α)} {k : PointKey} {p : Point α}
    (h : joined? combine ps k = some p) :
    ∃ q rest, ps.filter (fun p => p.key = k) = q :: rest ∧
      p = { q with multiplicity := (rest.map Point.multiplicity).foldl combine q.multiplicity } := by
  unfold joined? at h
  cases hps : ps.filter fun p => p.key = k with
  | nil => rw [hps] at h; exact absurd h (by simp)
  | cons q rest =>
    rw [hps, List.foldl_cons, Point.join, foldl_join] at h
    exact ⟨q, rest, rfl, (Option.some.inj h).symm⟩

/-- There is a point for a key as soon as one was given. -/
theorem joined?_ne_none (combine : Nat → Nat → Nat) {ps : List (Point α)} {p : Point α} (h : p ∈ ps) :
    joined? combine ps p.key ≠ none := by
  have hp : p ∈ ps.filter fun q => q.key = p.key := List.mem_filter.2 ⟨h, by simp⟩
  obtain ⟨q, rest, hps⟩ := List.exists_cons_of_ne_nil (List.ne_nil_of_mem hp)
  rw [joined?, hps, List.foldl_cons, Point.join, foldl_join]
  exact Option.some_ne_none _

end Join

/-! ## Summaries -/

/-- The multiplicities of the points with a key. -/
def multiplicitiesAt (ps : List (Point Float)) (k : PointKey) : Set Nat :=
  { n | ∃ p ∈ ps, p.key = k ∧ p.multiplicity = n }

/-- The points sum up what was added: they have one point for each key, which is the first that was added under this
key but for its multiplicity, the greatest under it; and they are in order. -/
structure Summarizes (added points : List (Point Float)) : Prop where
  sorted : points.Pairwise fun p q => inOrder p.type p.value q.type q.value
  keys : (points.map Point.key).Nodup
  covers : ∀ q ∈ added, ∃ p ∈ points, p.key = q.key
  first : ∀ p ∈ points, ∃ q, added.find? (fun q => q.key = p.key) = some q ∧
    p.type = q.type ∧ p.value = q.value ∧ p.numeric = q.numeric
  greatest : ∀ p ∈ points, IsGreatest (multiplicitiesAt added p.key) p.multiplicity

/-- What was added under a key leaves no choice for its point. -/
theorem Summarizes.mem {added ps qs : List (Point Float)} (hp : Summarizes added ps) (hq : Summarizes added qs)
    {p : Point Float} (h : p ∈ ps) : p ∈ qs := by
  obtain ⟨a, ha, htype, hvalue, hnumeric⟩ := hp.first p h
  have hkey : a.key = p.key := by simpa using List.find?_some ha
  obtain ⟨q, hmem, hqk⟩ := hq.covers a (List.mem_of_find?_eq_some ha)
  rw [hkey] at hqk
  obtain ⟨b, hb, htype', hvalue', hnumeric'⟩ := hq.first q hmem
  rw [hqk, ha] at hb
  obtain rfl := Option.some.inj hb
  have hmultiplicity : p.multiplicity = q.multiplicity := by
    have hgreatest := hq.greatest q hmem
    rw [hqk] at hgreatest
    exact (hp.greatest p h).unique hgreatest
  obtain rfl : p = q := by
    cases p; cases q
    simp_all
  exact hmem

/-- Sorted lists of the same points, no two with one key, are the same list. -/
theorem eq_of_sorted_of_keys {ps qs : List (Point Float)}
    (hps : ps.Pairwise fun p q => inOrder p.type p.value q.type q.value)
    (hqs : qs.Pairwise fun p q => inOrder p.type p.value q.type q.value)
    (hp : (ps.map Point.key).Nodup) (hq : (qs.map Point.key).Nodup) (hmem : ∀ p, p ∈ ps ↔ p ∈ qs) : ps = qs := by
  have hperm : ps.Perm qs :=
    (List.perm_ext_iff_of_nodup (nodup_of_map Point.key hp) (nodup_of_map Point.key hq)).2 hmem
  refine List.Perm.eq_of_pairwise (fun p q hpm hqm hpq hqp => ?_) hps hqs hperm
  -- neither stands before the other, so that they have one place and one key
  have hplace : p.place = q.place := Place.le_antisymm hpq hqp
  have hkey : p.key = q.key := congrArg Place.key hplace
  exact List.inj_on_of_nodup_map hq ((hmem p).1 hpm) hqm hkey

/-- **Only one list sums up what was added.** -/
theorem Summarizes.unique {added ps qs : List (Point Float)} (hp : Summarizes added ps)
    (hq : Summarizes added qs) : ps = qs :=
  eq_of_sorted_of_keys hp.sorted hq.sorted hp.keys hq.keys fun _ => ⟨hp.mem hq, hq.mem hp⟩

theorem isGreatest_foldl_max (ns : List Nat) : ∀ n, IsGreatest { m | m ∈ n :: ns } (ns.foldl Nat.max n) := by
  induction ns with
  | nil => intro n; simp [IsGreatest, upperBounds]
  | cons m rest ih =>
    intro n
    obtain ⟨hmem, hle⟩ := ih (max n m)
    have hmax : max n m ≤ rest.foldl Nat.max (max n m) := hle List.mem_cons_self
    refine ⟨?_, fun k hk => ?_⟩
    · rcases List.mem_cons.1 hmem with h | h
      · rcases Nat.le_total n m with hnm | hmn
        · exact List.mem_cons_of_mem n (List.mem_cons.2 (Or.inl (h.trans (Nat.max_eq_right hnm))))
        · exact List.mem_cons.2 (Or.inl (h.trans (Nat.max_eq_left hmn)))
      · exact List.mem_cons_of_mem n (List.mem_cons_of_mem m h)
    · rcases List.mem_cons.1 hk with rfl | hk
      · exact (Nat.le_max_left k m).trans hmax
      · rcases List.mem_cons.1 hk with rfl | hk
        · exact (Nat.le_max_right n k).trans hmax
        · exact hle (List.mem_cons_of_mem _ hk)

/-- Where a search for a key finds what was added under it, the keys are those of what was added. -/
theorem mem_keys_iff_of_find? {combine : Nat → Nat → Nat} {added points : List (Point Float)}
    (hkeys : (points.map Point.key).Nodup)
    (hfind : ∀ k, points.find? (fun p => p.key = k) = joined? combine added k) (k : PointKey) :
    k ∈ points.map Point.key ↔ k ∈ added.map Point.key := by
  constructor
  · intro hk
    obtain ⟨p, hp, rfl⟩ := List.mem_map.1 hk
    obtain ⟨q, rest, hfilter, -⟩ :=
      joined?_eq_some ((hfind p.key).symm.trans (find?_key_of_nodup Point.key hkeys hp))
    have hq : q ∈ added.filter fun q => q.key = p.key := hfilter ▸ List.mem_cons_self
    exact List.mem_map.2 ⟨q, (List.mem_filter.1 hq).1, by simpa using (List.mem_filter.1 hq).2⟩
  · intro hk
    obtain ⟨q, hq, rfl⟩ := List.mem_map.1 hk
    obtain ⟨p, hp⟩ := Option.ne_none_iff_exists'.1 (joined?_ne_none combine hq)
    rw [← hfind, find?_eq_some_iff_of_nodup hkeys] at hp
    exact List.mem_map.2 ⟨p, hp⟩

/-- A sorted list without equal keys, in which a search for a key finds what was added under it, is a
summary. -/
theorem summarizes_of_find? {added points : List (Point Float)}
    (hsorted : points.Pairwise fun p q => inOrder p.type p.value q.type q.value)
    (hkeys : (points.map Point.key).Nodup)
    (hfind : ∀ k, points.find? (fun p => p.key = k) = joined? Nat.max added k) : Summarizes added points := by
  have hjoined : ∀ p ∈ points, ∃ q rest, added.filter (fun q => q.key = p.key) = q :: rest ∧
      p = { q with multiplicity := (rest.map Point.multiplicity).foldl Nat.max q.multiplicity } := fun p hp =>
    joined?_eq_some ((hfind p.key).symm.trans (find?_key_of_nodup Point.key hkeys hp))
  refine ⟨hsorted, hkeys, fun q hq => ?_, fun p hp => ?_, fun p hp => ?_⟩
  · exact List.mem_map.1 ((mem_keys_iff_of_find? hkeys hfind q.key).2 (List.mem_map_of_mem hq))
  · obtain ⟨q, rest, hfilter, heq⟩ := hjoined p hp
    refine ⟨q, ?_, by rw [heq], by rw [heq], by rw [heq]⟩
    rw [← List.head?_filter, hfilter]
    rfl
  · obtain ⟨q, rest, hfilter, heq⟩ := hjoined p hp
    have hset : multiplicitiesAt added p.key = { n | n ∈ q.multiplicity :: rest.map Point.multiplicity } := by
      rw [← List.map_cons (f := Point.multiplicity), ← hfilter]
      ext n
      simp [multiplicitiesAt, and_assoc]
    rw [hset, heq]
    exact isGreatest_foldl_max _ _

/-! ## Sessions -/

/-- What a search for a key finds after a merge. -/
theorem find?_mergePoints {points : List (Point Float)} (extra : List (Point Float)) (k : PointKey)
    (hkeys : (points.map Point.key).Nodup) :
    (mergePoints points extra).find? (fun p => p.key = k) =
      (extra.filter fun p => p.key = k).foldl (fun o p => some (Point.join Nat.max o p))
        (points.find? fun p => p.key = k) := by
  have hperm := List.mergeSort_perm (extra.foldl (fun ps p => addPoint Nat.max p ps) points)
    fun p q => inOrder p.type p.value q.type q.value
  have hnodup : ((extra.foldl (fun ps p => addPoint Nat.max p ps) points).map Point.key).Nodup :=
    (hperm.map Point.key).nodup_iff.1 (keys_mergePoints_nodup extra hkeys)
  rw [mergePoints, sortPoints, find?_perm hperm hnodup]
  exact find?_foldl (find?_addPoint Nat.max) k extra points

/-- The points after some steps, each of which merges more points into those there are. -/
def session (steps : List (List (Point Float))) : List (Point Float) := steps.foldl mergePoints []

theorem session_concat (steps : List (List (Point Float))) (extra : List (Point Float)) :
    session (steps ++ [extra]) = mergePoints (session steps) extra := by
  rw [session, List.foldl_append]
  rfl

/-- **Run.**  After any steps no key occurs twice, and a search for a key finds the points added under it, joined. -/
theorem find?_session (steps : List (List (Point Float))) :
    ((session steps).map Point.key).Nodup ∧
      ∀ k, (session steps).find? (fun p => p.key = k) = joined? Nat.max steps.flatten k := by
  induction steps using List.reverseRecOn with
  | nil => exact ⟨List.nodup_nil, fun k => rfl⟩
  | append_singleton steps extra ih =>
    obtain ⟨hkeys, hfind⟩ := ih
    rw [session_concat]
    refine ⟨keys_mergePoints_nodup extra hkeys, fun k => ?_⟩
    rw [find?_mergePoints extra k hkeys, hfind, joined?, joined?, List.flatten_append, List.filter_append,
      List.foldl_append, List.flatten_singleton]

theorem session_sorted (steps : List (List (Point Float))) :
    (session steps).Pairwise fun p q => inOrder p.type p.value q.type q.value := by
  rcases List.eq_nil_or_concat steps with rfl | ⟨before, extra, rfl⟩
  · exact List.Pairwise.nil
  · rw [List.concat_eq_append, session_concat]
    exact List.pairwise_map.1 (places_sortPoints_sorted _)

theorem Summarizes.session (steps : List (List (Point Float))) :
    Summarizes steps.flatten (SignChart.session steps) :=
  summarizes_of_find? (session_sorted steps) (find?_session steps).1 (find?_session steps).2

/-- Points that were added before do not change what is to be summed up. -/
theorem Summarizes.of_again {added extra points : List (Point Float)} (hagain : ∀ p ∈ extra, p ∈ added)
    (h : Summarizes (added ++ extra) points) : Summarizes added points := by
  have hmem : ∀ p, p ∈ added ++ extra ↔ p ∈ added := fun p =>
    List.mem_append.trans (or_iff_left_of_imp (hagain p))
  refine ⟨h.sorted, h.keys, fun q hq => h.covers q (List.mem_append_left _ hq), fun p hp => ?_, fun p hp => ?_⟩
  · obtain ⟨q, hq, hrest⟩ := h.first p hp
    have hkey : q.key = p.key := by simpa using List.find?_some hq
    refine ⟨q, ?_, hrest⟩
    rw [List.find?_append] at hq
    -- the key was added before, so that it is found there
    have hbefore : added.find? (fun q => q.key = p.key) ≠ none := fun hnone =>
      List.find?_eq_none.1 hnone q ((hmem q).1 (List.mem_append.2 (by
        rw [hnone, Option.none_or] at hq
        exact Or.inr (List.mem_of_find?_eq_some hq)))) (by simpa using hkey)
    obtain ⟨r, hr⟩ := Option.ne_none_iff_exists'.1 hbefore
    rw [hr] at hq ⊢
    exact hq
  · have hset : multiplicitiesAt (added ++ extra) p.key = multiplicitiesAt added p.key := by
      ext n
      simp only [multiplicitiesAt, hmem]
    rw [← hset]
    exact h.greatest p hp

/-- **Sessions of points.**  After every step the points sum up all that was added so far.  So they depend only on what
was added one after another, not on how this was cut into steps, and adding points again changes nothing. -/
theorem summarizes_session (steps : List (List (Point Float))) :
    Summarizes steps.flatten (session steps) ∧
      (∀ cuts : List (List (Point Float)), cuts.flatten = steps.flatten → session cuts = session steps) ∧
      ∀ again : List (Point Float), (∀ p ∈ again, p ∈ steps.flatten) →
        mergePoints (session steps) again = session steps := by
  refine ⟨.session steps, fun cuts hcuts => ?_, fun again hagain => ?_⟩
  · have h := Summarizes.session cuts
    rw [hcuts] at h
    exact h.unique (.session steps)
  · have h := Summarizes.session (steps ++ [again])
    rw [session_concat, List.flatten_append, List.flatten_singleton] at h
    exact (h.of_again hagain).unique (.session steps)

/-- `summarizes_session` at a zero that is added again with a greater multiplicity, next to another one. -/
theorem summarizes_session_doubled :
    let zero : Point Float := ⟨.zero, 1.0, 1, false⟩
    let double : Point Float := ⟨.zero, 1.0, 2, true⟩
    let other : Point Float := ⟨.zero, -3.0, 1, true⟩
    Summarizes [zero, double, other] (session [[zero], [double, other]]) ∧
      session [[zero, double], [], [other]] = session [[zero], [double, other]] ∧
      mergePoints (session [[zero], [double, other]]) [other, zero] = session [[zero], [double, other]] := by
  intro zero double other
  obtain ⟨hsum, hcuts, hagain⟩ := summarizes_session [[zero], [double, other]]
  exact ⟨hsum, hcuts [[zero, double], [], [other]] rfl, hagain [other, zero] (by simp)⟩

end SignChart
