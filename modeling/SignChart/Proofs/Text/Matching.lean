/-
  Groups from both ends.

  A group is read forward from its opening delimiter or backward from its closing one, and what is open is counted from
  opposite ends.  All the same both readings find the same groups (`groups_dual`), however they are nested and whatever
  around them is never closed.

  1. **Depth.**  The depth is the surplus of opening delimiters over closing ones in what was read.  The search for an
     end stops at the closing delimiter that would bring it below zero (`untilClose_eq_some_iff`), and finds
     none if it stays above (`untilClose_eq_none_iff`).

  2. **Groups.**  So a group that is closed is a balanced content between two delimiters.  This is what is read forward
     (`forward?_closed_iff`), and also backward (`endingAfter_closed_iff`): that reads the reversed text with the
     delimiters exchanged, and a balanced text stays balanced then (`BalancedIn.reverse`).

  3. **Bytes.**  `Encloses` tells the two delimiters by their places in the text, and does not ask which of them
     reading started at.
-/
import Mathlib
import SignChart.Text.Group

namespace SignChart

/-! ## Depth -/

/-- How many more opening delimiters than closing ones a text has. -/
def surplus (opening closing : Char) (t : Text) : Int := t.count opening - t.count closing

/-- No beginning of the text has more closing delimiters than opening ones, and all of it has as many. -/
structure BalancedIn (opening closing : Char) (t : Text) : Prop where
  beginning : ∀ p, p <+: t → 0 ≤ surplus opening closing p
  total : surplus opening closing t = 0

section
variable {o c x : Char} {d : Nat} {p r s t before : Text}

@[simp] theorem surplus_nil (o c : Char) : surplus o c [] = 0 := rfl

theorem surplus_cons (o c x : Char) (t : Text) :
    surplus o c (x :: t) = surplus o c [x] + surplus o c t := by
  simp only [surplus, List.count_cons, List.count_nil]
  omega

theorem surplus_append (o c : Char) (s t : Text) : surplus o c (s ++ t) = surplus o c s + surplus o c t := by
  simp only [surplus, List.count_append]
  omega

theorem surplus_opening (hne : o ≠ c) : surplus o c [o] = 1 := by
  simp [surplus, hne]

theorem surplus_closing (hne : o ≠ c) : surplus o c [c] = -1 := by
  simp [surplus, hne.symm]

/-- From the right, with the delimiters exchanged, a text has the same surplus with the other sign. -/
theorem surplus_reverse (o c : Char) (t : Text) : surplus c o t.reverse = -surplus o c t := by
  simp only [surplus, List.count_reverse]
  omega

/-- Seen from the right, with the delimiters exchanged, a balanced text is balanced. -/
theorem BalancedIn.reverse (h : BalancedIn o c t) : BalancedIn c o t.reverse := by
  refine ⟨fun p hp => ?_, by rw [surplus_reverse, h.total]; rfl⟩
  -- what stands in front of an end of the text is a beginning of it
  obtain ⟨q, hq⟩ := hp
  have htext : t = q.reverse ++ p.reverse := by
    rw [← List.reverse_append, hq, List.reverse_reverse]
  have hfront := h.beginning q.reverse ⟨p.reverse, htext.symm⟩
  have htotal := h.total
  have hp := surplus_reverse c o p
  rw [htext, surplus_append, hp] at htotal
  omega

theorem balancedIn_reverse_iff : BalancedIn c o t.reverse ↔ BalancedIn o c t :=
  ⟨fun h => t.reverse_reverse ▸ h.reverse, .reverse⟩

/-- Where the search goes on, the depth counts the surplus. -/
theorem depthAfter_eq (hne : o ≠ c) (hgo : ¬ (x ≠ o ∧ x = c ∧ d = 0)) :
    (depthAfter o c d x : Int) = d + surplus o c [x] := by
  unfold depthAfter
  by_cases ho : x = o
  · subst ho
    rw [if_pos rfl, surplus_opening hne]
    omega
  by_cases hc : x = c
  · subst hc
    have hd : d ≠ 0 := fun hd => hgo ⟨ho, rfl, hd⟩
    rw [if_neg ho, if_pos rfl, surplus_closing hne]
    omega
  · rw [if_neg ho, if_neg hc]
    simp [surplus, ho, hc]

theorem forall_prefix_cons {P : Text → Prop} :
    (∀ p, p <+: x :: t → P p) ↔ P [] ∧ ∀ p, p <+: t → P (x :: p) := by
  constructor
  · exact fun h => ⟨h [] List.nil_prefix, fun p hp => h _ ((List.prefix_cons_inj x).2 hp)⟩
  · rintro ⟨hnil, hcons⟩ p hp
    rcases List.prefix_cons_iff.1 hp with rfl | ⟨q, rfl, hq⟩
    · exact hnil
    · exact hcons q hq

/-- A character more keeps the depth of every beginning. -/
theorem forall_depth_cons (hne : o ≠ c) (hgo : ¬ (x ≠ o ∧ x = c ∧ d = 0)) :
    (∀ p, p <+: x :: t → 0 ≤ d + surplus o c p) ↔
      ∀ p, p <+: t → 0 ≤ (depthAfter o c d x : Int) + surplus o c p := by
  rw [forall_prefix_cons, depthAfter_eq hne hgo]
  have hnil : (0 : Int) ≤ d + surplus o c [] := by rw [surplus_nil]; omega
  refine ⟨fun h p hp => ?_, fun h => ⟨hnil, fun p hp => ?_⟩⟩
  · have := h.2 p hp
    rw [surplus_cons] at this
    omega
  · have := h p hp
    rw [surplus_cons]
    omega

/-- **What is read.**  The search ends at the first closing delimiter behind which fewer groups are open than in front
of it, that is, where the depth comes back to zero in front of a closing delimiter and was never below it. -/
theorem untilClose_eq_some_iff (hne : o ≠ c) : untilClose o c d t = some (s, r) ↔
    t = s ++ c :: r ∧ (∀ p, p <+: s → 0 ≤ d + surplus o c p) ∧ d + surplus o c s = 0 := by
  induction t generalizing d s with
  | nil => simp [untilClose]
  | cons x t ih =>
    rw [untilClose_cons]
    by_cases hend : x ≠ o ∧ x = c ∧ d = 0
    · obtain ⟨_, rfl, rfl⟩ := hend
      rw [if_pos ⟨hne.symm, rfl, rfl⟩]
      constructor
      · rintro ⟨⟩
        exact ⟨rfl, fun p hp => by rw [List.prefix_nil.1 hp, surplus_nil]; omega, by simp⟩
      · rintro ⟨htext, hdepth, -⟩
        cases s with
        | nil => rw [(List.cons.inj htext).2]
        | cons y s =>
          -- the delimiter itself would be read with a depth below zero
          obtain rfl := (List.cons.inj htext).1
          have := hdepth [x] ⟨s, rfl⟩
          rw [surplus_closing hne] at this
          omega
    · rw [if_neg hend, Option.map_eq_some_iff]
      constructor
      · rintro ⟨⟨s', r'⟩, hread, ⟨⟩⟩
        obtain ⟨rfl, hdepth, htotal⟩ := ih.1 hread
        refine ⟨rfl, (forall_depth_cons hne hend).2 hdepth, ?_⟩
        rw [depthAfter_eq hne hend] at htotal
        dsimp only at htotal ⊢
        rw [surplus_cons]
        omega
      · rintro ⟨htext, hdepth, htotal⟩
        cases s with
        | nil =>
          obtain rfl := (List.cons.inj htext).1
          rw [surplus_nil] at htotal
          exact absurd ⟨hne.symm, rfl, by omega⟩ hend
        | cons y s =>
          obtain ⟨rfl, rfl⟩ := List.cons.inj htext
          refine ⟨(s, r), ih.2 ⟨rfl, (forall_depth_cons hne hend).1 hdepth, ?_⟩, rfl⟩
          rw [depthAfter_eq hne hend]
          rw [surplus_cons] at htotal
          omega

/-- **What is not closed.**  The search finds no end exactly when the depth never goes below zero. -/
theorem untilClose_eq_none_iff (hne : o ≠ c) :
    untilClose o c d t = none ↔ ∀ p, p <+: t → 0 ≤ d + surplus o c p := by
  induction t generalizing d with
  | nil =>
    refine ⟨fun _ p hp => ?_, fun _ => rfl⟩
    rw [List.prefix_nil.1 hp, surplus_nil]
    omega
  | cons x t ih =>
    rw [untilClose_cons]
    by_cases hend : x ≠ o ∧ x = c ∧ d = 0
    · obtain ⟨_, rfl, rfl⟩ := hend
      rw [if_pos ⟨hne.symm, rfl, rfl⟩]
      refine ⟨fun h => absurd h (by simp), fun h => ?_⟩
      have := h [x] ⟨t, rfl⟩
      rw [surplus_closing hne] at this
      omega
    · rw [if_neg hend, Option.map_eq_none_iff, ih, forall_depth_cons hne hend]

/-! ## Groups -/

theorem balancedIn_iff : BalancedIn o c s ↔
    (∀ p, p <+: s → 0 ≤ ((0 : Nat) : Int) + surplus o c p) ∧ ((0 : Nat) : Int) + surplus o c s = 0 := by
  simp only [Nat.cast_zero, Int.zero_add]
  exact ⟨fun h => ⟨h.beginning, h.total⟩, fun h => ⟨h.1, h.2⟩⟩

/-- Forward, a closed group is a balanced content between its delimiters. -/
theorem forward?_closed_iff (hne : o ≠ c) :
    Group.forward? o c t = some ⟨s, r, true⟩ ↔ t = o :: (s ++ c :: r) ∧ BalancedIn o c s := by
  cases t with
  | nil => simp [Group.forward?]
  | cons x t =>
    rw [Group.forward?, List.cons.injEq]
    by_cases hx : x = o
    · rw [if_pos hx, balancedIn_iff, and_assoc, ← untilClose_eq_some_iff hne]
      cases hread : untilClose o c 0 t with
      | none => simp
      | some p => simp [hx, Prod.ext_iff]
    · simp [hx]

/-- A group that is not closed reaches to the end, and inside it the depth never goes below zero. -/
theorem forward?_open_iff (hne : o ≠ c) : Group.forward? o c t = some ⟨s, r, false⟩ ↔
    t = o :: s ∧ r = [] ∧ ∀ p, p <+: s → 0 ≤ surplus o c p := by
  cases t with
  | nil => simp [Group.forward?]
  | cons x t =>
    have hopen := untilClose_eq_none_iff hne (d := 0) (t := t)
    simp only [Nat.cast_zero, Int.zero_add] at hopen
    rw [Group.forward?, List.cons.injEq]
    by_cases hx : x = o
    · rw [if_pos hx]
      cases hread : untilClose o c 0 t with
      | none =>
        rw [hread] at hopen
        simp only [Option.some.injEq, Group.mk.injEq, and_true, hx, true_and]
        constructor
        · rintro ⟨rfl, rfl⟩
          exact ⟨rfl, rfl, hopen.1 rfl⟩
        · rintro ⟨rfl, rfl, -⟩
          exact ⟨rfl, rfl⟩
      | some q =>
        refine ⟨fun h => absurd h (by simp), ?_⟩
        rintro ⟨⟨-, rfl⟩, -, hdepth⟩
        exact absurd (hread.symm.trans (hopen.2 hdepth)) (by simp)
    · simp [hx]

/-- Backward the same group is found, from its other delimiter. -/
theorem endingAfter_closed_iff (hne : o ≠ c) :
    Group.endingAfter o c before = ⟨s, r, true⟩ ↔ before = r ++ o :: s ∧ BalancedIn o c s := by
  have hread : untilClose c o 0 before.reverse = some (s.reverse, r.reverse) ↔
      before = r ++ o :: s ∧ BalancedIn o c s := by
    rw [untilClose_eq_some_iff hne.symm, ← balancedIn_iff, balancedIn_reverse_iff, List.reverse_eq_iff]
    simp
  rw [← hread, Group.endingAfter]
  cases untilClose c o 0 before.reverse with
  | none => simp
  | some p => simp [Prod.ext_iff, List.reverse_eq_iff]

/-- A group that is not closed backward reaches to the beginning. -/
theorem endingAfter_open_iff (hne : o ≠ c) : Group.endingAfter o c before = ⟨s, r, false⟩ ↔
    before = s ∧ r = [] ∧ ∀ q, q <:+ s → surplus o c q ≤ 0 := by
  have hread : untilClose c o 0 before.reverse = none ↔ ∀ q, q <:+ before → surplus o c q ≤ 0 := by
    rw [untilClose_eq_none_iff hne.symm]
    simp only [Nat.cast_zero, Int.zero_add]
    refine ⟨fun h q hq => ?_, fun h p hp => ?_⟩
    · have := h q.reverse (List.reverse_prefix.2 hq)
      rw [surplus_reverse] at this
      omega
    · have := h p.reverse (List.reverse_prefix.1 (by rwa [List.reverse_reverse]))
      have hp := surplus_reverse c o p
      omega
  rw [Group.endingAfter]
  cases hcase : untilClose c o 0 before.reverse with
  | none =>
    have hdepth := hread.1 hcase
    simp only [Group.mk.injEq, and_true]
    constructor
    · rintro ⟨rfl, rfl⟩
      exact ⟨rfl, rfl, hdepth⟩
    · rintro ⟨rfl, rfl, -⟩
      exact ⟨rfl, rfl⟩
  | some p =>
    refine ⟨fun h => absurd h (by simp), ?_⟩
    rintro ⟨rfl, -, hdepth⟩
    exact absurd (hcase.symm.trans (hread.2 hdepth)) (by simp)

/-! ## Bytes -/

/-- At byte `start` of the text a closed group with this content is read, up to byte `stop`. -/
def ClosedGroup (t : Text) (start : Nat) (o c : Char) (dir : Direction) (content : Text) (stop : Nat) : Prop :=
  ∃ beyond, Group.find? t start o c dir = some (⟨content, beyond, true⟩, stop)

/-- The delimiters at the bytes `i` and `j` of the text have a balanced content between them. -/
def Encloses (o c : Char) (t : Text) (i j : Nat) (content : Text) : Prop :=
  ∃ before behind, t = before ++ o :: (content ++ c :: behind) ∧ Text.byteSize before = i ∧
    Text.byteSize (before ++ o :: content) = j ∧ BalancedIn o c content

variable {i j e : Nat} {g : Group}

theorem find?_forward_iff : Group.find? t i o c .forward = some (g, e) ↔ ∃ before rest, t = before ++ rest ∧
    Text.byteSize before = i ∧ Group.forward? o c rest = some g ∧ Text.byteSize t - Text.byteSize g.beyond = e := by
  simp only [Group.find?, Group.at?, Option.bind_eq_bind, Option.bind_eq_some_iff, Text.splitAtByte_eq_some_iff,
    Option.pure_def, Option.some.injEq, Prod.mk.injEq, Prod.exists]
  constructor
  · rintro ⟨before, rest, ⟨ht, hi⟩, g', hg, rfl, he⟩
    exact ⟨before, rest, ht, hi, hg, he⟩
  · rintro ⟨before, rest, ht, hi, hg, he⟩
    exact ⟨before, rest, ⟨ht, hi⟩, g, hg, rfl, he⟩

theorem find?_backward_iff : Group.find? t j o c .backward = some (g, e) ↔ ∃ before behind,
    t = before ++ c :: behind ∧ Text.byteSize before = j ∧ Group.endingAfter o c before = g ∧
      Text.byteSize g.beyond = e := by
  simp only [Group.find?, Group.at?, Option.bind_eq_bind, Option.bind_eq_some_iff, Text.splitAtByte_eq_some_iff,
    Option.pure_def, Option.some.injEq, Prod.mk.injEq, Prod.exists, Option.ite_none_right_eq_some]
  constructor
  · rintro ⟨before, rest, ⟨ht, hj⟩, g', ⟨hhead, hg⟩, rfl, he⟩
    obtain ⟨behind, rfl⟩ := List.head?_eq_some_iff.1 hhead
    exact ⟨before, behind, ht, hj, hg, he⟩
  · rintro ⟨before, behind, ht, hj, hg, he⟩
    exact ⟨before, c :: behind, ⟨ht, hj⟩, g, ⟨rfl, hg⟩, rfl, he⟩

theorem closedGroup_forward_iff (hne : o ≠ c) (hc : c.utf8Size = 1) :
    ClosedGroup t i o c .forward s (j + 1) ↔ Encloses o c t i j s := by
  constructor
  · rintro ⟨behind, h⟩
    obtain ⟨before, rest, rfl, hi, hg, he⟩ := find?_forward_iff.1 h
    obtain ⟨rfl, hs⟩ := (forward?_closed_iff hne).1 hg
    refine ⟨before, behind, rfl, hi, ?_, hs⟩
    simp only [Text.byteSize_append, Text.byteSize_cons] at he ⊢
    omega
  · rintro ⟨before, behind, rfl, hi, hj, hs⟩
    refine ⟨behind, find?_forward_iff.2 ⟨before, _, rfl, hi, (forward?_closed_iff hne).2 ⟨rfl, hs⟩, ?_⟩⟩
    simp only [Text.byteSize_append, Text.byteSize_cons] at hj ⊢
    omega

theorem closedGroup_backward_iff (hne : o ≠ c) :
    ClosedGroup t j o c .backward s i ↔ Encloses o c t i j s := by
  constructor
  · rintro ⟨outer, h⟩
    obtain ⟨before, behind, rfl, hj, hg, hi⟩ := find?_backward_iff.1 h
    obtain ⟨rfl, hs⟩ := (endingAfter_closed_iff hne).1 hg
    exact ⟨outer, behind, by simp, hi, hj, hs⟩
  · rintro ⟨outer, behind, rfl, hi, hj, hs⟩
    exact ⟨outer, find?_backward_iff.2 ⟨outer ++ o :: s, behind, by simp, hj, (endingAfter_closed_iff hne).2 ⟨rfl, hs⟩, hi⟩⟩

/-- How groups are read from the bytes `i` and `j` of a text, forward from the one and backward from the other. -/
structure Dual (o c : Char) (t : Text) (i j : Nat) : Prop where
  /-- The same closed groups are read from both ends, with the same content. -/
  closed : ∀ s, ClosedGroup t i o c .forward s (j + 1) ↔ ClosedGroup t j o c .backward s i
  balanced : ∀ s, ClosedGroup t i o c .forward s (j + 1) → BalancedIn o c s
  /-- A group is not closed exactly when all that can be read of it has more opening delimiters. -/
  unclosed : (∃ s beyond e, Group.find? t i o c .forward = some (⟨s, beyond, false⟩, e)) ↔
    ∃ before rest, t = before ++ rest ∧ Text.byteSize before = i ∧ rest ≠ [] ∧
      ∀ p, p <+: rest → p ≠ [] → 0 < surplus o c p
  /-- What is read forward never has more closing delimiters than opening ones. -/
  forward : ∀ g e, Group.find? t i o c .forward = some (g, e) → ∃ before read behind,
    t = before ++ (read ++ behind) ∧ Text.byteSize before = i ∧ Text.byteSize (before ++ read) = e ∧
      ∀ p, p <+: read → 0 ≤ surplus o c p
  /-- What is read backward never has more opening delimiters than closing ones. -/
  backward : ∀ g e, Group.find? t j o c .backward = some (g, e) → ∃ before read behind,
    t = before ++ (read ++ behind) ∧ Text.byteSize before = e ∧ Text.byteSize (before ++ read) = j + 1 ∧
      ∀ q, q <:+ read → surplus o c q ≤ 0

/-- One more opening delimiter in front. -/
theorem forall_surplus_opening (hne : o ≠ c) :
    (∀ p, p <+: o :: s → p ≠ [] → 0 < surplus o c p) ↔ ∀ p, p <+: s → 0 ≤ surplus o c p := by
  rw [forall_prefix_cons]
  refine ⟨fun h p hp => ?_, fun h => ⟨fun hnil => absurd rfl hnil, fun p hp _ => ?_⟩⟩
  · have := h.2 p hp (List.cons_ne_nil o p)
    rw [surplus_cons, surplus_opening hne] at this
    omega
  · have := h p hp
    rw [surplus_cons, surplus_opening hne]
    omega

/-- A balanced text between its delimiters is balanced. -/
theorem BalancedIn.group (hne : o ≠ c) (h : BalancedIn o c s) : BalancedIn o c (o :: (s ++ [c])) := by
  have htotal : surplus o c (o :: (s ++ [c])) = 0 := by
    rw [surplus_cons, surplus_append, surplus_opening hne, surplus_closing hne, h.total]
    rfl
  refine ⟨forall_prefix_cons.2 ⟨Int.le_refl 0, fun p hp => ?_⟩, htotal⟩
  rcases List.prefix_concat_iff.1 hp with rfl | hp
  · exact htotal.ge
  · have := h.beginning p hp
    rw [surplus_cons, surplus_opening hne]
    omega

/-- No end of a balanced text has more opening delimiters than closing ones. -/
theorem BalancedIn.ending (h : BalancedIn o c t) : ∀ q, q <:+ t → surplus o c q ≤ 0 := by
  rintro q ⟨p, rfl⟩
  have hfront := h.beginning p (List.prefix_append p q)
  have htotal := h.total
  rw [surplus_append] at htotal
  omega

/-- **The depth, forward.** -/
theorem find?_forward_surplus (hne : o ≠ c) (h : Group.find? t i o c .forward = some (g, e)) :
    ∃ before read behind, t = before ++ (read ++ behind) ∧ Text.byteSize before = i ∧
      Text.byteSize (before ++ read) = e ∧ ∀ p, p <+: read → 0 ≤ surplus o c p := by
  obtain ⟨before, rest, rfl, hi, hg, he⟩ := find?_forward_iff.1 h
  obtain ⟨content, beyond, closed⟩ := g
  cases closed with
  | true =>
    obtain ⟨rfl, hs⟩ := (forward?_closed_iff hne).1 hg
    refine ⟨before, o :: (content ++ [c]), beyond, by simp, hi, ?_, (hs.group hne).beginning⟩
    simp only [Text.byteSize_append, Text.byteSize_cons, Text.byteSize_nil] at he ⊢
    omega
  | false =>
    obtain ⟨rfl, rfl, hdepth⟩ := (forward?_open_iff hne).1 hg
    refine ⟨before, o :: content, [], by simp, hi, he, forall_prefix_cons.2 ⟨Int.le_refl 0, fun p hp => ?_⟩⟩
    have := hdepth p hp
    rw [surplus_cons, surplus_opening hne]
    omega

/-- **The depth, backward.** -/
theorem find?_backward_surplus (hne : o ≠ c) (hc : c.utf8Size = 1)
    (h : Group.find? t j o c .backward = some (g, e)) :
    ∃ before read behind, t = before ++ (read ++ behind) ∧ Text.byteSize before = e ∧
      Text.byteSize (before ++ read) = j + 1 ∧ ∀ q, q <:+ read → surplus o c q ≤ 0 := by
  obtain ⟨before, behind, rfl, hj, hg, he⟩ := find?_backward_iff.1 h
  obtain ⟨content, beyond, closed⟩ := g
  cases closed with
  | true =>
    obtain ⟨rfl, hs⟩ := (endingAfter_closed_iff hne).1 hg
    refine ⟨beyond, o :: (content ++ [c]), behind, by simp, he, ?_, (hs.group hne).ending⟩
    simp only [Text.byteSize_append, Text.byteSize_cons, Text.byteSize_nil] at hj ⊢
    omega
  | false =>
    obtain ⟨rfl, rfl, hdepth⟩ := (endingAfter_open_iff hne).1 hg
    refine ⟨[], before ++ [c], behind, by simp, he, ?_, fun q hq => ?_⟩
    · simp only [List.nil_append, Text.byteSize_append, Text.byteSize_cons, Text.byteSize_nil]
      omega
    · rcases List.suffix_concat_iff.1 hq with rfl | ⟨q', rfl, hq'⟩
      · exact Int.le_refl 0
      · have := hdepth q' hq'
        rw [surplus_append, surplus_closing hne]
        omega

/-- **No end.**  A group is not closed exactly when all that can be read of it has more opening delimiters than
closing ones. -/
theorem find?_unclosed_iff (hne : o ≠ c) :
    (∃ s beyond e, Group.find? t i o c .forward = some (⟨s, beyond, false⟩, e)) ↔
      ∃ before rest, t = before ++ rest ∧ Text.byteSize before = i ∧ rest ≠ [] ∧
        ∀ p, p <+: rest → p ≠ [] → 0 < surplus o c p := by
  constructor
  · rintro ⟨s, beyond, e, h⟩
    obtain ⟨before, rest, ht, hi, hg, -⟩ := find?_forward_iff.1 h
    obtain ⟨rfl, -, hdepth⟩ := (forward?_open_iff hne).1 hg
    exact ⟨before, _, ht, hi, List.cons_ne_nil o s, (forall_surplus_opening hne).2 hdepth⟩
  · rintro ⟨before, rest, ht, hi, hrest, hdepth⟩
    obtain ⟨x, s, rfl⟩ := List.exists_cons_of_ne_nil hrest
    -- only the opening delimiter has a surplus of its own
    have hx : x = o := by
      have hfirst := hdepth [x] ⟨s, rfl⟩ (List.cons_ne_nil x [])
      by_contra hx
      simp [surplus, List.count_cons, hx] at hfirst
      omega
    subst hx
    have hg := (forward?_open_iff hne).2 ⟨rfl, rfl, (forall_surplus_opening hne).1 hdepth⟩
    exact ⟨s, [], _, find?_forward_iff.2 ⟨before, _, ht, hi, hg, rfl⟩⟩

theorem utf8Size_of_ascii (h : c.toNat < 128) : c.utf8Size = 1 := by
  rw [Char.utf8Size_eq_one_iff, UInt32.le_iff_toNat_le]
  exact Nat.le_of_lt_succ h

/-- **Duality.**  Forward and backward the same groups are read. -/
theorem groups_dual (hne : o ≠ c) (hc : c.toNat < 128) (t : Text) (i j : Nat) : Dual o c t i j where
  closed := fun _ =>
    (closedGroup_forward_iff hne (utf8Size_of_ascii hc)).trans (closedGroup_backward_iff hne).symm
  balanced := fun _ h => by
    obtain ⟨_, _, -, -, -, hs⟩ := (closedGroup_forward_iff hne (utf8Size_of_ascii hc)).1 h
    exact hs
  unclosed := find?_unclosed_iff hne
  forward := fun _ _ => find?_forward_surplus hne
  backward := fun _ _ => find?_backward_surplus hne (utf8Size_of_ascii hc)

/-- `groups_dual` at two groups, one inside the other. -/
theorem groups_dual_nested : '(' ≠ ')' ∧ (')').toNat < 128 ∧ Dual '(' ')' "2*(x-(1))^3".toList 2 8 ∧
    ClosedGroup "2*(x-(1))^3".toList 8 '(' ')' .backward "x-(1)".toList 2 := by
  have hdual := groups_dual (o := '(') (c := ')') (by decide) (by decide) "2*(x-(1))^3".toList 2 8
  exact ⟨by decide, by decide, hdual, (hdual.closed _).1 ⟨"^3".toList, by decide⟩⟩

end

end SignChart
