/-
  Nesting of parentheses.

  `nesting` counts the parentheses that are open behind a text.  A text that leaves the count as it was, and
  never closes what it did not open, is `Balanced`.

  1. **Reading to the end of a group.**  A search for the closing parenthesis passes over whatever returns to
     the depth at which it began (`untilClose_append`), so a balanced text in parentheses is read as one group
     (`paren?_of_balanced`).

  2. **Cutting.**  Inside a group and without separators nothing is cut (`cutFrom_of_nesting`), and what a text
     in front of another holds takes no cut away from it (`cutFrom_suffix`).
-/
import Mathlib
import SignChart.Text.Group

namespace SignChart

/-- The number of parentheses that are open behind a text, when `depth` are open in front of it; nothing if
one is closed that was not opened. -/
def nesting : Nat → Text → Option Nat
  | depth, [] => some depth
  | depth, c :: r =>
    if c = '(' then nesting (depth + 1) r
    else if c = ')' then
      match depth with
      | 0 => none
      | d + 1 => nesting d r
    else nesting depth r

/-- Every parenthesis has a partner. -/
def Balanced (t : Text) : Prop := nesting 0 t = some 0

instance (t : Text) : Decidable (Balanced t) := inferInstanceAs (Decidable (_ = _))

section
variable {d d' : Nat} {c : Char} {r s t w : Text}

@[simp] theorem nesting_nil (d : Nat) : nesting d [] = some d := rfl

@[simp] theorem nesting_opening (d : Nat) (r : Text) : nesting d ('(' :: r) = nesting (d + 1) r := rfl

@[simp] theorem nesting_closing (d : Nat) (r : Text) : nesting (d + 1) (')' :: r) = nesting d r := rfl

theorem nesting_cons_of_ne (d : Nat) (r : Text) (ho : c ≠ '(') (hc : c ≠ ')') :
    nesting d (c :: r) = nesting d r := by
  rw [nesting.eq_def]
  simp only [if_neg ho, if_neg hc]

/-- One character opens a parenthesis, closes one or leaves the depth as it is. -/
theorem nesting_cons_eq_some : nesting d (c :: r) = some d' ↔
    ∃ e : Nat, (if c = '(' then (d : Int) + 1 else if c = ')' then (d : Int) - 1 else d) = e ∧
      nesting e r = some d' := by
  by_cases ho : c = '('
  · subst ho
    refine ⟨fun h => ⟨d + 1, by simp, h⟩, fun ⟨e, he, h⟩ => ?_⟩
    obtain rfl : d + 1 = e := by simp only [if_true] at he; omega
    exact h
  rw [if_neg ho]
  by_cases hc : c = ')'
  · subst hc
    cases d with
    | zero =>
      refine ⟨fun h => absurd h (by simp [nesting]), fun ⟨e, he, _⟩ => ?_⟩
      simp only [if_true] at he
      omega
    | succ d =>
      refine ⟨fun h => ⟨d, by simp, h⟩, fun ⟨e, he, h⟩ => ?_⟩
      obtain rfl : d = e := by simp only [if_true] at he; omega
      exact h
  · rw [if_neg hc, nesting_cons_of_ne d r ho hc]
    refine ⟨fun h => ⟨d, rfl, h⟩, fun ⟨e, he, h⟩ => ?_⟩
    obtain rfl : d = e := by omega
    exact h

theorem nesting_append (d : Nat) (s t : Text) :
    nesting d (s ++ t) = (nesting d s).bind fun d' => nesting d' t := by
  induction s generalizing d with
  | nil => rfl
  | cons c r ih =>
    simp only [List.cons_append, nesting]
    split
    · exact ih _
    split
    · cases d with
      | zero => rfl
      | succ d => exact ih d
    · exact ih d

/-- More parentheses around a text stay open. -/
theorem nesting_add (k : Nat) (h : nesting d w = some d') : nesting (d + k) w = some (d' + k) := by
  induction w generalizing d with
  | nil => obtain rfl := Option.some.inj h; rfl
  | cons c r ih =>
    obtain ⟨e, he, h⟩ := nesting_cons_eq_some.1 h
    refine nesting_cons_eq_some.2 ⟨e + k, ?_, ih h⟩
    push_cast
    rw [← he]
    split
    · omega
    · split <;> omega

/-- Only parentheses count. -/
theorem nesting_filter (d : Nat) (t : Text) :
    nesting d (t.filter fun c => c = '(' || c = ')') = nesting d t := by
  induction t generalizing d with
  | nil => rfl
  | cons c r ih =>
    by_cases ho : c = '('
    · subst ho
      exact ih (d + 1)
    by_cases hc : c = ')'
    · subst hc
      cases d with
      | zero => rfl
      | succ d => exact ih d
    · have hf : (c = '(' || c = ')') = false := by simp [ho, hc]
      rw [List.filter_cons_of_neg (by simp [hf]), nesting_cons_of_ne d r ho hc]
      exact ih d

theorem Balanced.nesting_eq (h : Balanced w) (d : Nat) : nesting d w = some d := by
  have := nesting_add d h
  rwa [Nat.zero_add] at this

theorem Balanced.append (hs : Balanced s) (ht : Balanced t) : Balanced (s ++ t) := by
  rw [Balanced, nesting_append, hs]
  exact ht

theorem Balanced.group (h : Balanced w) : Balanced ('(' :: (w ++ [')'])) := by
  rw [Balanced, nesting_opening, nesting_append, h.nesting_eq]
  rfl

theorem balanced_of_forall_ne (h : ∀ c ∈ w, c ≠ '(' ∧ c ≠ ')') : Balanced w := by
  induction w with
  | nil => rfl
  | cons c r ih =>
    have hc := h c List.mem_cons_self
    rw [Balanced, nesting_cons_of_ne 0 r hc.1 hc.2]
    exact ih fun c hm => h c (List.mem_cons_of_mem _ hm)

/-! ## Reading to the end of a group -/

/-- A search for the closing parenthesis goes on behind a text with the depth that is left there. -/
theorem untilClose_append (rest : Text) (h : nesting d w = some d') :
    untilClose '(' ')' d (w ++ rest) =
      (untilClose '(' ')' d' rest).map fun p => (w ++ p.1, p.2) := by
  induction w generalizing d with
  | nil =>
    obtain rfl := Option.some.inj h
    simp
  | cons c r ih =>
    by_cases ho : c = '('
    · subst ho
      rw [List.cons_append, untilClose.eq_def]
      simp only [if_true]
      rw [ih h, Option.map_map]
      rfl
    by_cases hc : c = ')'
    · subst hc
      cases d with
      | zero => exact absurd h (by simp [nesting])
      | succ d =>
        rw [List.cons_append, untilClose.eq_def]
        simp only [if_neg ho, if_true]
        rw [ih h, Option.map_map]
        rfl
    · rw [nesting_cons_of_ne d r ho hc] at h
      rw [List.cons_append, untilClose.eq_def]
      simp only [if_neg ho, if_neg hc]
      rw [ih h, Option.map_map]
      rfl

/-- A balanced text in parentheses is one group. -/
theorem untilClose_of_balanced (h : Balanced w) (rest : Text) :
    untilClose '(' ')' 0 (w ++ ')' :: rest) = some (w, rest) := by
  rw [untilClose_append _ h]
  simp [untilClose]

theorem paren?_of_balanced (h : Balanced w) (rest : Text) :
    Group.paren? ('(' :: (w ++ ')' :: rest)) = some ⟨w, rest, true⟩ := by
  rw [Group.paren?, Group.forward?, if_pos rfl, untilClose_of_balanced h]

/-! ## Cutting -/

/-- The last character of a text, or else the one in front of it. -/
def charAfter (prev : Option Char) (t : Text) : Option Char := t.foldl (fun _ c => some c) prev

theorem charAfter_append (prev : Option Char) (s t : Text) :
    charAfter prev (s ++ t) = charAfter (charAfter prev s) t := List.foldl_append

theorem charAfter_of_getLast? {prev : Option Char} (h : c ∈ t.getLast?) : charAfter prev t = some c := by
  obtain ⟨s, rfl⟩ := List.getLast?_eq_some_iff.1 h
  rw [charAfter_append]
  rfl

/-- A text put in front of what was cut. -/
def prepend (w : Text) (p : Text × List (Char × Text)) : Text × List (Char × Text) := (w ++ p.1, p.2)

theorem prepend_append (s t : Text) (p : Text × List (Char × Text)) :
    prepend (s ++ t) p = prepend s (prepend t p) := by
  rw [prepend, List.append_assoc]; rfl

/-- Inside a group that stays open nothing is cut, and nothing where there is no separator. -/
theorem cutFrom_of_nesting (sep : Separator) (outer : Int)
    (hcut : 0 < outer ∨ ∀ c ∈ w, ∀ prev next, sep prev c next = false) (rest : Text)
    (prev : Option Char) (h : nesting d w = some d') :
    cutFrom sep (outer + d) prev (w ++ rest) =
      prepend w (cutFrom sep (outer + d') (charAfter prev w) rest) := by
  induction w generalizing d prev with
  | nil =>
    obtain rfl := Option.some.inj h
    rfl
  | cons c r ih =>
    obtain ⟨e, he, h⟩ := nesting_cons_eq_some.1 h
    have hdepth : (if c = '(' then outer + d + 1 else if c = ')' then outer + d - 1 else outer + d) =
        outer + e := by
      rw [← he]
      split
      · omega
      · split <;> omega
    have hpass : ¬ (c ≠ '(' ∧ c ≠ ')' ∧ outer + (d : Int) ≤ 0 ∧ sep prev c (r ++ rest).head? = true) := by
      rintro ⟨-, -, hopen, hsep⟩
      rcases hcut with ho | hw
      · omega
      · exact absurd ((hw c List.mem_cons_self prev _).symm.trans hsep) Bool.false_ne_true
    have hcut' : 0 < outer ∨ ∀ c ∈ r, ∀ prev next, sep prev c next = false :=
      hcut.imp_right fun hw c hc => hw c (List.mem_cons_of_mem _ hc)
    rw [List.cons_append, cutFrom]
    simp only [hdepth, if_neg hpass]
    rw [ih hcut' (some c) h]
    rfl

/-- Two texts with a separator between them. -/
theorem splitOutside_pair {sep : Char} {num den : Text} (hsep : sep ≠ '(' ∧ sep ≠ ')')
    (hnum : Balanced num) (hden : Balanced den) (hn : sep ∉ num) (hd : sep ∉ den) :
    splitOutside sep (num ++ sep :: den) = [num, den] := by
  have hnot : ∀ {w : Text}, sep ∉ w → ∀ c ∈ w, ∀ prev next, Separator.char sep prev c next = false :=
    fun h c hc _ _ => beq_false_of_ne fun he => h (he ▸ hc)
  have hfirst := cutFrom_of_nesting (.char sep) 0 (Or.inr (hnot hn)) (sep :: den) none hnum
  have hsecond := cutFrom_of_nesting (.char sep) 0 (Or.inr (hnot hd)) [] (some sep) hden
  rw [List.append_nil] at hsecond
  have hcut : cutFrom (.char sep) (0 + (0 : Nat)) (charAfter none num) (sep :: den) = ([], [(sep, den)]) := by
    rw [cutFrom]
    simp only [if_neg hsep.1, if_neg hsep.2, hsecond]
    simp [hsep, Separator.char, prepend, cutFrom]
  rw [hcut] at hfirst
  rw [splitOutside, cut]
  simp only [Nat.cast_zero, add_zero] at hfirst
  rw [hfirst]
  simp [prepend]

/-- What stands in front of a text takes no cut away from it. -/
theorem cutFrom_suffix (sep : Separator) (rest : Text) (prev : Option Char) (h : nesting d w = some d') :
    (cutFrom sep d' (charAfter prev w) rest).2 <:+ (cutFrom sep d prev (w ++ rest)).2 := by
  induction w generalizing d prev with
  | nil =>
    obtain rfl := Option.some.inj h
    exact List.suffix_rfl
  | cons c r ih =>
    obtain ⟨e, he, h⟩ := nesting_cons_eq_some.1 h
    have hrest := ih (some c) h
    rw [List.cons_append, cutFrom]
    simp only [he]
    split
    · exact hrest.trans (List.suffix_cons _ _)
    · exact hrest

end

end SignChart
