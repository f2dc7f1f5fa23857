/-
  An exponent in plain notation.

  What the plain spelling does around an exponent does not depend on how the exponent is written: a word in
  parentheses and the bare word are put into the same surroundings (`plainSpelling_place`), if nothing behind the
  word goes on with it.

  1. **Words that stop.**  `Stops a z` says that in front of `z` a word of the kind of `a` ends.  All steps of the
     plain spelling keep it: they drop and insert blanks, change the case of letters, and write parentheses.

  2. **Calls.**  No call of `frac` begins or ends in a power, so that a power is put into surroundings which
     do not depend on it (`Carries`).  By induction on what stands in front of the power: it stands behind a call
     (`carries_behind`), in an argument of one (`carries_inside`), or behind a character that stays.

  3. **Names of the function.**  None has a caret in it (`dropNames_append`).
-/
import SignChart.Proofs.Input.Fraction

namespace SignChart

section
variable {a b r s t w x y z : Text} {c d : Char}

/-! ## Words that stop -/

/-- A word of this kind goes on with the character `c` in front of the text `r`: a number with a digit, a point or a
decimal comma, a name with a letter. -/
def goesOn (a : Text) (c : Char) (r : Text) : Bool :=
  if a.all isNumeric then isNumeric c || (c = ',' && r.head?.any Char.isDigit) else (lowerCase c).any isLetter

/-- In front of the text, blanks aside, a word of this kind stops. -/
def Stops (a : Text) : Text → Prop
  | [] => True
  | c :: r => if isBlank c then Stops a r else goesOn a c r = false

theorem stops_cons_of_blank (h : isBlank c = true) : Stops a (c :: r) ↔ Stops a r := by rw [Stops, if_pos h]

theorem stops_cons_of_not_blank (h : isBlank c = false) : Stops a (c :: r) ↔ goesOn a c r = false := by
  rw [Stops, if_neg (by rw [h]; exact Bool.false_ne_true)]

/-- Only the digit behind a comma matters of what follows. -/
theorem goesOn_eq_false_of (hdigit : ∀ d ∈ s.head?, d.isDigit = true → r.head?.any Char.isDigit = true)
    (h : goesOn a c r = false) : goesOn a c s = false := by
  by_cases ha : a.all isNumeric = true
  · rw [goesOn, if_pos ha, Bool.or_eq_false_iff] at h ⊢
    refine ⟨h.1, Bool.eq_false_iff.2 fun hs => ?_⟩
    obtain ⟨hc, hs⟩ := Bool.and_eq_true_iff.1 hs
    obtain ⟨d, hd, hs⟩ := (Option.any_eq_true _ _).1 hs
    rw [hc, hdigit d hd hs] at h
    exact absurd h.2 (by decide)
  · rw [goesOn, if_neg ha] at h ⊢
    exact h

/-- A word that stops in front of a text stops in front of any beginning of it. -/
theorem Stops.of_initial (h : Stops a z) : ∀ {w : Text}, w <+: z → Stops a w := by
  induction z with
  | nil => intro w hw; rw [List.prefix_nil.1 hw]; exact h
  | cons c r ih =>
    intro w hw
    rcases List.prefix_cons_iff.1 hw with rfl | ⟨v, rfl, hv⟩
    · trivial
    · by_cases hc : isBlank c = true
      · rw [stops_cons_of_blank hc] at h ⊢
        exact ih h hv
      · have hc := Bool.eq_false_iff.2 hc
        rw [stops_cons_of_not_blank hc] at h ⊢
        refine goesOn_eq_false_of (fun d hd hdigit => ?_) h
        obtain ⟨u, rfl⟩ := List.head?_eq_some_iff.1 hd
        obtain ⟨q, rfl⟩ := hv
        exact hdigit

/-- No word goes on with a parenthesis. -/
theorem goesOn_paren (hc : c = '(' ∨ c = ')') : goesOn a c r = false := by
  rcases hc with rfl | rfl <;> (unfold goesOn; split <;> rfl)

/-- A word that stops in a text still does if a parenthesis follows this. -/
theorem Stops.append_closing (h : Stops a z) (r : Text) : Stops a (z ++ ')' :: r) := by
  induction z with
  | nil => exact (stops_cons_of_not_blank rfl).2 (goesOn_paren (Or.inr rfl))
  | cons c z ih =>
    by_cases hc : isBlank c = true
    · rw [List.cons_append]
      rw [stops_cons_of_blank hc] at h ⊢
      exact ih h
    · have hc := Bool.eq_false_iff.2 hc
      rw [List.cons_append]
      rw [stops_cons_of_not_blank hc] at h ⊢
      refine goesOn_eq_false_of (fun d hd hdigit => ?_) h
      cases z with
      | nil => obtain rfl := Option.some.inj hd; exact absurd hdigit (by decide)
      | cons e z => exact Option.some.inj hd ▸ hdigit

/-- A letter in another case, and nothing else, is no other stop. -/
theorem Stops.of_alike (hst : List.Forall₂ Alike s t) (h : Stops a s) : Stops a t := by
  induction hst with
  | nil => exact h
  | @cons c d s t hcd hst ih =>
    have hblank : isBlank d = isBlank c := by
      rcases hcd with rfl | ⟨hc, hd⟩
      · rfl
      · rw [not_isBlank_of_isLetter hc, not_isBlank_of_isLetter hd]
    by_cases hc : isBlank c = true
    · rw [stops_cons_of_blank hc] at h
      rw [stops_cons_of_blank (hblank.trans hc)]
      exact ih h
    · have hc := Bool.eq_false_iff.2 hc
      rw [stops_cons_of_not_blank hc] at h
      rw [stops_cons_of_not_blank (hblank.trans hc)]
      rcases hcd with rfl | ⟨hc, hd⟩
      · exact goesOn_eq_false_of (fun d hd hdigit => by
          have hs : d ∈ s.head? := head?_of_alike hst hd (not_isLetter_of_isNumeric (isNumeric_of_isDigit hdigit))
          rw [Option.mem_def.1 hs]
          exact hdigit) h
      · -- behind a number a letter stands, and behind a name none
        by_cases ha : a.all isNumeric = true
        · have hnumeric : isNumeric d = false := Bool.eq_false_iff.2 (not_isNumeric_of_isLetter hd)
          have hcomma : decide (d = ',') = false := decide_eq_false fun he => absurd (he ▸ hd) (by decide)
          rw [goesOn, if_pos ha, hnumeric, hcomma]
          rfl
        · rw [goesOn, if_neg ha, lowerCase_of_isLetter hc] at h
          have hlower : ([c.toLower].any isLetter) = true := by
            rw [List.any_cons, isLetter_toLower, hc]
            rfl
          exact absurd (h.symm.trans hlower) Bool.false_ne_true

/-- Squeezing blanks does not join words. -/
theorem Stops.squeezeFrom (h : Stops a z) : ∀ gap : Bool, Stops a (Text.squeezeFrom gap z) := by
  induction z with
  | nil => exact fun _ => h
  | cons c r ih =>
    intro gap
    by_cases hc : isBlank c = true
    · rw [squeezeFrom_cons_of_blank hc]
      exact ih ((stops_cons_of_blank hc).1 h) true
    · have hc := Bool.eq_false_iff.2 hc
      rw [stops_cons_of_not_blank hc] at h
      have hstop : Stops a (c :: Text.squeezeFrom false r) := by
        refine (stops_cons_of_not_blank hc).2 (goesOn_eq_false_of (fun d hd hdigit => ?_) h)
        cases r with
        | nil => exact absurd hd (by simp [Text.squeezeFrom])
        | cons e r =>
          by_cases he : isBlank e = true
          · rw [squeezeFrom_cons_of_blank he] at hd
            exact absurd hdigit (head?_squeezeFrom_true hd ▸ by decide)
          · rw [squeezeFrom_cons_of_not_blank (Bool.eq_false_iff.2 he)] at hd
            exact Option.some.inj hd ▸ hdigit
      rw [squeezeFrom_cons_of_not_blank hc]
      cases gap with
      | false => exact hstop
      | true => exact (stops_cons_of_blank isBlank_space).2 hstop

/-! ## Seams -/

/-- The seam is at the first character of the text behind. -/
theorem Parted.of_initial (h : Parted s z) (hw : w <+: z) : Parted s w := by
  intro c hc d hd
  refine h c hc d ?_
  obtain ⟨u, rfl⟩ := hw
  exact List.mem_head?_append_of_mem_head? hd

/-- Words are put in their case on each side of a seam. -/
theorem usualCases_append_of_parted (h : Parted s r) : usualCases (s ++ r) = usualCases s ++ usualCases r := by
  cases r with
  | nil => rw [List.append_nil]; exact (List.append_nil _).symm
  | cons d r =>
    by_cases hd : isLetter d = true
    · rcases List.eq_nil_or_concat s with rfl | ⟨s, c, rfl⟩
      · rfl
      · have hc : isLetter c = false := Bool.eq_false_iff.2 fun hc => by
          have hparted := h c (by simp) d rfl hc
          exact absurd (hparted.symm.trans hd) Bool.false_ne_true
        have hsplit : ∀ u : Text, usualCases (s ++ c :: u) = usualCases s ++ c :: usualCases u := fun u =>
          usualCases_append s u hc []
        rw [List.concat_eq_append, List.append_assoc, List.singleton_append, hsplit, hsplit, List.append_assoc]
        rfl
    · have hd := Bool.eq_false_iff.2 hd
      rw [usualCases_break r hd]
      exact usualCases_append s r hd []

/-! ## Calls -/

/-- A fraction that is written differently begins with a parenthesis, and no word goes on with one. -/
theorem Stops.fractionsFrom (h : Stops a z) : ∀ after : Bool, Stops a (fractionsFrom after z) := by
  induction z with
  | nil => intro after; rw [SignChart.fractionsFrom]; trivial
  | cons c r ih =>
    intro after
    rcases fractionsFrom_cons_cases after c r with hkept | ⟨_, u, hcall⟩
    · rw [hkept]
      by_cases hc : isBlank c = true
      · rw [stops_cons_of_blank hc] at h ⊢
        exact ih h _
      · have hc := Bool.eq_false_iff.2 hc
        rw [stops_cons_of_not_blank hc] at h ⊢
        refine goesOn_eq_false_of (fun d hd hdigit => ?_) h
        cases r with
        | nil => rw [SignChart.fractionsFrom] at hd; exact absurd hd (by simp)
        | cons e r =>
          rcases fractionsFrom_cons_cases (isLetter c) e r with hkept | ⟨_, u, hcall⟩
          · rw [hkept] at hd
            exact Option.some.inj hd ▸ hdigit
          · rw [hcall] at hd
            exact absurd hdigit (Option.some.inj hd ▸ by decide)
    · rw [hcall, stops_cons_of_not_blank rfl]
      exact goesOn_paren (Or.inl rfl)

/-! ## Places -/

/-- A power without calls of `frac`, in which every parenthesis has a partner. -/
structure Inert (y : Text) : Prop extends IsPower y where
  balanced : Balanced y
  comma : ',' ∉ y
  fracFree : FracFree y

/-- A text with partners for all its parentheses is passed over in the search for the end of a group. -/
theorem Balanced.skipped (h : Balanced y) : Skipped '(' ')' y := fun depth r =>
  untilClose_append r (h.nesting_eq depth)

theorem cutFrom_char_prev (sep : Char) (depth : Int) (prev prev' : Option Char) (t : Text) :
    cutFrom (.char sep) depth prev t = cutFrom (.char sep) depth prev' t := by
  cases t <;> rfl

/-- A text in which nothing is cut stands in one piece. -/
theorem cutFrom_place (s r : Text) : ∀ depth : Int, ∃ ls l q rs, l.length ≤ s.length ∧ q <+: r ∧
    ∀ (prev : Option Char) (y : Text), Balanced y → ',' ∉ y →
      let p := cutFrom (.char ',') depth prev (s ++ (y ++ r))
      p.1 :: p.2.map Prod.snd = ls ++ (l ++ (y ++ q)) :: rs := by
  induction s with
  | nil =>
    intro depth
    have hjoin := joinCut_cutFrom (.char ',') depth none r
    refine ⟨[], [], (cutFrom (.char ',') depth none r).1, (cutFrom (.char ',') depth none r).2.map Prod.snd,
      Nat.le_refl _, ⟨_, hjoin⟩, fun prev y hy hcomma => ?_⟩
    have hcut := cutFrom_of_nesting (.char ',') depth (Or.inr fun c hc _ _ => beq_false_of_ne fun he => hcomma (he ▸ hc))
      r prev hy
    rw [Nat.cast_zero, add_zero, cutFrom_char_prev _ _ (charAfter prev y) none] at hcut
    simp only [List.nil_append, hcut, prepend]
  | cons c s ih =>
    intro depth
    obtain ⟨ls, l, q, rs, hl, hq, h⟩ := ih (if c = '(' then depth + 1 else if c = ')' then depth - 1 else depth)
    have hstep : ∀ (prev : Option Char) (t : Text), cutFrom (.char ',') depth prev (c :: t) =
        let p := cutFrom (.char ',') (if c = '(' then depth + 1 else if c = ')' then depth - 1 else depth) (some c) t
        if c ≠ '(' ∧ c ≠ ')' ∧ depth ≤ 0 ∧ c = ',' then ([], (c, p.1) :: p.2) else (c :: p.1, p.2) := by
      intro prev t
      rw [cutFrom]
      simp only [Separator.char, beq_iff_eq]
    by_cases hcut : c ≠ '(' ∧ c ≠ ')' ∧ depth ≤ 0 ∧ c = ','
    · refine ⟨[] :: ls, l, q, rs, Nat.le_succ_of_le hl, hq, fun prev y hy hcomma => ?_⟩
      have hrest := h (some c) y hy hcomma
      simp only [List.cons_append, hstep, if_pos hcut, List.map_cons]
      exact congrArg ([] :: ·) hrest
    · simp only [List.cons_append, hstep, if_neg hcut]
      -- the character goes to the first piece
      cases ls with
      | nil =>
        refine ⟨[], c :: l, q, rs, Nat.succ_le_succ hl, hq, fun prev y hy hcomma => ?_⟩
        obtain ⟨hfirst, hmore⟩ := List.cons.inj (h (some c) y hy hcomma)
        rw [hfirst, hmore]
        rfl
      | cons w ls =>
        refine ⟨(c :: w) :: ls, l, q, rs, Nat.le_succ_of_le hl, hq, fun prev y hy hcomma => ?_⟩
        obtain ⟨hfirst, hmore⟩ := List.cons.inj (h (some c) y hy hcomma)
        rw [hfirst, hmore]
        rfl

/-- A text without commas outside its parentheses goes into one of the arguments that the text around it is cut into.
-/
theorem splitOutside_place (s r : Text) : ∃ ls l q rs, l.length ≤ s.length ∧ q <+: r ∧
    ∀ y, Balanced y → ',' ∉ y → splitOutside ',' (s ++ (y ++ r)) = ls ++ (l ++ (y ++ q)) :: rs := by
  obtain ⟨ls, l, q, rs, hl, hq, h⟩ := cutFrom_place s r 0
  exact ⟨ls, l, q, rs, hl, hq, h none⟩

/-- A call in front of a power is that of the text in front of it. -/
theorem fractionCall?_place (x : Text) :
    (∀ y r, '^' ∈ y.head? → fractionCall? (x ++ (y ++ r)) = none) ∨
      ∃ s, s.length + 5 ≤ x.length ∧
        ∀ y r, fractionCall? (x ++ (y ++ r)) = Group.paren? ('(' :: (s ++ (y ++ r))) := by
  by_cases hname : Text.asciiLower (x.take 4) = ['f', 'r', 'a', 'c']
  · have hlength : 4 ≤ x.length := by
      have h := congrArg List.length hname
      simp only [Text.asciiLower, List.length_map, List.length_take, List.length_cons, List.length_nil] at h
      omega
    have hcall : ∀ u : Text, fractionCall? (x ++ u) = Group.paren? (Text.trimStart (x.drop 4 ++ u)) := by
      intro u
      rw [fractionCall?, List.take_append_of_le_length hlength, if_pos hname, List.drop_append_of_le_length hlength]
    cases hstart : Text.trimStart (x.drop 4) with
    | nil =>
      refine Or.inl fun y r hy => ?_
      have hhead : ∀ c ∈ (y ++ r).head?, c = '^' := fun c hc =>
        Option.mem_unique hc (List.mem_head?_append_of_mem_head? hy)
      rw [hcall, trimStart_append_of_nil hstart fun c hc => hhead c hc ▸ rfl]
      exact forward?_eq_none.2 fun c hc => hhead c hc ▸ by decide
    | cons c s =>
      by_cases hc : c = '('
      · subst hc
        refine Or.inr ⟨s, ?_, fun y r => ?_⟩
        · have h := Text.length_trimStart_le (x.drop 4)
          rw [hstart, List.length_cons, List.length_drop] at h
          omega
        · rw [hcall, trimStart_append (by rw [hstart]; simp), hstart, List.cons_append]
      · refine Or.inl fun y r _ => ?_
        rw [hcall, trimStart_append (by rw [hstart]; simp), hstart]
        exact forward?_eq_none.2 fun d hd => Option.some.inj hd ▸ hc
  · refine Or.inl fun y r hy => if_neg fun hfrac => ?_
    by_cases hlength : 4 ≤ x.length
    · rw [List.take_append_of_le_length hlength] at hfrac
      exact hname hfrac
    · -- the caret would be a letter of the word
      obtain ⟨y, rfl⟩ := List.head?_eq_some_iff.1 hy
      have hmem : '^' ∈ (x ++ ('^' :: y ++ r)).take 4 := by
        rw [List.take_append, List.cons_append]
        refine List.mem_append_right _ ?_
        obtain ⟨k, hk⟩ : ∃ k, 4 - x.length = k + 1 := ⟨3 - x.length, by omega⟩
        rw [hk, List.take_succ_cons]
        exact List.mem_cons_self
      exact absurd (isLetter_of_frac hfrac '^' hmem) (by decide)

/-- A function that puts a power into some surroundings, in front of which the same words stop as in front of `z`. -/
def Carries (z : Text) (f : Text → Text) : Prop :=
  ∃ x' z', (∀ a, Stops a z → Stops a z') ∧ ∀ y, Inert y → Parted y z → f y = x' ++ (y ++ z')

namespace Carries
variable {f g : Text → Text} {u : Text}

/-- Only powers that may stand in front of the text have to be put into the surroundings. -/
theorem congr (h : Carries z f) (hfg : ∀ y, Inert y → Parted y z → g y = f y) : Carries z g := by
  obtain ⟨x', z', hstop, h⟩ := h
  exact ⟨x', z', hstop, fun y hy hseam => (hfg y hy hseam).trans (h y hy hseam)⟩

/-- Words that stop in front of a text stop in front of its beginning as well. -/
theorem of_initial (h : Carries u f) (hu : u <+: z) : Carries z f := by
  obtain ⟨x', z', hstop, h⟩ := h
  exact ⟨x', z', fun a ha => hstop a (ha.of_initial hu), fun y hy hseam => h y hy (hseam.of_initial hu)⟩

/-- Further surroundings are surroundings, as in the three lemmas below. -/
theorem append_left (h : Carries z f) (t : Text) : Carries z fun y => t ++ f y := by
  obtain ⟨x', z', hstop, h⟩ := h
  exact ⟨t ++ x', z', hstop, fun y hy hseam => by dsimp only; rw [h y hy hseam, List.append_assoc]⟩

theorem parenthesized (h : Carries z f) (t : Text) : Carries z fun y => parenthesized (f y) ++ t := by
  obtain ⟨x', z', hstop, h⟩ := h
  refine ⟨'(' :: x', z' ++ ')' :: t, fun a ha => (hstop a ha).append_closing t, fun y hy hseam => ?_⟩
  dsimp only
  rw [h y hy hseam]
  simp [SignChart.parenthesized]

theorem quotient_left (h : Carries z f) (den t : Text) : Carries z fun y => quotient (f y) den ++ t :=
  (h.parenthesized ('/' :: SignChart.parenthesized den ++ t)).congr fun y _ _ => by simp [quotient]

theorem quotient_right (h : Carries z f) (num t : Text) : Carries z fun y => quotient num (f y) ++ t :=
  ((h.parenthesized t).append_left (SignChart.parenthesized num ++ ['/'])).congr fun y _ _ => by simp [quotient]

end Carries

/-- A power behind a call. -/
theorem carries_behind {content beyond : Text} (hclose : untilClose '(' ')' 0 s = some (content, beyond))
    (hcall : ∀ y r, fractionCall? (x ++ (y ++ r)) = Group.paren? ('(' :: (s ++ (y ++ r))))
    (h : Carries z fun y => fractions (beyond ++ (y ++ z))) : Carries z fun y => fractions (x ++ (y ++ z)) := by
  obtain ⟨w, hw⟩ := exists_fractions_of_call content
  refine (h.append_left w).congr fun y _ _ => ?_
  have hgroup : fractionCall? (x ++ (y ++ z)) = some ⟨content, beyond ++ (y ++ z), true⟩ := by
    rw [hcall, Group.paren?, Group.forward?, if_pos rfl, untilClose_append_of_some hclose]
  exact hw hgroup rfl

/-- A power in an argument of a call. -/
theorem carries_inside (hclose : untilClose '(' ')' 0 s = none)
    (hcall : ∀ y r, fractionCall? (x ++ (y ++ r)) = Group.paren? ('(' :: (s ++ (y ++ r))))
    (h : ∀ w : Text, w.length ≤ s.length → ∀ u, Carries u fun y => fractions (w ++ (y ++ u))) (z : Text) :
    Carries z fun y => fractions (x ++ (y ++ z)) := by
  obtain ⟨inside, beyond, closed, hinside, hgroup⟩ := forward?_of_open hclose z
  obtain ⟨ls, l, q, rs, hl, hq, hsplit⟩ := splitOutside_place s inside
  have hgroup : ∀ y, Inert y → fractionCall? (x ++ (y ++ z)) = some ⟨s ++ (y ++ inside), beyond, closed⟩ := fun y hy =>
    (hcall y z).trans (hgroup y hy.balanced.skipped)
  have htrim : ∀ {w u : Text}, w.length ≤ s.length → u <+: inside →
      Carries z fun y => fractions (Text.trim (w ++ (y ++ u))) := by
    intro w u hw hu
    have hend : u.trimEnd <+: z := (trimEnd_isPrefix u).trans (hu.trans hinside)
    refine ((h w.trimStart ((Text.length_trimStart_le w).trans hw) u.trimEnd).of_initial hend).congr fun y hy _ => ?_
    rw [hy.toIsPower.trim]
  by_cases hpair : ls.length + rs.length = 1
  · rcases ls with _ | ⟨num, ls⟩
    · obtain ⟨den, rfl⟩ := List.length_eq_one_iff.1 ((Nat.zero_add _).symm.trans hpair)
      exact ((htrim hl hq).quotient_left (fractions den.trim) (fractions beyond)).congr fun y hy _ =>
        fractions_of_call (hgroup y hy) (hsplit y hy.balanced hy.comma)
    · rw [List.length_cons] at hpair
      obtain rfl := List.eq_nil_of_length_eq_zero (show ls.length = 0 by omega)
      obtain rfl := List.eq_nil_of_length_eq_zero (show rs.length = 0 by omega)
      exact ((htrim hl hq).quotient_right (fractions num.trim) (fractions beyond)).congr fun y hy _ =>
        fractions_of_call (hgroup y hy) (hsplit y hy.balanced hy.comma)
  -- a call of one argument, or of more than two
  · refine ((htrim (Nat.le_refl _) List.prefix_rfl).parenthesized (fractions beyond)).congr fun y hy _ => ?_
    refine fractions_of_call_of_ne (hgroup y hy) fun num den hs => ?_
    have hlength := congrArg List.length ((hsplit y hy.balanced hy.comma).symm.trans hs)
    simp only [List.length_append, List.length_cons, List.length_nil] at hlength
    omega

/-- **Calls around a power.**  Whatever calls stand around it, a power is put into surroundings that do not depend on
it. -/
theorem carries_fractionsFrom (x : Text) : ∀ (after : Bool) (z : Text),
    Carries z fun y => fractionsFrom after (x ++ (y ++ z)) := by
  induction hn : x.length using Nat.strong_induction_on generalizing x with
  | h n ih =>
    subst hn
    intro after z
    cases x with
    | nil =>
      refine ⟨[], fractions z, fun a h => h.fractionsFrom false, fun y hy hseam => ?_⟩
      have hne : y ≠ [] := by
        rintro rfl
        exact absurd hy.caret (by simp)
      exact fractionsFrom_append hy.fracFree hne hseam after
    | cons c x =>
      have hpass : (∀ y, Inert y → after = true ∨ fractionCall? (c :: x ++ (y ++ z)) = none) →
          Carries z fun y => fractionsFrom after (c :: x ++ (y ++ z)) := fun hnone =>
        ((ih x.length (Nat.lt_succ_self _) x rfl (isLetter c) z).append_left [c]).congr fun y hy _ =>
          fractionsFrom_cons (hnone y hy)
      cases after with
      | true => exact hpass fun _ _ => Or.inl rfl
      | false =>
        rcases fractionCall?_place (c :: x) with hnone | ⟨s, hs, hcall⟩
        · exact hpass fun y hy => Or.inr (hnone y z hy.caret)
        · have hshorter : ∀ w : Text, w.length ≤ s.length → ∀ u, Carries u fun y => fractions (w ++ (y ++ u)) :=
            fun w hw u => ih w.length (by omega) w rfl false u
          cases hclose : untilClose '(' ')' 0 s with
          | some p =>
            have hbeyond : p.2.length ≤ s.length := by
              rw [eq_of_untilClose hclose, List.length_append, List.length_cons]
              omega
            exact carries_behind hclose hcall (hshorter p.2 hbeyond z)
          | none => exact carries_inside hclose hcall hshorter z

/-! ## Names of the function -/

/-- The letters of a name are found in front of a caret or not at all. -/
theorem after?_append (hc : c ≠ '^') (x r : Text) : after? c (x ++ '^' :: r) = (after? c x).map (· ++ '^' :: r) := by
  cases x with
  | nil => exact if_neg fun h => hc h.symm
  | cons d x =>
    rw [List.cons_append, after?, after?, trimStart_append_of_solid ⟨'^', rfl, rfl⟩]
    split <;> rfl

/-- An equality sign behind a caret belongs to no name of the function. -/
theorem afterEquals?_append (x r : Text) :
    afterEquals? (x ++ '^' :: r) = (afterEquals? x).map (· ++ '^' :: r) := by
  have hbind : ∀ {c : Char} (_ : c ≠ '^') (o : Option Text),
      (o.map (· ++ '^' :: r)).bind (after? c) = (o.bind (after? c)).map (· ++ '^' :: r) := by
    intro c hc o
    cases o with
    | none => rfl
    | some x => exact after?_append hc x r
  have hname : afterName? (x ++ '^' :: r) = (afterName? x).map (· ++ '^' :: r) := by
    rw [afterName?, afterName?, after?_append (by decide), after?_append (by decide)]
    cases after? 'f' x with
    | none => rfl
    | some x =>
      show (((after? '(' (x ++ '^' :: r)).bind _).bind _) = (((after? '(' x).bind _).bind _).map _
      rw [after?_append (by decide), hbind (by decide), hbind (by decide)]
  rw [afterEquals?, afterEquals?, hname, hbind (by decide)]

/-- Names are dropped one after the other. -/
theorem dropNames_of_named (h : afterEquals? t = some r) : dropNames t = dropNames r := by
  rw [dropNames.eq_def]
  split
  · next s hs => rw [Option.some.inj (h.symm.trans hs)]
  · next hnone => exact absurd (h.symm.trans hnone) (by simp)

/-- No name goes on with a caret. -/
theorem dropNames_append (x r : Text) : dropNames (x ++ '^' :: r) = dropNames x ++ '^' :: r := by
  fun_induction dropNames x with
  | case1 x s hs ih =>
    rw [dropNames_of_named (r := s ++ '^' :: r) (by rw [afterEquals?_append, hs]; rfl), ih]
  | case2 x hnone => exact dropNames_of_unnamed (by rw [afterEquals?_append, hnone]; rfl)

/-! ## Words -/

/-- A number, or the name of a value in any case. -/
inductive IsWord (a : Text) : Prop where
  | number (hne : a ≠ []) (h : ∀ c ∈ a, isNumeric c = true)
  | name (h : a.asciiLower ∈ valueWords)

theorem letters_of_name (h : a.asciiLower ∈ valueWords) : ∀ c ∈ a, isLetter c = true := fun _ hc =>
  isLetter_toLower.symm.trans (letters_of_mem_valueWords h _ (List.mem_map_of_mem hc))

theorem IsWord.ne_nil (h : IsWord a) : a ≠ [] := by
  cases h with
  | number hne _ => exact hne
  | name h =>
    rintro rfl
    exact absurd h (by decide)

/-- A word is made of the characters of words. -/
theorem IsWord.isWordChar (h : IsWord a) : ∀ c ∈ a, isWordChar c = true := by
  cases h with
  | number _ h => exact fun c hc => isWordChar_of_isNumeric (h c hc)
  | name h =>
    intro c hc
    have hl := letters_of_name h c hc
    rw [SignChart.isWordChar, isLetterOrDigit_iff.2 (Or.inl hl)]
    rfl

theorem IsWord.last (h : IsWord a) : ∃ c ∈ a.getLast?, SignChart.isWordChar c = true :=
  ⟨_, List.getLast?_eq_some_getLast h.ne_nil, h.isWordChar _ (List.getLast_mem h.ne_nil)⟩

theorem all_isNumeric_of_name (h : a.asciiLower ∈ valueWords) : ¬ a.all isNumeric = true := by
  intro hall
  obtain ⟨c, r, rfl⟩ := List.exists_cons_of_ne_nil (IsWord.name h).ne_nil
  have hn := not_isLetter_of_isNumeric (List.all_eq_true.1 hall c List.mem_cons_self)
  exact absurd (hn.symm.trans (letters_of_name h c List.mem_cons_self)) Bool.false_ne_true

/-- Nothing that goes on with the word stands right behind it. -/
theorem Stops.parted (ha : IsWord a) (h : Stops a z) : Parted ('^' :: a) z := by
  obtain ⟨c, hc, _⟩ := ha.last
  have hlast : c ∈ ('^' :: a).getLast? := by
    obtain ⟨s, rfl⟩ := List.getLast?_eq_some_iff.1 hc
    exact List.getLast?_concat (l := '^' :: s)
  intro c' hc' d hd hletter
  obtain rfl := Option.mem_unique hlast hc'
  cases ha with
  | number _ hn =>
    have hnot := not_isLetter_of_isNumeric (hn c (List.mem_of_mem_getLast? hc))
    exact absurd (hnot.symm.trans hletter) Bool.false_ne_true
  | name ha =>
    refine Bool.eq_false_iff.2 fun hdletter => ?_
    obtain ⟨r, rfl⟩ := List.head?_eq_some_iff.1 hd
    rw [stops_cons_of_not_blank (not_isBlank_of_isLetter hdletter), goesOn, if_neg (all_isNumeric_of_name ha),
      lowerCase_of_isLetter hdletter, List.any_cons, isLetter_toLower, hdletter] at h
    exact absurd h (by simp)

/-- A number or a value is never the word `frac`. -/
theorem IsWord.fracFree (h : IsWord a) : FracFree a := by
  refine fracFree_of_no_f fun c hc hf => ?_
  cases h with
  | number _ hn =>
    have hletter : isLetter c.toLower = true := by rw [hf]; rfl
    rw [isLetter_toLower, not_isLetter_of_isNumeric (hn c hc)] at hletter
    exact absurd hletter Bool.false_ne_true
  | name h =>
    have hall : ∀ w ∈ valueWords, 'f' ∉ w := by decide
    exact hall _ h (hf ▸ List.mem_map_of_mem hc)

/-- The two ways to write the word as an exponent. -/
def Raises (a y : Text) : Prop := y = '^' :: a ∨ y = '^' :: parenthesized a

theorem Raises.mem (h : Raises a y) (hc : c ∈ y) : c = '^' ∨ c = '(' ∨ c ∈ a ∨ c = ')' := by
  rcases h with rfl | rfl
  · exact (List.mem_cons.1 hc).imp_right fun h => Or.inr (Or.inl h)
  · exact (List.mem_cons.1 hc).imp_right mem_parenthesized.1

/-- A word in an exponent has no call, comma or open parenthesis in it. -/
theorem Raises.inert (h : Raises a y) (ha : IsWord a) : Inert y := by
  have hbalanced := balanced_of_words ha.isWordChar
  have hcomma : ',' ∉ y := fun hm => by
    rcases h.mem hm with h | h | h | h
    · exact absurd h (by decide)
    · exact absurd h (by decide)
    · exact (not_symbol_of_isWordChar (ha.isWordChar _ h)).2 (by decide)
    · exact absurd h (by decide)
  rcases h with rfl | rfl
  · obtain ⟨c, hc, hword⟩ := ha.last
    have hlast : c ∈ (['^'] ++ a).getLast? := List.mem_getLast?_append_of_mem_getLast? hc
    exact ⟨⟨rfl, c, hlast, (not_symbol_of_isWordChar hword).1⟩, hbalanced, hcomma, fracFree_cons rfl ha.fracFree⟩
  · have hlast : ')' ∈ (['^'] ++ parenthesized a).getLast? :=
      List.mem_getLast?_append_of_mem_getLast? (getLast?_parenthesized a)
    exact ⟨⟨rfl, ')', hlast, rfl⟩, hbalanced.group, hcomma,
      fracFree_cons rfl (fracFree_cons rfl (fracFree_append rfl ha.fracFree fracFree_nil))⟩

/-- No letter may follow a bare word, and behind a parenthesis one may. -/
theorem Raises.parted (h : Raises a y) (ha : IsWord a) (hz : Stops a z) : Parted y z := by
  rcases h with rfl | rfl
  · exact hz.parted ha
  · have hlast : ')' ∈ (['^'] ++ parenthesized a).getLast? :=
      List.mem_getLast?_append_of_mem_getLast? (getLast?_parenthesized a)
    exact parted_of_last ⟨')', hlast, rfl⟩ z

theorem isBreak_of_isWordChar (h : isWordChar c = true) : IsBreak c := by
  refine ⟨?_, ?_⟩
  · unfold asciiSymbol
    split
    all_goals first | rfl | exact absurd h (by decide)
  · rintro rfl
    exact absurd h (by decide)

/-- All characters of the power stay as they are. -/
theorem Raises.isBreak (h : Raises a y) (ha : IsWord a) : ∀ c ∈ y, IsBreak c := by
  intro c hc
  rcases h.mem hc with rfl | rfl | hc | rfl
  · exact isOver_caret.isBreak
  · exact isBreak_symbols '(' (by decide)
  · exact isBreak_of_isWordChar (ha.isWordChar c hc)
  · exact isBreak_symbols ')' (by decide)

theorem Raises.not_blank (h : Raises a y) (ha : IsWord a) : ∀ c ∈ y, isBlank c = false := by
  intro c hc
  rcases h.mem hc with rfl | rfl | hc | rfl
  · rfl
  · rfl
  · exact (not_symbol_of_isWordChar (ha.isWordChar c hc)).1
  · rfl

/-- What is done character by character leaves a text of such characters as it is. -/
theorem SplitsAt.text {f : Text → Text} (hnil : f [] = []) (hy : ∀ c ∈ y, SplitsAt f c) (z : Text) :
    f (y ++ z) = y ++ f z := by
  induction y with
  | nil => rfl
  | cons c y ih =>
    rw [List.cons_append, (hy c List.mem_cons_self).cons hnil, ih fun d hd => hy d (List.mem_cons_of_mem c hd)]
    rfl

theorem splitsAt_usualCases (hc : isLetter c = false) : SplitsAt usualCases c := fun s r => usualCases_append s r hc []

/-- Words in parentheses are put in their case by themselves. -/
theorem usualCases_parenthesized (t : Text) : usualCases (parenthesized t) = parenthesized (usualCases t) :=
  (splitsAt_usualCases rfl).parenthesized (splitsAt_usualCases rfl) rfl t

/-- The word in its usual case. -/
theorem Raises.usualCases (h : Raises a y) : Raises (usualCases a) (usualCases y) := by
  rcases h with rfl | rfl
  · exact Or.inl (usualCases_break a rfl)
  · exact Or.inr ((usualCases_break _ rfl).trans (congrArg ('^' :: ·) (usualCases_parenthesized a)))

/-- A word put in its case is a word of the same kind. -/
theorem IsWord.usualCases (h : IsWord a) : IsWord (usualCases a) ∧
    (usualCases a).all isNumeric = a.all isNumeric := by
  cases h with
  | number hne h =>
    have hsame := SplitsAt.text (f := SignChart.usualCases) rfl
      (fun c hc => splitsAt_usualCases (not_isLetter_of_isNumeric (h c hc))) []
    rw [List.append_nil, show SignChart.usualCases [] = [] from rfl, List.append_nil] at hsame
    rw [hsame]
    exact ⟨.number hne h, rfl⟩
  | name h =>
    have hlower : (usualCase a).asciiLower = a.asciiLower := by
      have hall : ∀ w ∈ valueWords, w.asciiLower = w := by decide
      rw [usualCase]
      split
      · exact hall _ h
      · rfl
    rw [usualCases_word (letters_of_name h)]
    refine ⟨.name (hlower ▸ h), ?_⟩
    rw [Bool.eq_false_iff.2 (all_isNumeric_of_name h), Bool.eq_false_iff.2 (all_isNumeric_of_name (hlower ▸ h))]

/-- What a word goes on with depends on its kind only. -/
theorem Stops.congr (h : Stops a z) (hb : b.all isNumeric = a.all isNumeric) : Stops b z := by
  induction z with
  | nil => trivial
  | cons c z ih =>
    by_cases hc : isBlank c = true
    · rw [stops_cons_of_blank hc] at h ⊢
      exact ih h
    · have hc := Bool.eq_false_iff.2 hc
      rw [stops_cons_of_not_blank hc, goesOn] at h ⊢
      rwa [hb]

/-! ## The plain form -/

/-- A text with an exponent is squeezed part by part. -/
theorem squeeze_exponent (front y back : Text) (hcaret : '^' ∈ y.head?)
    (hlast : ∃ c ∈ y.getLast?, isBlank c = false) :
    Text.squeeze (front ++ (y ++ back)) =
      spaceFrom false front.trimStart ++ (spaceFrom false y ++ Text.squeezeFrom false back) := by
  have hhead : ∃ c ∈ (y ++ back).head?, isBlank c = false :=
    ⟨'^', List.mem_head?_append_of_mem_head? hcaret, rfl⟩
  rw [Text.squeeze, trimStart_append_of_solid hhead, ← squeezeFrom_append_of_solid hlast]
  cases y with
  | nil => exact absurd hcaret (by simp)
  | cons c y =>
    obtain rfl := Option.some.inj hcaret
    rw [List.cons_append, squeezeFrom_append _ _ _ rfl, squeezeFrom_cons_of_not_blank rfl]
    rfl

/-- **An exponent in plain text.**  However the word is written as an exponent, it is put into the same surroundings,
in front of which it stops. -/
theorem plainSpelling_place (ha : IsWord a) (x : Text) (hstop : Stops a (asciiSymbols z)) :
    ∃ x' z', Stops a z' ∧ ∀ y, Raises a y →
      dropNames (Text.squeeze (plainSpelling (x ++ (y ++ z)))) = x' ++ (usualCases y ++ z') := by
  obtain ⟨x₁, z₁, hstop₁, hfractions⟩ := carries_fractionsFrom (asciiSymbols x) false (asciiSymbols z)
  have hz₁ := hstop₁ a hstop
  have hz₂ := (hz₁.of_alike (usualCases_alike z₁))
  refine ⟨dropNames (spaceFrom false (usualCases x₁).trimStart), Text.squeezeFrom false (usualCases z₁),
    hz₂.squeezeFrom false, fun y hy => ?_⟩
  have hinert := hy.inert ha
  obtain ⟨u, rfl⟩ := List.head?_eq_some_iff.1 hinert.caret
  have hsymbols : asciiSymbols (x ++ ('^' :: u ++ z)) = asciiSymbols x ++ ('^' :: u ++ asciiSymbols z) := by
    have hrest := SplitsAt.text (f := asciiSymbols) (y := u) rfl
      (fun c hc => splitsAt_asciiSymbols (hy.isBreak ha c (List.mem_cons_of_mem _ hc))) z
    rw [List.cons_append, asciiSymbols_append isOver_caret.isBreak, hrest]
    rfl
  have hcases : usualCases (x₁ ++ ('^' :: u ++ z₁)) = usualCases x₁ ++ (usualCases ('^' :: u) ++ usualCases z₁) := by
    rw [← usualCases_append_of_parted (hy.parted ha hz₁), List.cons_append, usualCases_break _ rfl]
    exact splitsAt_usualCases rfl x₁ (u ++ z₁)
  have ha' := ha.usualCases.1
  have hy' := hy.usualCases
  have hinert' := hy'.inert ha'
  have hcalls : fractions (asciiSymbols x ++ ('^' :: u ++ asciiSymbols z)) = x₁ ++ ('^' :: u ++ z₁) :=
    hfractions _ hinert (hy.parted ha hstop)
  rw [plainSpelling, hsymbols, hcalls, hcases,
    squeeze_exponent _ _ _ hinert'.caret hinert'.solid, spaceFrom_of_no_blank (hy'.not_blank ha')]
  rw [usualCases_break u rfl]
  exact dropNames_append _ _

end

end SignChart
