/-
  A fraction that stands behind an operator.

  A fraction is written as a quotient of two groups without a group around the whole, so that the operator in
  front of it takes the numerator alone: `(c)/frac(a,b)` is `((c)/(a))/(b)`, and `(c)^frac(a,b)` is
  `((c)^(a))/(b)`.

  1. **Words.**  `FracFree` says that the word `frac` stands nowhere in a text.  Such a text is passed over in
     the search for calls (`fractionsFrom_append`).

  2. **Normal forms.**  Both ways to write a fraction have the same canonical form, made of the canonical forms
     of the operands (`canonical_call`, `canonical_latex`).

  3. **Trees.**  The operands are trees (`tree_of_operations`), and so is what is made of them (`strokeTree`,
     `caretTree`), with a postorder that is never that of an operator on the fraction (`operations_fraction`).
-/
import SignChart.Proofs.Input.Composition
import SignChart.Proofs.Input.Reading

namespace SignChart

section
variable {a : Bool} {c d : Char} {r s t w : Text}

/-! ## Words -/

/-- The word `frac`, in any case, stands nowhere in the text. -/
def FracFree (t : Text) : Prop := ∀ w : Text, w <:+: t → w.asciiLower ≠ ['f', 'r', 'a', 'c']

/-- A part of a text has no word that the text does not have. -/
theorem FracFree.part (h : FracFree t) (hs : s <:+: t) : FracFree s := fun w hw => h w (hw.trans hs)

theorem isLetter_of_frac (h : w.asciiLower = ['f', 'r', 'a', 'c']) : ∀ c ∈ w, isLetter c = true := by
  intro c hc
  have hlower : c.toLower ∈ ['f', 'r', 'a', 'c'] := h ▸ List.mem_map_of_mem hc
  rw [← isLetter_toLower]
  simp only [List.mem_cons, List.not_mem_nil, or_false] at hlower
  rcases hlower with h | h | h | h <;> rw [h] <;> rfl

theorem ne_nil_of_frac (h : w.asciiLower = ['f', 'r', 'a', 'c']) : w ≠ [] := by
  rintro rfl
  exact absurd h (by decide)

/-- Without an `f` there is no `frac`. -/
theorem fracFree_of_no_f (h : ∀ c ∈ t, c.toLower ≠ 'f') : FracFree t := by
  intro w hw hfrac
  cases w with
  | nil => exact absurd hfrac (by decide)
  | cons c w => exact h c (hw.subset List.mem_cons_self) (List.cons.inj hfrac).1

/-- No word goes across a character that is no letter. -/
theorem fracFree_append (hc : isLetter c = false) (hs : FracFree s) (hr : FracFree r) :
    FracFree (s ++ c :: r) := by
  intro w hw hfrac
  have hletters := isLetter_of_frac hfrac
  have hnot : ∀ {u : Text}, u <+: c :: r → u ⊆ w → u = [] := by
    intro u hu hsub
    rcases List.prefix_cons_iff.1 hu with h | ⟨v, rfl, _⟩
    · exact h
    · exact absurd (hc.symm.trans (hletters c (hsub List.mem_cons_self))) Bool.false_ne_true
  rcases List.infix_append_iff.1 hw with h | h | ⟨u, v, rfl, hu, hv⟩
  · exact hs w h hfrac
  · rcases List.infix_cons_iff.1 h with h | h
    · exact ne_nil_of_frac hfrac (hnot h (List.Subset.refl w))
    · exact hr w h hfrac
  · rw [hnot hv (List.subset_append_right u v), List.append_nil] at hfrac
    exact hs u hu.isInfix hfrac

/-- A letter of the word `frac`. -/
def IsFracLetter (c : Char) : Prop := c.toLower ∈ ['f', 'r', 'a', 'c']

/-- The second text is the first with parts of it written differently, in texts that do not begin with a letter
of `frac` and have no `f`. -/
inductive Rewrites : Text → Text → Prop where
  | nil : Rewrites [] []
  | keep (c : Char) {s t : Text} (h : Rewrites s t) : Rewrites (c :: s) (c :: t)
  | swap (u : Text) {d : Char} {v s t : Text} (hd : ¬ IsFracLetter d) (hv : ∀ c ∈ v, c.toLower ≠ 'f')
      (h : Rewrites s t) : Rewrites (u ++ s) (d :: v ++ t)

/-- The letters of `frac` at the front of the second text are those of the first. -/
theorem Rewrites.isPrefix (h : Rewrites s t) : ∀ {w : Text}, (∀ c ∈ w, IsFracLetter c) → w <+: t → w <+: s := by
  induction h with
  | nil => exact fun _ h => h
  | keep c _ ih =>
    intro w hw h
    rcases List.prefix_cons_iff.1 h with rfl | ⟨v, rfl, hv⟩
    · exact List.nil_prefix
    · exact List.prefix_cons_iff.2 (Or.inr ⟨v, rfl, ih (fun d hd => hw d (List.mem_cons_of_mem c hd)) hv⟩)
  | swap u hd _ _ _ =>
    intro w hw h
    rcases List.prefix_cons_iff.1 h with rfl | ⟨v, rfl, _⟩
    · exact List.nil_prefix
    · exact absurd (hw _ List.mem_cons_self) hd

/-- The word `frac` in the second text would be in the first. -/
theorem Rewrites.isInfix (h : Rewrites s t) (hc : c.toLower = 'f') (hw : ∀ d ∈ w, IsFracLetter d)
    (ht : c :: w <:+: t) : c :: w <:+: s := by
  have hletters : ∀ d ∈ c :: w, IsFracLetter d :=
    List.forall_mem_cons.2 ⟨by rw [IsFracLetter, hc]; exact List.mem_cons_self, hw⟩
  -- nothing that begins with an f begins in a part that has none
  have hpass : ∀ {v t : Text}, (∀ d ∈ v, d.toLower ≠ 'f') → c :: w <:+: v ++ t → c :: w <:+: t := by
    intro v t hv ht
    induction v with
    | nil => exact ht
    | cons d v ih =>
      refine ih (fun e he => hv e (List.mem_cons_of_mem d he)) ?_
      rcases List.infix_cons_iff.1 ht with h | h
      · obtain ⟨rfl, _⟩ := List.cons_prefix_cons.1 h
        exact absurd hc (hv c List.mem_cons_self)
      · exact h
  induction h with
  | nil => exact ht
  | keep d hst ih =>
    rcases List.infix_cons_iff.1 ht with h | h
    · exact ((hst.keep d).isPrefix hletters h).isInfix
    · exact List.infix_cons (ih h)
  | swap u hd hv _ ih =>
    have hfirst : ∀ e : Char, e ∈ _ :: _ → e.toLower ≠ 'f' := List.forall_mem_cons.2
      ⟨fun h => hd (by rw [IsFracLetter, h]; exact List.mem_cons_self), hv⟩
    exact (ih (hpass hfirst ht)).trans (List.suffix_append u _).isInfix

/-- No word comes into being. -/
theorem FracFree.rewrites (ht : FracFree t) (h : Rewrites t s) : FracFree s := by
  intro w hw hfrac
  have hletters : ∀ d ∈ w, IsFracLetter d := fun d hd => by
    rw [IsFracLetter, ← hfrac]
    exact List.mem_map_of_mem hd
  cases w with
  | nil => exact absurd hfrac (by decide)
  | cons c w =>
    have hc : c.toLower = 'f' := (List.cons.inj hfrac).1
    exact ht _ (h.isInfix hc (fun d hd => hletters d (List.mem_cons_of_mem c hd)) hw) hfrac

/-- Blanks are written differently, and no `f` comes in. -/
theorem rewrites_spaceFrom (t : Text) : Rewrites t (spaceFrom false t) ∧
    ∀ u : Text, Rewrites (u ++ t) (spaceFrom true t) := by
  have hspace : ¬ IsFracLetter ' ' := by rw [IsFracLetter]; decide
  have hnone : ∀ c ∈ ([] : Text), c.toLower ≠ 'f' := fun c hc => absurd hc List.not_mem_nil
  induction t with
  | nil => exact ⟨.nil, fun u => .swap u hspace hnone .nil⟩
  | cons c r ih =>
    by_cases hc : isBlank c = true
    · rw [spaceFrom_cons_of_blank hc, spaceFrom_cons_of_blank hc]
      exact ⟨ih.2 [c], fun u => List.append_cons u c r ▸ ih.2 (u ++ [c])⟩
    · have hc := Bool.eq_false_iff.2 hc
      rw [spaceFrom_cons_of_not_blank hc, spaceFrom_cons_of_not_blank hc]
      exact ⟨ih.1.keep c, fun u => .swap u hspace hnone (ih.1.keep c)⟩

/-- Doubled stars are written differently, and no `f` comes in. -/
theorem rewrites_replacePair (t : Text) : Rewrites t (Text.replacePair '*' '*' ['^'] t) := by
  fun_induction Text.replacePair '*' '*' ['^'] t with
  | case1 => exact .nil
  | case2 c => exact .keep c .nil
  | case3 c d r _ ih =>
    have hcaret : ¬ IsFracLetter '^' := by rw [IsFracLetter]; decide
    exact .swap [c, d] hcaret (fun e he => absurd he List.not_mem_nil) ih
  | case4 c d r _ ih => exact ih.keep c

/-- Symbols are written differently, and no `f` comes in. -/
theorem rewrites_symbols (t : Text) : Rewrites t (t.flatMap asciiSymbol) := by
  have hsymbols : ∀ w ∈ [['*'], ['/'], ['-'], ['p', 'i'], ['t', 'a', 'u'], ['^', '2'], ['^', '3'], ['('], [')']],
      ∃ d v, w = d :: v ∧ d.toLower ∉ ['f', 'r', 'a', 'c'] ∧ v.all (fun c => c.toLower != 'f') = true := by
    simp only [List.forall_mem_cons]
    refine ⟨?_, ?_, ?_, ?_, ?_, ?_, ?_, ?_, ?_, fun w hw => absurd hw List.not_mem_nil⟩ <;>
      exact ⟨_, _, rfl, by decide, rfl⟩
  induction t with
  | nil => exact .nil
  | cons c r ih =>
    rw [List.flatMap_cons]
    rcases asciiSymbol_eq c with h | h
    · rw [h]
      exact ih.keep c
    · obtain ⟨d, v, hdv, hd, hv⟩ := hsymbols _ h
      rw [hdv]
      exact ih.swap [c] hd fun e he => bne_iff_ne.1 (List.all_eq_true.1 hv e he)

theorem fracFree_spaceFrom (h : FracFree t) : FracFree (spaceFrom false t) := h.rewrites (rewrites_spaceFrom t).1

theorem fracFree_asciiSymbols (h : FracFree t) : FracFree (asciiSymbols t) :=
  (h.rewrites (rewrites_symbols t)).rewrites (rewrites_replacePair _)

theorem fracFree_squeeze (h : FracFree t) : FracFree t.squeeze := by
  have hspace := fracFree_spaceFrom (h.part (List.dropWhile_suffix isBlank).isInfix)
  rcases spaceFrom_eq false (t.dropWhile isBlank) with he | he <;> rw [he] at hspace
  · exact hspace
  · exact hspace.part (List.prefix_append _ _).isInfix

/-- Nothing is a call. -/
theorem fractionCall?_of_fracFree (h : FracFree t) : fractionCall? t = none :=
  if_neg (h (t.take 4) (List.take_prefix 4 t).isInfix)

/-- Without the word there is no call to rewrite. -/
theorem fractions_of_fracFree (h : FracFree t) : fractions t = t := by
  have hnone : ∀ (t : Text) (a : Bool), FracFree t → ¬ hasFractionCall a t = true := by
    intro t
    induction t with
    | nil => exact fun _ _ h => absurd h (by simp [hasFractionCall])
    | cons c r ih =>
      intro a h hcall
      rcases hasFractionCall_cons.1 hcall with ⟨_, g, hg⟩ | hcall
      · exact absurd ((fractionCall?_of_fracFree h).symm.trans hg) (by simp)
      · exact ih _ (h.part (List.suffix_cons c r).isInfix) hcall
  exact fractionsFrom_of_no_call (hnone t false h)

/-- Where no call begins, the character stays. -/
theorem fractionsFrom_cons (h : a = true ∨ fractionCall? (c :: r) = none) :
    fractionsFrom a (c :: r) = c :: fractionsFrom (isLetter c) r := by
  rw [fractionsFrom.eq_def]
  dsimp only
  split
  · next g hg =>
    rcases h with rfl | h
    · exact absurd hg (by simp)
    · rw [h, ite_self] at hg
      exact absurd hg (by simp)
  · rfl

/-- A call with two arguments is written as their quotient. -/
theorem fractions_of_call {g : Group} {num den : Text} (hg : fractionCall? t = some g)
    (hs : splitOutside ',' g.content = [num, den]) :
    fractions t = quotient (fractions num.trim) (fractions den.trim) ++ fractions g.beyond := by
  rw [fractions, fractionsFrom.eq_def]
  split
  · exact absurd (hg.symm.trans (if_neg (by decide))) (by simp)
  · split
    · next g' hg' =>
      obtain rfl : g = g' := Option.some.inj (hg.symm.trans hg')
      split
      · next num' den' hs' =>
        obtain ⟨rfl, h⟩ := List.cons.inj (hs.symm.trans hs')
        obtain ⟨rfl, _⟩ := List.cons.inj h
        rfl
      · next hnot => exact absurd hs (hnot num den)
    · next hnone => exact absurd (hg.symm.trans hnone) (by simp)

/-- A call with another number of arguments is written as a group. -/
theorem fractions_of_call_of_ne {g : Group} (hg : fractionCall? t = some g)
    (hs : ∀ num den, splitOutside ',' g.content ≠ [num, den]) :
    fractions t = parenthesized (fractions g.content.trim) ++ fractions g.beyond := by
  rw [fractions, fractionsFrom.eq_def]
  split
  · exact absurd (hg.symm.trans (if_neg (by decide))) (by simp)
  · split
    · next g' hg' =>
      obtain rfl : g = g' := Option.some.inj (hg.symm.trans hg')
      split
      · next num den hs' => exact absurd hs' (hs num den)
      · rfl
    · next hnone => exact absurd (hg.symm.trans hnone) (by simp)

/-- What is written for a call depends on its arguments alone. -/
theorem exists_fractions_of_call (content : Text) : ∃ w, ∀ {t : Text} {g : Group}, fractionCall? t = some g →
    g.content = content → fractions t = w ++ fractions g.beyond := by
  by_cases hpair : ∃ num den, splitOutside ',' content = [num, den]
  · obtain ⟨num, den, hs⟩ := hpair
    exact ⟨_, fun hg hc => fractions_of_call hg (hc ▸ hs)⟩
  · refine ⟨parenthesized (fractions content.trim), fun hg hc => ?_⟩
    rw [fractions_of_call_of_ne hg fun num den hs => hpair ⟨num, den, hc ▸ hs⟩, hc]

/-- No word goes across the seam of the texts. -/
def Parted (s r : Text) : Prop := ∀ c ∈ s.getLast?, ∀ d ∈ r.head?, isLetter c = true → isLetter d = false

/-- No word goes across a seam behind a character that is no letter. -/
theorem parted_of_last (h : ∃ c ∈ s.getLast?, isLetter c = false) (r : Text) : Parted s r := by
  obtain ⟨c, hc, hl⟩ := h
  intro d hd _ _ hletter
  obtain rfl := Option.mem_unique hc hd
  exact absurd (hl.symm.trans hletter) Bool.false_ne_true

theorem fractionCall?_of_not_letter (h : isLetter c = false) : fractionCall? (c :: r) = none :=
  if_neg fun hfrac => absurd (h.symm.trans (isLetter_of_frac hfrac c List.mem_cons_self)) Bool.false_ne_true

/-- What stands in front matters only to a text that begins with a letter. -/
theorem fractionsFrom_of_head (h : ∀ d ∈ r.head?, isLetter d = false) (a : Bool) : fractionsFrom a r = fractions r := by
  cases r with
  | nil => rw [fractions, fractionsFrom, fractionsFrom]
  | cons d r =>
    have hnone := fractionCall?_of_not_letter (r := r) (h d rfl)
    rw [fractions, fractionsFrom_cons (Or.inr hnone), fractionsFrom_cons (Or.inr hnone)]

/-- What is written begins as the text does, or with a group. -/
theorem fractionsFrom_cons_cases (a : Bool) (c : Char) (r : Text) :
    fractionsFrom a (c :: r) = c :: fractionsFrom (isLetter c) r ∨
      isLetter c = true ∧ ∃ u, fractionsFrom a (c :: r) = '(' :: u := by
  rw [fractionsFrom.eq_def]
  dsimp only
  split
  · next g hg =>
    refine Or.inr ⟨Bool.of_not_eq_false fun hc => ?_, ?_⟩
    · rw [fractionCall?_of_not_letter hc, ite_self] at hg
      exact absurd hg (by simp)
    · split <;> exact ⟨_, rfl⟩
  · exact Or.inl rfl

/-- A text without the word, that no word goes on from, is passed over. -/
theorem fractionsFrom_append (hs : FracFree s) (hne : s ≠ []) (hseam : Parted s r) :
    ∀ a : Bool, fractionsFrom a (s ++ r) = s ++ fractions r := by
  induction s with
  | nil => exact absurd rfl hne
  | cons c s ih =>
    intro a
    have hnone : fractionCall? (c :: (s ++ r)) = none := by
      refine if_neg fun hfrac => ?_
      rcases List.prefix_or_prefix_of_prefix (List.take_prefix 4 (c :: (s ++ r))) (List.prefix_append (c :: s) r)
        with h | ⟨u, hu⟩
      · exact hs _ h.isInfix hfrac
      · cases u with
        | nil =>
          rw [List.append_nil] at hu
          exact hs _ (hu ▸ List.infix_rfl) hfrac
        -- the word goes across the seam
        | cons d u =>
          have hletters := isLetter_of_frac hfrac
          rw [← hu] at hletters
          have hd : d ∈ r.head? := by
            obtain ⟨v, hv⟩ := List.take_prefix 4 (c :: (s ++ r))
            rw [← hu, List.append_assoc] at hv
            rw [← List.append_cancel_left (show c :: s ++ (d :: u ++ v) = c :: s ++ r from hv)]
            rfl
          have hlast := hletters _ (List.mem_append_left _ (List.getLast_mem (List.cons_ne_nil c s)))
          have hnot := hseam _ (List.getLast?_eq_some_getLast (List.cons_ne_nil c s)) d hd hlast
          exact absurd (hnot.symm.trans (hletters d (List.mem_append_right _ List.mem_cons_self))) Bool.false_ne_true
    rw [List.cons_append, fractionsFrom_cons (Or.inr hnone)]
    cases s with
    | nil =>
      by_cases hl : isLetter c = true
      · rw [List.nil_append, fractionsFrom_of_head fun d hd => hseam c rfl d hd hl]
        rfl
      · rw [Bool.eq_false_iff.2 hl]
        rfl
    | cons e s =>
      exact congrArg (c :: ·) (ih (hs.part (List.suffix_cons c _).isInfix) (List.cons_ne_nil e s) hseam _)

/-! ## Normal forms -/

/-- A fraction as a call. -/
def callText (num den : Text) : Text := "frac".toList ++ '(' :: (num ++ ',' :: (den ++ [')']))

/-- A fraction in LaTeX. -/
def latexText (num den : Text) : Text := "\\frac".toList ++ '{' :: (num ++ '}' :: '{' :: (den ++ ['}']))

/-- What follows a group and an operator. -/
def behindGroup (base : Text) (o : Char) (r : Text) : Text := '(' :: (base ++ ')' :: o :: r)

/-- The call of a fraction is written as the quotient of its trimmed operands. -/
theorem fractions_call {num den : Text} (hn : Balanced num) (hd : Balanced den) (hn' : ',' ∉ num)
    (hd' : ',' ∉ den) (hfn : FracFree num) (hfd : FracFree den) :
    fractions (callText num den) = quotient num.trim den.trim := by
  have hpair : Balanced (num ++ ',' :: den) :=
    hn.append (Balanced.append (s := [',']) (by decide) hd)
  have hgroup : fractionCall? (callText num den) = some ⟨num ++ ',' :: den, [], true⟩ := by
    have htrim : Text.trimStart ((callText num den).drop 4) = '(' :: ((num ++ ',' :: den) ++ [')']) := by
      rw [List.append_assoc]
      exact trimStart_of_unindented (unindented_cons rfl _)
    have hname : Text.asciiLower ((callText num den).take 4) = ['f', 'r', 'a', 'c'] := rfl
    rw [fractionCall?, hname, if_pos rfl, htrim]
    exact paren?_of_balanced hpair []
  have hsplit : splitOutside ',' (num ++ ',' :: den) = [num, den] :=
    splitOutside_pair (by decide) hn hd hn' hd'
  rw [fractions_of_call hgroup hsplit, fractions_of_fracFree (hfn.part (trim_isInfix num)),
    fractions_of_fracFree (hfd.part (trim_isInfix den)), show fractions [] = [] by rw [fractions, fractionsFrom],
    List.append_nil]

/-- A fraction in LaTeX is written as the quotient of its trimmed operands. -/
theorem latexToPlain_latexText {num den : Text} (hn : LatexFree num) (hd : LatexFree den) :
    latexToPlain (latexText num den) = quotient num.trim den.trim := by
  have hparts : (parts 2 ('{' :: (num ++ '}' :: '{' :: (den ++ ['}'])))).map latexToPlain = [num, den, []] := by
    rw [parts, parts, parts, readArgument_group hn, readArgument_group hd, List.map_cons, List.map_cons,
      List.map_cons, latexToPlain_of_latexFree hn, latexToPlain_of_latexFree hd, latexToPlain_nil]
    rfl
  have hread : readName ("frac".toList ++ '{' :: (num ++ '}' :: '{' :: (den ++ ['}']))) =
      ("frac".toList, '{' :: (num ++ '}' :: '{' :: (den ++ ['}']))) := rfl
  have hplain := latexToPlain_fraction hread (by decide) hparts
  rwa [List.append_nil] at hplain

/-! ### The parts -/

/-- An operator that a fraction stands behind. -/
structure IsOver (o : Char) : Prop where
  isBreak : IsBreak o
  isBlank : isBlank o = false
  isLetter : isLetter o = false
  isWordChar : isWordChar o = false
  lowerCase : lowerCase o = [o]
  latex : o ∉ ['\\', '{', '}']
  not_paren : o ≠ '(' ∧ o ≠ ')'
  not_mark : o ≠ ',' ∧ o ≠ '='

theorem isOver_stroke : IsOver '/' :=
  ⟨⟨rfl, by decide⟩, rfl, rfl, rfl, rfl, by decide, by decide, by decide⟩

theorem isOver_caret : IsOver '^' :=
  ⟨⟨rfl, by decide⟩, rfl, rfl, rfl, rfl, by decide, by decide, by decide⟩

/-- What is done to a text is done to it part by part at this character. -/
def SplitsAt (f : Text → Text) (c : Char) : Prop := ∀ s r : Text, f (s ++ c :: r) = f s ++ c :: f r

theorem splitsAt_asciiSymbols (hc : IsBreak c) : SplitsAt asciiSymbols c := asciiSymbols_append hc

theorem splitsAt_bare (hb : isBlank c = false) (hl : lowerCase c = [c]) : SplitsAt bare c := by
  intro s r
  rw [bare_append, bare_cons_of_not_blank hb, hl]
  rfl

theorem SplitsAt.cons {f : Text → Text} (h : SplitsAt f c) (hnil : f [] = []) (r : Text) :
    f (c :: r) = c :: f r := by
  have hc := h [] r
  rw [hnil] at hc
  exact hc

/-- What is done part by part at parentheses is done inside a group. -/
theorem SplitsAt.parenthesized {f : Text → Text} (ho : SplitsAt f '(') (hc : SplitsAt f ')') (hnil : f [] = [])
    (t : Text) : f (parenthesized t) = parenthesized (f t) := by
  rw [SignChart.parenthesized, List.cons_append, ho.cons hnil, hc, hnil]
  rfl

/-- What is done part by part at parentheses and strokes is done in both operands of a quotient. -/
theorem SplitsAt.quotient {f : Text → Text} (ho : SplitsAt f '(') (hc : SplitsAt f ')') (hs : SplitsAt f '/')
    (hnil : f [] = []) (s t : Text) : f (quotient s t) = quotient (f s) (f t) := by
  rw [SignChart.quotient, hs, ho.parenthesized hc hnil, ho.parenthesized hc hnil]
  rfl

/-- What is done part by part at an operator is done on both sides of it. -/
theorem SplitsAt.behindGroup {f : Text → Text} {o : Char} (hopen : SplitsAt f '(') (hc : SplitsAt f ')')
    (ho : SplitsAt f o) (hnil : f [] = []) (base r : Text) :
    f (behindGroup base o r) = behindGroup (f base) o (f r) := by
  rw [SignChart.behindGroup, hopen.cons hnil, hc, ho.cons hnil]
  rfl

theorem isBreak_symbols : ∀ c ∈ ['(', ')', '/', ','], IsBreak c := by
  intro c hc
  simp only [List.mem_cons, List.not_mem_nil, or_false] at hc
  rcases hc with rfl | rfl | rfl | rfl <;> exact ⟨rfl, by decide⟩

/-- A text that can stand in a fraction: no commas, braces, backslashes and equality signs, and no word `frac`. -/
structure Operand (t : Text) : Prop where
  chars : ∀ c ∈ t, c ∉ [',', '{', '}', '\\', '=']
  fracFree : FracFree t

/-- The parts of a power or a quotient are squeezed each by itself. -/
theorem squeeze_behindGroup {o : Char} (ho : IsOver o) (base r : Text) :
    (behindGroup base o r).squeeze = behindGroup (spaceFrom false base) o (Text.squeezeFrom false r) := by
  rw [behindGroup, Text.squeeze, trimStart_of_unindented (unindented_cons rfl _),
    squeezeFrom_cons_of_not_blank rfl, squeezeFrom_append false base _ rfl, squeezeFrom_cons_of_not_blank ho.isBlank]
  rfl

theorem squeezeFrom_callText (num den : Text) :
    Text.squeezeFrom false (callText num den) = callText (spaceFrom false num) (spaceFrom false den) := by
  rw [callText, squeezeFrom_append _ _ _ rfl, squeezeFrom_append _ _ _ rfl, squeezeFrom_append _ _ _ rfl]
  rfl

theorem squeezeFrom_latexText (num den : Text) :
    Text.squeezeFrom false (latexText num den) = latexText (spaceFrom false num) (spaceFrom false den) := by
  rw [latexText, squeezeFrom_append _ _ _ rfl, squeezeFrom_append _ _ _ rfl, squeezeFrom_cons_of_not_blank rfl,
    squeezeFrom_append _ _ _ rfl]
  rfl

/-- The canonical form of what was spelled out without commas and equality signs. -/
theorem canonical_spelled (hcomma : ',' ∉ t) (heq : '=' ∉ t) :
    canonical (dropNames (usualCases t).squeeze) = written .other (bare t) := by
  have hmem : ∀ c, isLetter c = false → c ≠ ' ' → c ∉ t → c ∉ (usualCases t).squeeze := by
    intro c hl hspace hc hm
    exact hc (mem_of_alike (usualCases_alike t) ((mem_squeeze hm).resolve_right hspace) hl)
  have hunnamed : afterEquals? (usualCases t).squeeze = none := by
    cases h : afterEquals? (usualCases t).squeeze with
    | none => rfl
    | some r =>
      obtain ⟨s, u, hsu, _⟩ := of_afterEquals? h
      exact absurd (hsu ▸ List.mem_append_right s List.mem_cons_self) (hmem '=' rfl (by decide) heq)
  rw [dropNames_of_unnamed hunnamed, canonical_eq_written (hmem ',' rfl (by decide) hcomma), bare_squeeze,
    bare_usualCases]

/-- No symbol is written as a comma, a backslash or an equality sign. -/
theorem not_mem_asciiSymbols (hc : c ∈ [',', '\\', '=']) (h : c ∉ t) : c ∉ asciiSymbols t := by
  refine fun hm => h (mem_of_mem_asciiSymbols ?_ hm)
  simp only [List.mem_cons, List.not_mem_nil, or_false] at hc
  rcases hc with rfl | rfl | rfl <;> decide

theorem bare_trim (t : Text) : bare t.trim = bare t := by
  have hblanks : ∀ {w : Text}, (∀ c ∈ w, isBlank c = true) → bare w = [] := by
    intro w hw
    induction w with
    | nil => rfl
    | cons c r ih =>
      rw [bare_cons_of_blank (hw c List.mem_cons_self), ih fun d hd => hw d (List.mem_cons_of_mem c hd)]
  obtain ⟨w, hw, h⟩ := eq_trim_append t
  rw [← bare_trimStart t, h, bare_append, hblanks hw, List.append_nil]

/-- The second text is what is written for the operand, without its marks and up to blanks and case. -/
structure WrittenFor (t x : Text) : Prop where
  chars : ∀ c ∈ [',', '\\', '='], c ∉ x
  fracFree : FracFree x
  bare_eq : bare x = ink t

/-- Blanks do not matter to what is written for an operand. -/
theorem WrittenFor.trim {x : Text} (h : WrittenFor t x) : WrittenFor t x.trim :=
  ⟨fun c hc hm => h.chars c hc ((trim_isInfix x).subset hm), h.fracFree.part (trim_isInfix x),
    (bare_trim x).trans h.bare_eq⟩

/-- The parentheses of what is written for an operand are those of the operand. -/
theorem WrittenFor.balanced {x : Text} (h : WrittenFor t x) (ht : Balanced (ink t)) : Balanced x := by
  rw [Balanced, nesting_eq_of_parens ((parens_bare x).symm.trans (congrArg parens h.bare_eq))]
  exact ht

/-- What is written for a part of an operand, with other blanks. -/
theorem Operand.writtenFor {u : Text} (h : Operand t) (hmem : ∀ c ∈ u, c ∈ t ∨ c = ' ') (hfree : FracFree u)
    (hink : ink u = ink t) : WrittenFor t (asciiSymbols u) := by
  refine ⟨fun c hc => not_mem_asciiSymbols hc fun hm => ?_, fracFree_asciiSymbols hfree, hink⟩
  simp only [List.mem_cons, List.not_mem_nil, or_false] at hc
  rcases hmem c hm with hm | rfl
  · exact h.chars c hm (by rcases hc with rfl | rfl | rfl <;> decide)
  · exact absurd hc (by decide)

/-- All that is done to an operand, its blanks and its symbols, leaves its ink. -/
theorem Operand.spaced (h : Operand t) : WrittenFor t (asciiSymbols (spaceFrom false t)) :=
  h.writtenFor (fun _ => mem_spaceFrom) (fracFree_spaceFrom h.fracFree) (ink_spaceFrom t)

theorem Operand.squeezed (h : Operand t) : WrittenFor t (asciiSymbols t.squeeze) :=
  h.writtenFor (fun _ => mem_squeeze) (fracFree_squeeze h.fracFree) (ink_squeeze t)

theorem Operand.trimmed (h : Operand t) : WrittenFor t (asciiSymbols (spaceFrom false t).trim) :=
  h.writtenFor (fun _ hc => mem_spaceFrom ((trim_isInfix _).subset hc))
    ((fracFree_spaceFrom h.fracFree).part (trim_isInfix _)) ((ink_trim _).trans (ink_spaceFrom t))

/-- The canonical form of an operand by itself. -/
theorem canonical_operand (h : Operand t) : canonical (normalize t) = written .other (ink t) := by
  have hplain : '\\' ∉ t.squeeze := fun hm =>
    (mem_squeeze hm).elim (fun hm => h.chars _ hm (by decide)) (by decide)
  have hw := h.squeezed
  have hspelled : normalize t = dropNames (usualCases (asciiSymbols t.squeeze)).squeeze := by
    rw [normalize]
    simp only [if_neg hplain, plainSpelling, fractions_of_fracFree hw.fracFree]
  rw [hspelled, canonical_spelled (hw.chars ',' (by decide)) (hw.chars '=' (by decide)), hw.bare_eq]

/-- The canonical form of a fraction behind an operator, once it is written as a quotient. -/
theorem canonical_behindGroup {o : Char} (ho : IsOver o) {base num den b n d : Text} (hb : WrittenFor base b)
    (hn : WrittenFor num n) (hd : WrittenFor den d) :
    canonical (dropNames (usualCases (behindGroup b o (quotient n d))).squeeze) =
      written .other (behindGroup (ink base) o (quotient (ink num) (ink den))) := by
  have hmark : ∀ c ∈ [',', '='], c ≠ o → c ∉ behindGroup b o (quotient n d) := by
    intro c hc hco
    have hnot : ∀ {t x : Text}, WrittenFor t x → c ∉ x := fun h =>
      h.chars c (by
        simp only [List.mem_cons, List.not_mem_nil, or_false] at hc
        rcases hc with rfl | rfl <;> decide)
    have hparen : c ≠ '(' ∧ c ≠ ')' ∧ c ≠ '/' := by
      simp only [List.mem_cons, List.not_mem_nil, or_false] at hc
      rcases hc with rfl | rfl <;> decide
    simp [behindGroup, quotient, parenthesized, hnot hb, hnot hn, hnot hd, hparen, hco]
  have hopen : SplitsAt bare '(' := splitsAt_bare rfl rfl
  have hclose : SplitsAt bare ')' := splitsAt_bare rfl rfl
  rw [canonical_spelled (hmark ',' (by decide) (Ne.symm ho.not_mark.1))
      (hmark '=' (by decide) (Ne.symm ho.not_mark.2)),
    hopen.behindGroup hclose (splitsAt_bare ho.isBlank ho.lowerCase) rfl,
    hopen.quotient hclose (splitsAt_bare rfl rfl) rfl, hb.bare_eq, hn.bare_eq, hd.bare_eq]

/-- Symbols are written on both sides of an operator. -/
theorem asciiSymbols_behindGroup {o : Char} (ho : IsOver o) (base r : Text) :
    asciiSymbols (behindGroup base o r) = behindGroup (asciiSymbols base) o (asciiSymbols r) :=
  SplitsAt.behindGroup (splitsAt_asciiSymbols (isBreak_symbols '(' (by decide)))
    (splitsAt_asciiSymbols (isBreak_symbols ')' (by decide))) (splitsAt_asciiSymbols ho.isBreak) rfl base r

theorem asciiSymbols_quotient (num den : Text) :
    asciiSymbols (quotient num den) = quotient (asciiSymbols num) (asciiSymbols den) :=
  SplitsAt.quotient (splitsAt_asciiSymbols (isBreak_symbols '(' (by decide)))
    (splitsAt_asciiSymbols (isBreak_symbols ')' (by decide)))
    (splitsAt_asciiSymbols (isBreak_symbols '/' (by decide))) rfl num den

theorem asciiSymbols_callText (num den : Text) :
    asciiSymbols (callText num den) = callText (asciiSymbols num) (asciiSymbols den) := by
  rw [callText, asciiSymbols_append (isBreak_symbols '(' (by decide)),
    asciiSymbols_append (isBreak_symbols ',' (by decide)), asciiSymbols_append (isBreak_symbols ')' (by decide))]
  rfl

theorem behindGroup_eq (base : Text) (o : Char) (r : Text) :
    behindGroup base o r = ('(' :: (base ++ [')', o])) ++ r := by
  simp [behindGroup]

theorem fracFree_nil : FracFree [] := fun _ hw hfrac => ne_nil_of_frac hfrac (List.infix_nil.1 hw)

theorem fracFree_cons (hc : isLetter c = false) (hr : FracFree r) : FracFree (c :: r) :=
  fracFree_append hc fracFree_nil hr

/-- A group without the word, and an operator, have no call in them. -/
theorem fracFree_front {o : Char} (ho : IsOver o) {base : Text} (hb : FracFree base) :
    FracFree ('(' :: (base ++ [')', o])) :=
  fracFree_cons rfl (fracFree_append rfl hb (fracFree_cons ho.isLetter fracFree_nil))

/-- A quotient has no call that its operands do not have. -/
theorem fracFree_quotient {num den : Text} (hn : FracFree num) (hd : FracFree den) :
    FracFree (quotient num den) := by
  have hden : FracFree ('(' :: (den ++ [')'])) := fracFree_cons rfl (fracFree_append rfl hd fracFree_nil)
  have heq : quotient num den = '(' :: (num ++ ')' :: '/' :: '(' :: (den ++ [')'])) := by
    simp [quotient, parenthesized]
  rw [heq]
  exact fracFree_cons rfl (fracFree_append rfl hn (fracFree_cons rfl hden))

/-- Behind an operator calls are rewritten as they are by themselves. -/
theorem fractions_behindGroup {o : Char} (ho : IsOver o) {base : Text} (hb : FracFree base) (r : Text) :
    fractions (behindGroup base o r) = behindGroup base o (fractions r) := by
  have hlast : ∃ c ∈ List.getLast? ('(' :: (base ++ [')', o])), isLetter c = false := by
    refine ⟨o, ?_, ho.isLetter⟩
    have hfront : '(' :: (base ++ [')', o]) = ('(' :: (base ++ [')'])) ++ [o] := by simp
    rw [hfront]
    exact List.getLast?_concat
  rw [behindGroup_eq, behindGroup_eq]
  exact fractionsFrom_append (fracFree_front ho hb) (List.cons_ne_nil _ _) (parted_of_last hlast r) false

/-- A call behind an operator. -/
theorem canonical_call {o : Char} (ho : IsOver o) {base num den : Text} (hb : Operand base) (hn : Operand num)
    (hd : Operand den) (hbn : Balanced (ink num)) (hbd : Balanced (ink den)) :
    canonical (normalize (behindGroup base o (callText num den))) =
      written .other (behindGroup (ink base) o (quotient (ink num) (ink den))) := by
  have hsqueeze : (behindGroup base o (callText num den)).squeeze =
      behindGroup (spaceFrom false base) o (callText (spaceFrom false num) (spaceFrom false den)) := by
    rw [squeeze_behindGroup ho, squeezeFrom_callText]
  have hplain : '\\' ∉ behindGroup (spaceFrom false base) o
      (callText (spaceFrom false num) (spaceFrom false den)) := by
    have hspace : ∀ {t : Text}, Operand t → '\\' ∉ spaceFrom false t := fun h hm =>
      (mem_spaceFrom hm).elim (fun hm => h.chars _ hm (by decide)) (by decide)
    have hover : '\\' ≠ o := fun h => ho.latex (h ▸ by decide)
    simp [behindGroup, callText, hspace hb, hspace hn, hspace hd, hover]
  have hwn := hn.spaced
  have hwd := hd.spaced
  have hspelled : plainSpelling (behindGroup (spaceFrom false base) o
      (callText (spaceFrom false num) (spaceFrom false den))) =
        usualCases (behindGroup (asciiSymbols (spaceFrom false base)) o
          (quotient (asciiSymbols (spaceFrom false num)).trim (asciiSymbols (spaceFrom false den)).trim)) := by
    rw [plainSpelling, asciiSymbols_behindGroup ho, asciiSymbols_callText, fractions_behindGroup ho hb.spaced.fracFree,
      fractions_call (hwn.balanced hbn) (hwd.balanced hbd) (hwn.chars ',' (by decide)) (hwd.chars ',' (by decide))
        hwn.fracFree hwd.fracFree]
  rw [normalize, hsqueeze]
  simp only [if_neg hplain, hspelled]
  exact canonical_behindGroup ho hb.spaced hwn.trim hwd.trim

/-- A fraction in LaTeX behind an operator. -/
theorem canonical_latex {o : Char} (ho : IsOver o) {base num den : Text} (hb : Operand base) (hn : Operand num)
    (hd : Operand den) :
    canonical (normalize (behindGroup base o (latexText num den))) =
      written .other (behindGroup (ink base) o (quotient (ink num) (ink den))) := by
  have hsqueeze : (behindGroup base o (latexText num den)).squeeze =
      behindGroup (spaceFrom false base) o (latexText (spaceFrom false num) (spaceFrom false den)) := by
    rw [squeeze_behindGroup ho, squeezeFrom_latexText]
  have hfree : ∀ {t : Text}, Operand t → LatexFree (spaceFrom false t) := by
    intro t h c hm hc
    rcases mem_spaceFrom hm with hm | rfl
    · exact h.chars c hm ((by decide : ['\\', '{', '}'] ⊆ [',', '{', '}', '\\', '=']) hc)
    · exact absurd hc (by decide)
  have hlatex : '\\' ∈ behindGroup (spaceFrom false base) o
      (latexText (spaceFrom false num) (spaceFrom false den)) := by
    simp [behindGroup, latexText]
  have hplain : latexToPlain (behindGroup (spaceFrom false base) o
      (latexText (spaceFrom false num) (spaceFrom false den))) =
        behindGroup (spaceFrom false base) o (quotient (spaceFrom false num).trim (spaceFrom false den).trim) := by
    have hfront : LatexFree ('(' :: (spaceFrom false base ++ [')', o])) :=
      List.forall_mem_cons.2 ⟨by decide, List.forall_mem_append.2 ⟨hfree hb,
        List.forall_mem_cons.2 ⟨by decide, List.forall_mem_singleton.2 ho.latex⟩⟩⟩
    have hnext : ∀ c ∈ (Text.trimStart (latexText (spaceFrom false num) (spaceFrom false den))).head?,
        c ≠ '{' := by
      rintro c ⟨⟩
      decide
    rw [behindGroup_eq, latexToPlain_append hfront hnext, latexToPlain_latexText (hfree hn) (hfree hd),
      ← behindGroup_eq]
  have hquotient := fracFree_quotient hn.trimmed.fracFree hd.trimmed.fracFree
  have hspelled : plainSpelling (behindGroup (spaceFrom false base) o
      (quotient (spaceFrom false num).trim (spaceFrom false den).trim)) =
        usualCases (behindGroup (asciiSymbols (spaceFrom false base)) o
          (quotient (asciiSymbols (spaceFrom false num).trim) (asciiSymbols (spaceFrom false den).trim))) := by
    rw [plainSpelling, asciiSymbols_behindGroup ho, asciiSymbols_quotient, fractions_behindGroup ho hb.spaced.fracFree,
      fractions_of_fracFree hquotient]
  rw [normalize, hsqueeze]
  simp only [if_pos hlatex, hplain, hspelled]
  exact canonical_behindGroup ho hb.spaced hn.trimmed hd.trimmed

/-! ## Operations -/

/-- The operations that a text is compiled to, if it is accepted. -/
def operations (t : Text) : Option (List Instr) :=
  match compile (canonical (normalize t)) with
  | .ok f => some f.program.instrs
  | .error _ => none

/-- A text is accepted exactly if it has operations. -/
theorem operations_eq_some {is : List Instr} :
    operations t = some is ↔ ∃ f, compile (canonical (normalize t)) = .ok f ∧ f.program.instrs = is := by
  rw [operations]
  split
  · next f hf => exact ⟨fun h => ⟨f, hf, Option.some.inj h⟩, fun ⟨g, hg, h⟩ =>
      congrArg some (Except.ok.inj (hf.symm.trans hg) ▸ h)⟩
  · next e he => exact ⟨fun h => absurd h (by simp), fun ⟨g, hg, _⟩ => absurd (he.symm.trans hg) (by simp)⟩

/-- Between pieces only stars are written. -/
theorem mem_written {k : PieceKind} (h : c ∈ written k t) : c ∈ t ∨ c = '*' := by
  have hpieces : ∀ (ps : List Piece) (k : PieceKind), c ∈ writeFrom k ps → c ∈ ps.flatMap Piece.text ∨ c = '*' := by
    intro ps
    induction ps with
    | nil => exact fun _ h => Or.inl h
    | cons p ps ih =>
      intro k h
      rw [writeFrom, List.append_assoc] at h
      rw [List.flatMap_cons, List.mem_append]
      rcases List.mem_append.1 h with h | h
      · split at h
        · exact Or.inr (List.mem_singleton.1 h)
        · exact absurd h List.not_mem_nil
      · rcases List.mem_append.1 h with h | h
        · exact Or.inl (Or.inl h)
        · exact (ih p.kind h).imp_left Or.inr
  obtain ⟨d, hd, h⟩ := List.mem_flatMap.1 h
  split at h
  · exact Or.inr (by simpa using h)
  · obtain rfl := List.mem_singleton.1 h
    rw [← pieces_text t]
    exact hpieces _ k hd

/-- Where there is no comma, none stands outside a call. -/
theorem commasInCalls_of_not_mem (h : ',' ∉ t) {toks : List Token}
    (htokens : (Lexer.ofText t).tokens = toks.map .ok) : CommasInCalls false [] toks := by
  obtain ⟨hspaced, hlexed⟩ := spaced_of_tokens toks (Lexer.ofText t) rfl htokens
  have hsub : ∀ {ws : List Text} {t : Text}, Spaced ws t → ∀ w ∈ ws, w ⊆ t := by
    intro ws t hs
    induction hs with
    | nil => exact fun w hw => absurd hw List.not_mem_nil
    | cons _ _ ih =>
      intro w hw c hc
      rcases List.mem_cons.1 hw with rfl | hw
      · exact List.mem_append_left _ (List.mem_append_right _ hc)
      · exact List.mem_append_right _ (ih w hw hc)
  have hkinds : ∀ tok ∈ toks, tok.kind ≠ .comma := by
    have hlexed' : ∀ (toks : List Token) {prev : Option TokenKind}, Lexed prev toks → ∀ tok ∈ toks,
        tok.kind = .comma → tok.source.text = [','] := by
      intro toks
      induction toks with
      | nil => exact fun _ tok htok => absurd htok List.not_mem_nil
      | cons tok rest ih =>
        intro prev hl tok' htok hk
        rcases List.mem_cons.1 htok with rfl | htok
        · have hterminal := hl.1.eq_of_kind.1 ((kind_of_terminal rfl).symm.trans hk)
          exact text_of_terminal hterminal (by simp)
        · exact ih hl.2.2.2 tok' htok hk
    intro tok htok hk
    have htext := hlexed' toks hlexed tok htok hk
    have hmem := hsub hspaced _ (List.mem_map_of_mem htok)
    rw [htext] at hmem
    exact h (hmem (List.mem_singleton_self _))
  have hall : ∀ (toks : List Token) (named : Bool) (opens : List Bool), (∀ tok ∈ toks, tok.kind ≠ .comma) →
      CommasInCalls named opens toks := by
    intro toks
    induction toks with
    | nil => exact fun _ _ _ => trivial
    | cons tok rest ih =>
      exact fun _ _ h => ⟨fun hk => absurd hk (h tok List.mem_cons_self),
        ih _ _ fun tok htok => h tok (List.mem_cons_of_mem _ htok)⟩
  exact hall toks false [] hkinds

/-- An operand that is accepted is a tree. -/
theorem tree_of_operations {is : List Instr} (h : Operand t) (his : operations t = some is) :
    ∃ e : Tree .sum, Spelling e.terminals (written .other (ink t)) ∧ e.Fits ∧ e.postorder = is := by
  obtain ⟨f, hf, rfl⟩ := operations_eq_some.1 his
  have hcomma : ',' ∉ written .other (ink t) := by
    intro hm
    have hink := (mem_written hm).resolve_right (by decide)
    exact h.chars ',' (mem_of_mem_asciiSymbols (by decide) (mem_bare (by decide) rfl hink)) (by decide)
  have hseparated := separated_canonical (normalize t)
  rw [canonical_operand h] at hf hseparated
  obtain ⟨e, he, hfits, hinstrs⟩ := tree_of_compile hseparated hf fun _ => commasInCalls_of_not_mem hcomma
  exact ⟨e, he, hfits, hinstrs.symm⟩

/-- The text of a tree is accepted. -/
theorem operations_of_tree (e : Tree .sum) (he : Spelling e.terminals (canonical (normalize t))) (hf : e.Fits) :
    operations t = some e.postorder := by
  obtain ⟨f, hcompile, hinstrs, _⟩ := compile_of_spelling e he hf
  exact operations_eq_some.2 ⟨f, hcompile, hinstrs⟩

/-- A group as a factor. -/
def groupOf (e : Tree .sum) : Tree .factor := .power (.atom (.group e))

/-- The tree of a fraction behind a stroke. -/
def strokeTree (base num den : Tree .sum) : Tree .sum :=
  .term (.product .div (Or.inr rfl) (.product .div (Or.inr rfl) (.factor (groupOf base)) (groupOf num))
    (groupOf den))

/-- The tree of a fraction behind a caret. -/
def caretTree (base num den : Tree .sum) : Tree .sum :=
  .term (.product .div (Or.inr rfl) (.factor (.power (.raise (.group base) (groupOf num)))) (groupOf den))

/-- A fraction behind an operator, written. -/
theorem written_behindGroup {o : Char} (ho : IsOver o) (base num den : Text) :
    written .other (behindGroup base o (quotient num den)) =
      '(' :: (written .other base ++ [')']) ++ (spread [o] ++ ('(' :: (written .other num ++ [')']) ++
        (['/'] ++ '(' :: (written .other den ++ [')'])))) := by
  have htext : behindGroup base o (quotient num den) =
      '(' :: (base ++ ')' :: o :: '(' :: (num ++ ')' :: '/' :: '(' :: (den ++ ')' :: []))) := by
    simp [behindGroup, quotient, parenthesized]
  rw [htext, written_group, written_operator ho.isWordChar ho.not_paren.1 ho.not_paren.2, written_group,
    written_operator (by decide) (by decide) (by decide), written_group, written_nil]
  simp [spread]

/-- The first operation of a tree is no operator. -/
theorem postorder_eq_cons {c : Category} (e : Tree c) : ∃ i is, e.postorder = i :: is ∧ ∀ o, i ≠ .operate o := by
  have happend : ∀ {as : List Instr} (bs : List Instr), (∃ i is, as = i :: is ∧ ∀ o, i ≠ .operate o) →
      ∃ i is, as ++ bs = i :: is ∧ ∀ o, i ≠ .operate o := by
    rintro _ bs ⟨i, is, rfl, hi⟩
    exact ⟨i, is ++ bs, rfl, hi⟩
  induction e with
  | term a ih | factor a ih | power a ih | atom a ih | group a ih | last a ih => exact ih
  | sum o _ a b ih _ | product o _ a b ih _ | raise a b ih _ => exact happend _ (happend _ ih)
  | sign o _ a ih | call g f _ as ih | more a as ih _ => exact happend _ ih
  | number | input | constant => exact ⟨_, [], rfl, by simp⟩

/-- A group is the text of its tree in parentheses. -/
theorem spelling_groupOf {e : Tree .sum} (h : Spelling e.terminals t) :
    Spelling (groupOf e).terminals ('(' :: (t ++ [')'])) :=
  spelling_group.2 ⟨t, rfl, h⟩

/-- The last operation differs: a quotient on one side, the operator on the other. -/
theorem operations_ne {b n d : List Instr} {e : Tree .sum} (he : e.postorder = d) (o : Operator) :
    some (b ++ n ++ [.operate o] ++ d ++ [.operate .div]) ≠
      some (b ++ n ++ d ++ [.operate .div, .operate o]) := by
  obtain ⟨i, is, hi, hnot⟩ := postorder_eq_cons e
  intro h
  have h := Option.some.inj h
  rw [← he, hi] at h
  simp only [List.append_assoc, List.append_cancel_left_eq, List.cons_append] at h
  exact hnot o (List.cons.inj h).1.symm

/-- **A fraction behind an operator.**  Whichever way the fraction is written, the operator in front of it takes the
numerator, and the result is divided by the denominator.  This is never the operator on the fraction. -/
theorem operations_fraction {base num den : Text} {b n d : List Instr} (hb : Operand base) (hn : Operand num)
    (hd : Operand den) (hbase : operations base = some b) (hnum : operations num = some n)
    (hden : operations den = some d) :
    ∀ fraction ∈ [callText num den, latexText num den],
      operations (behindGroup base '/' fraction) =
          some (b ++ n ++ [.operate .div] ++ d ++ [.operate .div]) ∧
        operations (behindGroup base '/' fraction) ≠
          some (b ++ n ++ d ++ [.operate .div, .operate .div]) ∧
        operations (behindGroup base '^' fraction) =
          some (b ++ n ++ [.operate .pow] ++ d ++ [.operate .div]) ∧
        operations (behindGroup base '^' fraction) ≠
          some (b ++ n ++ d ++ [.operate .div, .operate .pow]) := by
  obtain ⟨eb, hsb, hfb, rfl⟩ := tree_of_operations hb hbase
  obtain ⟨en, hsn, hfn, rfl⟩ := tree_of_operations hn hnum
  obtain ⟨ed, hsd, hfd, hpost⟩ := tree_of_operations hd hden
  have hbalanced : ∀ {t : Text} {e : Tree .sum}, Spelling e.terminals (written .other (ink t)) →
      Balanced (ink t) := by
    intro t e he
    have := e.balanced he
    rwa [Balanced, nesting_eq_of_parens (parens_written .other (ink t))] at this
  -- both ways to write the fraction have one canonical form
  have hcanonical : ∀ {o : Char}, IsOver o → ∀ fraction ∈ [callText num den, latexText num den],
      canonical (normalize (behindGroup base o fraction)) =
        written .other (behindGroup (ink base) o (quotient (ink num) (ink den))) := by
    intro o ho fraction hf
    simp only [List.mem_cons, List.not_mem_nil, or_false] at hf
    rcases hf with rfl | rfl
    · exact canonical_call ho hb hn hd (hbalanced hsn) (hbalanced hsd)
    · exact canonical_latex ho hb hn hd
  intro fraction hf
  have hstroke : operations (behindGroup base '/' fraction) = some (strokeTree eb en ed).postorder := by
    refine operations_of_tree _ ?_ ⟨⟨hfb, hfn⟩, hfd⟩
    rw [hcanonical isOver_stroke fraction hf, written_behindGroup isOver_stroke, ← List.append_assoc (spread ['/']),
      ← List.append_assoc]
    exact spelling_binary.2 ⟨_, ['/'], _, rfl, by decide,
      spelling_binary.2 ⟨_, ['/'], _, rfl, by decide, spelling_groupOf hsb, spelling_groupOf hsn⟩,
      spelling_groupOf hsd⟩
  have hcaret : operations (behindGroup base '^' fraction) = some (caretTree eb en ed).postorder := by
    refine operations_of_tree _ ?_ ⟨⟨hfb, hfn⟩, hfd⟩
    rw [hcanonical isOver_caret fraction hf, written_behindGroup isOver_caret, ← List.append_assoc (spread ['^']),
      ← List.append_assoc]
    exact spelling_binary.2 ⟨_, ['/'], _, rfl, by decide,
      spelling_binary.2 ⟨_, ['*', '*'], _, rfl, by decide, spelling_groupOf hsb, spelling_groupOf hsn⟩,
      spelling_groupOf hsd⟩
  rw [hstroke, hcaret, ← hpost]
  exact ⟨rfl, operations_ne (e := ed) rfl .div, rfl, operations_ne (e := ed) rfl .pow⟩

end

/-- The operations of a text, from what its tokens are parsed to. -/
theorem operations_of_tokens {t : Text} {toks : List Token} {p : Program} {v : Float}
    (htokens : (Lexer.ofText (canonical (normalize t))).tokens = toks.map .ok)
    (hparse : Parser.start.readAll standardTable (toks.map .ok) = .ok p)
    (heval : Evaluator.eval ⟨canonical (normalize t), standardTable.link p⟩ 0.0 = .ok v) :
    operations t = some (Evaluator.mk (canonical (normalize t)) (standardTable.link p)).program.instrs := by
  refine operations_eq_some.2 ⟨⟨canonical (normalize t), standardTable.link p⟩, ?_, rfl⟩
  have hprogram : parse standardTable (canonical (normalize t)) = .ok p := by rw [parse, htokens, hparse]
  rw [compile, hprogram]
  simp only [heval]

theorem operations_x : operations ['x'] = some [.load ['x']] := by
  have htokens : (Lexer.ofText (canonical (normalize ['x']))).tokens = [⟨.ident, 0, ['x']⟩].map .ok := by cbv
  exact operations_of_tokens htokens rfl rfl

theorem operations_one : operations ['1'] = some [.push 1.0] := by
  have htokens : (Lexer.ofText (canonical (normalize ['1']))).tokens = [⟨.number, 0, ['1']⟩].map .ok := by cbv
  exact operations_of_tokens htokens rfl rfl

/-- `operations_fraction` at a base and a denominator `x` and a numerator `1`. -/
theorem operations_fraction_reciprocal :
    (Operand ['x'] ∧ Operand ['1'] ∧ operations ['x'] = some [.load ['x']] ∧
      operations ['1'] = some [.push 1.0]) ∧
    ∀ fraction ∈ ["frac(1,x)".toList, "\\frac\x7b1\x7d\x7bx\x7d".toList],
      operations ("(x)/".toList ++ fraction) =
          some [.load ['x'], .push 1.0, .operate .div, .load ['x'], .operate .div] ∧
        operations ("(x)/".toList ++ fraction) ≠
          some [.load ['x'], .push 1.0, .load ['x'], .operate .div, .operate .div] ∧
        operations ("(x)^".toList ++ fraction) =
          some [.load ['x'], .push 1.0, .operate .pow, .load ['x'], .operate .div] ∧
        operations ("(x)^".toList ++ fraction) ≠
          some [.load ['x'], .push 1.0, .load ['x'], .operate .div, .operate .pow] := by
  have hx : Operand ['x'] :=
    ⟨List.forall_mem_singleton.2 (by decide), fracFree_of_no_f (List.forall_mem_singleton.2 (by decide))⟩
  have hone : Operand ['1'] :=
    ⟨List.forall_mem_singleton.2 (by decide), fracFree_of_no_f (List.forall_mem_singleton.2 (by decide))⟩
  exact ⟨⟨hx, hone, operations_x, operations_one⟩,
    operations_fraction hx hone hx operations_x operations_one operations_x⟩

/-- **A quotient of a quotient** is not compiled to one: `(x)/frac(1,x)` is `((x)/(1))/(x)`. -/
theorem operations_ungrouped :
    operations ['x'] = some [.load ['x']] ∧ operations ['1'] = some [.push 1.0] ∧
      operations "(x)/frac(1,x)".toList =
        some [.load ['x'], .push 1.0, .operate .div, .load ['x'], .operate .div] ∧
      operations "(x)/frac(1,x)".toList ≠
        some ([.load ['x']] ++ [.push 1.0] ++ [.load ['x']] ++ [.operate .div, .operate .div]) := by
  have htokens : (Lexer.ofText (canonical (normalize "(x)/frac(1,x)".toList))).tokens =
      [⟨.openParen, 0, ['(']⟩, ⟨.ident, 1, ['x']⟩, ⟨.closeParen, 2, [')']⟩, ⟨.op .div, 3, ['/']⟩,
        ⟨.openParen, 4, ['(']⟩, ⟨.number, 5, ['1']⟩, ⟨.closeParen, 6, [')']⟩, ⟨.op .div, 7, ['/']⟩,
        ⟨.openParen, 8, ['(']⟩, ⟨.ident, 9, ['x']⟩, ⟨.closeParen, 10, [')']⟩].map .ok := by cbv
  have hoperations : operations "(x)/frac(1,x)".toList =
      some [.load ['x'], .push 1.0, .operate .div, .load ['x'], .operate .div] :=
    operations_of_tokens htokens rfl rfl
  refine ⟨operations_x, operations_one, hoperations, ?_⟩
  rw [hoperations]
  simp

end SignChart
