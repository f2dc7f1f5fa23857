/-
  Texts that are put together with parentheses and operators.

  What is written of a text and its canonical form keep the parts apart that a parenthesis, a stroke or a caret
  separates: none of these belongs to a word, a number or a doubled star.

  1. **Bare text.**  Without decimal commas a clean text is the text without its blanks, in lower case (`bare`).
     Blanks and the case of letters do not matter to it.

  2. **Ink.**  `ink` is the bare text of what is written for the symbols of a text.  It does not depend on how
     the words of the text are spaced (`ink_spaceFrom`), and is taken part by part (`ink_append`).

  3. **Pieces.**  `written` puts the pieces of a bare text together.  A group is written as the group of what is
     written for its inside (`written_group`).
-/
import SignChart.Proofs.Expr.Spelling
import SignChart.Proofs.Input.NormalForm

namespace SignChart

/-- A text without its blanks, in lower case. -/
def bare (t : Text) : Text := t.flatMap fun c => if isBlank c then [] else lowerCase c

section
variable {a : Bool} {c d : Char} {k : PieceKind} {r s t w : Text}

/-! ## Bare text -/

/-- A text is made bare part by part. -/
theorem bare_append (s t : Text) : bare (s ++ t) = bare s ++ bare t := List.flatMap_append

theorem bare_cons (c : Char) (r : Text) : bare (c :: r) = bare [c] ++ bare r := bare_append [c] r

theorem bare_cons_of_blank (h : isBlank c = true) : bare (c :: r) = bare r := by
  rw [bare, List.flatMap_cons, if_pos h]
  rfl

theorem bare_cons_of_not_blank (h : isBlank c = false) : bare (c :: r) = lowerCase c ++ bare r := by
  rw [bare, List.flatMap_cons, h]
  rfl

/-- Without commas no comma is decimal. -/
theorem cleanFrom_eq_bare (h : ',' ∉ t) (prev : Option Char) : cleanFrom prev t = bare t := by
  induction t generalizing prev with
  | nil => rfl
  | cons c r ih =>
    rw [List.mem_cons, not_or] at h
    rw [cleanFrom, if_neg fun hc => h.1 hc.1.symm, ih h.2]
    by_cases hc : isBlank c = true
    · rw [if_pos hc, bare_cons_of_blank hc]
    · rw [if_neg hc, bare_cons_of_not_blank (Bool.eq_false_iff.2 hc)]

/-- Lower-case forms of characters outside ASCII are letters or outside ASCII. -/
theorem caseRanges_ascii : ∀ r ∈ caseRanges, 128 ≤ (r.first : Int) + r.shift ∨
    97 ≤ (r.first : Int) + r.shift ∧ (r.last : Int) + r.shift ≤ 122 := by
  decide +kernel

/-- A character of ASCII that is no letter is the lower-case form of itself only. -/
theorem eq_of_mem_lowerCase (hd : 0 < d.toNat ∧ d.toNat < 128) (hl : isLetter d = false) (h : d ∈ lowerCase c) : c = d := by
  unfold lowerCase at h
  split at h
  · exact (toLower_eq_iff hl).1 (List.mem_singleton.1 h).symm
  split at h
  · simp only [List.mem_cons, List.not_mem_nil, or_false] at h
    rcases h with rfl | rfl
    · exact absurd hl (by decide)
    · exact absurd hd.2 (by decide)
  split at h
  · next r hr =>
    obtain rfl := List.mem_singleton.1 h
    have hcovers : r.covers c.toNat = true :=
      List.find?_some (p := fun r : CaseRange => r.covers c.toNat) hr
    have hrange := caseRanges_ascii r (List.mem_of_find?_eq_some hr)
    simp only [CaseRange.covers, Bool.and_eq_true, decide_eq_true_eq] at hcovers
    have hnot := mt isLetter_iff.2 (Bool.eq_false_iff.1 hl)
    exfalso
    rcases toNat_ofNat (c.toNat + r.shift).toNat with h | h <;> rw [h] at hd hnot <;> omega
  · exact (List.mem_singleton.1 h).symm

/-- A symbol of ASCII is in the bare text where it was in the text. -/
theorem mem_bare (hd : 0 < d.toNat ∧ d.toNat < 128) (hl : isLetter d = false) (h : d ∈ bare t) : d ∈ t := by
  obtain ⟨c, hc, h⟩ := List.mem_flatMap.1 h
  split at h
  · exact absurd h List.not_mem_nil
  · exact eq_of_mem_lowerCase hd hl h ▸ hc

/-- Blanks are nothing, and case is nothing. -/
theorem bare_squeezeFrom (gap : Bool) (t : Text) : bare (Text.squeezeFrom gap t) = bare t := by
  induction t generalizing gap with
  | nil => rfl
  | cons c r ih =>
    by_cases hc : isBlank c = true
    · rw [squeezeFrom_cons_of_blank hc, bare_cons_of_blank hc, ih]
    · have hc := Bool.eq_false_iff.2 hc
      rw [squeezeFrom_cons_of_not_blank hc, bare_append, bare_cons_of_not_blank hc, bare_cons_of_not_blank hc, ih]
      cases gap <;> rfl

/-- Blanks do not matter to the bare text. -/
theorem bare_trimStart (t : Text) : bare t.trimStart = bare t := by
  induction t with
  | nil => rfl
  | cons c r ih =>
    by_cases hc : isBlank c = true
    · rw [bare_cons_of_blank hc, ← ih, Text.trimStart, List.dropWhile_cons_of_pos hc]
      rfl
    · rw [Text.trimStart, List.dropWhile_cons_of_neg hc]

/-- The bare text of a squeezed text is that of the text. -/
theorem bare_squeeze (t : Text) : bare t.squeeze = bare t :=
  (bare_squeezeFrom false _).trans (bare_trimStart t)

theorem lowerCase_of_isLetter (h : isLetter c = true) : lowerCase c = [c.toLower] :=
  lowerCase_of_ascii (by have hrange := isLetter_iff.1 h; omega)

/-- Letters are made bare by their case alone. -/
theorem bare_letters (h : ∀ c ∈ w, isLetter c = true) : bare w = w.asciiLower := by
  induction w with
  | nil => rfl
  | cons c r ih =>
    have hc := h c List.mem_cons_self
    rw [bare_cons_of_not_blank (not_isBlank_of_isLetter hc), lowerCase_of_isLetter hc,
      ih fun d hd => h d (List.mem_cons_of_mem c hd)]
    rfl

/-- The case that a word is put in does not matter to the bare text. -/
theorem bare_usualCase (h : ∀ c ∈ w, isLetter c = true) : bare (usualCase w) = bare w := by
  have hlower : ∀ t : Text, (Text.asciiLower t).asciiLower = t.asciiLower := by
    intro t
    rw [Text.asciiLower, Text.asciiLower, List.map_map]
    refine List.map_congr_left fun c _ => ?_
    rw [Function.comp_apply, ← Char.toNat_inj, toNat_toLower, toNat_toLower]
    split
    · split <;> omega
    · rfl
  rw [bare_letters h, bare_letters (usualCase_letters h), usualCase]
  split
  · exact hlower w
  · rfl

theorem bare_usualCaseFrom (t : Text) : ∀ w : Text, (∀ c ∈ w, isLetter c = true) →
    bare (usualCaseFrom w t) = bare w ++ bare t := by
  induction t with
  | nil => exact fun w hw => (bare_usualCase hw).trans (List.append_nil _).symm
  | cons c r ih =>
    intro w hw
    by_cases hc : isLetter c = true
    · rw [usualCaseFrom, if_pos hc, ih _ (List.forall_mem_append.2 ⟨hw, List.forall_mem_singleton.2 hc⟩),
        bare_append, List.append_assoc, ← bare_append]
      rfl
    · rw [usualCaseFrom_break w r (Bool.eq_false_iff.2 hc), bare_append, bare_usualCase hw, bare_cons,
        bare_cons c r, usualCases, ih [] fun _ hd => absurd hd List.not_mem_nil]
      rfl

/-- The case that the words of a text are put in does not matter to its bare text. -/
theorem bare_usualCases (t : Text) : bare (usualCases t) = bare t :=
  bare_usualCaseFrom t [] fun _ hd => absurd hd List.not_mem_nil

/-- The parentheses of a text. -/
def parens (t : Text) : Text := t.filter fun c => c = '(' || c = ')'

/-- The depth of a text is that of its parentheses. -/
theorem nesting_eq_of_parens (h : parens s = parens t) (n : Nat) : nesting n s = nesting n t := by
  rw [← nesting_filter n s, ← nesting_filter n t]
  exact congrArg (nesting n) h

theorem parens_append (s t : Text) : parens (s ++ t) = parens s ++ parens t := List.filter_append ..

/-- A text is made bare without touching its parentheses. -/
theorem parens_bare (t : Text) : parens (bare t) = parens t := by
  have hchar : ∀ c : Char, parens (if isBlank c then [] else lowerCase c) = parens [c] := by
    intro c
    by_cases ho : c = '('
    · subst ho; rfl
    by_cases hc : c = ')'
    · subst hc; rfl
    have hright : parens [c] = [] := List.filter_eq_nil_iff.2 (by simp [ho, hc])
    rw [hright]
    split
    · rfl
    · refine List.filter_eq_nil_iff.2 fun d hd h => ?_
      simp only [Bool.or_eq_true, decide_eq_true_eq] at h
      rcases h with rfl | rfl
      · exact ho (eq_of_mem_lowerCase (by decide) (by decide) hd)
      · exact hc (eq_of_mem_lowerCase (by decide) (by decide) hd)
  induction t with
  | nil => rfl
  | cons c r ih =>
    have hc : parens (bare [c]) = parens [c] := by rw [← hchar c, bare, List.flatMap_singleton]
    rw [bare_cons, parens_append, ih, hc, ← parens_append]
    rfl

/-! ## Ink -/

/-- What is written for the symbols of a text, bare. -/
def ink (t : Text) : Text := bare (asciiSymbols t)

/-- A character that stays as it is and is no star. -/
def IsBreak (c : Char) : Prop := asciiSymbol c = [c] ∧ c ≠ '*'

/-- A character that is not the one replaced is in no pair. -/
theorem replacePair_append {x : Char} {new : Text} (hc : c ≠ x) (s r : Text) :
    Text.replacePair x x new (s ++ c :: r) = Text.replacePair x x new s ++ c :: Text.replacePair x x new r := by
  have hbreak : Text.replacePair x x new (c :: r) = c :: Text.replacePair x x new r := by
    cases r with
    | nil => rfl
    | cons d r => rw [Text.replacePair, if_neg fun h => hc h.1]
  fun_induction Text.replacePair x x new s with
  | case1 => exact hbreak
  | case2 d =>
    rw [List.singleton_append, Text.replacePair, if_neg fun h => hc h.2, hbreak]
    rfl
  | case3 d e s hpair ih =>
    rw [List.cons_append, List.cons_append, Text.replacePair, if_pos hpair, ih, List.append_assoc]
  | case4 d e s hpair ih =>
    rw [List.cons_append, List.cons_append, Text.replacePair, if_neg hpair, ← List.cons_append, ih]
    rfl

/-- Symbols are written part by part at a break. -/
theorem asciiSymbols_append (hc : IsBreak c) (s r : Text) :
    asciiSymbols (s ++ c :: r) = asciiSymbols s ++ c :: asciiSymbols r := by
  rw [asciiSymbols, List.flatMap_append, List.flatMap_cons, hc.1, List.singleton_append,
    replacePair_append hc.2]
  rfl

theorem isBreak_of_isBlank (h : isBlank c = true) : IsBreak c := by
  refine ⟨?_, ?_⟩
  · unfold asciiSymbol
    split
    all_goals first | rfl | exact absurd h (by decide)
  · rintro rfl
    exact absurd h (by decide)

/-- The ink of a text is taken part by part at a break. -/
theorem ink_append (hc : IsBreak c) (s r : Text) : ink (s ++ c :: r) = ink s ++ (bare [c] ++ ink r) := by
  rw [ink, asciiSymbols_append hc, bare_append, bare_cons]
  rfl

/-- A blank is a break that leaves nothing. -/
theorem ink_append_blank (hc : isBlank c = true) (s r : Text) : ink (s ++ c :: r) = ink s ++ ink r := by
  rw [ink_append (isBreak_of_isBlank hc), bare_cons_of_blank hc]
  rfl

theorem ink_trimStart (t : Text) : ink t.trimStart = ink t := by
  induction t with
  | nil => rfl
  | cons c r ih =>
    by_cases hc : isBlank c = true
    · have h := ink_append_blank hc [] r
      rw [List.nil_append] at h
      rw [h, Text.trimStart, List.dropWhile_cons_of_pos hc]
      exact ih
    · rw [Text.trimStart, List.dropWhile_cons_of_neg hc]

/-- Blanks at the end leave no ink. -/
theorem ink_append_blanks (h : ∀ c ∈ w, isBlank c = true) (s : Text) : ink (s ++ w) = ink s := by
  have hnil : ∀ {w : Text}, (∀ c ∈ w, isBlank c = true) → ink w = [] := by
    intro w h
    induction w with
    | nil => rfl
    | cons c r ih =>
      exact (ink_append_blank (h c List.mem_cons_self) [] r).trans
        (ih fun d hd => h d (List.mem_cons_of_mem c hd))
  cases w with
  | nil => rw [List.append_nil]
  | cons c r =>
    rw [ink_append_blank (h c List.mem_cons_self), hnil fun d hd => h d (List.mem_cons_of_mem c hd),
      List.append_nil]

/-- A text without the blanks at its front is the trimmed text and blanks behind it. -/
theorem eq_trim_append (t : Text) : ∃ w, (∀ c ∈ w, isBlank c = true) ∧ t.trimStart = t.trim ++ w := by
  refine ⟨(t.trimStart.reverse.takeWhile isBlank).reverse, fun c hc => ?_, ?_⟩
  · exact List.all_eq_true.1 List.all_takeWhile c (List.mem_reverse.1 hc)
  · have h := congrArg List.reverse (List.takeWhile_append_dropWhile (p := isBlank) (l := t.trimStart.reverse))
    rw [List.reverse_append, List.reverse_reverse] at h
    exact h.symm

/-- The blanks around a text leave no ink. -/
theorem ink_trim (t : Text) : ink t.trim = ink t := by
  obtain ⟨w, hw, h⟩ := eq_trim_append t
  rw [← ink_trimStart t, h, ink_append_blanks hw]

/-- How the words are spaced is nothing. -/
theorem ink_append_spaceFrom (t : Text) : ∀ (gap : Bool) (w : Text),
    ink (w ++ spaceFrom gap t) = ink (w ++ ((if gap then [' '] else []) ++ t)) := by
  induction t with
  | nil => intro gap w; rw [List.append_nil]; rfl
  | cons c r ih =>
    intro gap w
    have hgap : ∀ u : Text, ink (w ++ ((if gap then [' '] else []) ++ c :: u)) =
        if gap then ink w ++ ink (c :: u) else ink (w ++ c :: u) := by
      intro u
      cases gap with
      | false => rfl
      | true => exact ink_append_blank isBlank_space w (c :: u)
    by_cases hc : isBlank c = true
    · have hr : ink (c :: r) = ink r := ink_append_blank hc [] r
      rw [spaceFrom_cons_of_blank hc, ih true w, hgap, hr, ink_append_blank hc]
      exact (ink_append_blank isBlank_space w r).trans (by split <;> rfl)
    · have hr : ∀ w : Text, ink (w ++ c :: spaceFrom false r) = ink (w ++ c :: r) := by
        intro w
        rw [List.append_cons, ih false (w ++ [c]), List.append_cons w c r]
        rfl
      rw [spaceFrom_cons_of_not_blank (Bool.eq_false_iff.2 hc), hgap, hgap, hr]
      exact congrArg (fun u => if gap then ink w ++ u else _) (hr [])

/-- How a part is spaced does not matter to its ink. -/
theorem ink_spaceFrom (t : Text) : ink (spaceFrom false t) = ink t := ink_append_spaceFrom t false []

/-- How a text is spaced does not matter to its ink. -/
theorem ink_squeeze (t : Text) : ink t.squeeze = ink t := by
  have hspace := ink_spaceFrom t.trimStart
  rw [Text.squeeze, ← ink_trimStart t, ← hspace]
  rcases spaceFrom_eq false t.trimStart with h | h
  · rw [h]
  · have hblank : ∀ c ∈ [' '], isBlank c = true := List.forall_mem_singleton.2 isBlank_space
    rw [h, ink_append_blanks hblank]

/-! ## Pieces -/

/-- The pieces of a bare text put together behind a piece of kind `k`. -/
def written (k : PieceKind) (t : Text) : Text := spread (writeFrom k (pieces t))

/-- Without commas the canonical form is what is written for the bare text. -/
theorem canonical_eq_written (h : ',' ∉ t) : canonical t = written .other (bare t) := by
  rw [canonical, clean, cleanFrom_eq_bare h]
  rfl

/-- A run of value names is cut into these names and nothing else. -/
theorem valueRun?_flatten {letters : Text} : ∀ {words : List Text}, valueRun? letters = some words →
    words.flatten = letters := by
  fun_induction valueRun? letters with
  | case1 => intro words h; obtain rfl := Option.some.inj h; rfl
  | case2 letters hne word hword ih =>
    intro words h
    obtain ⟨rest, hrest, rfl⟩ := Option.map_eq_some_iff.1 h
    have hprefix : word <+: letters :=
      List.isPrefixOf_iff_prefix.1 (List.find?_some (p := fun w : Text => w.isPrefixOf letters) hword)
    rw [List.flatten_cons, ih hrest]
    exact List.prefix_iff_eq_append.1 hprefix
  | case3 => intro words h; exact absurd h (by simp)

/-- The pieces are the text. -/
theorem pieces_text (t : Text) : (pieces t).flatMap Piece.text = t := by
  fun_induction pieces t with
  | case1 => rfl
  | case2 c r hn ih => rw [List.flatMap_cons, ih, List.takeWhile_append_dropWhile]
  | case3 c r hn hl words hwords ih =>
    have hmap : (words.map (⟨.value, ·⟩)).flatMap Piece.text = words.flatten := by
      rw [List.flatMap_map]
      exact List.flatMap_id'
    rw [List.flatMap_append, ih, hmap, valueRun?_flatten hwords, List.takeWhile_append_dropWhile]
  | case4 c r hn hl hnone ih => rw [List.flatMap_cons, ih, List.takeWhile_append_dropWhile]
  | case5 c r hn hl kind ih => rw [List.flatMap_cons, ih]; rfl

/-- Between pieces no parenthesis is written. -/
theorem parens_writeFrom (k : PieceKind) (ps : List Piece) :
    parens (writeFrom k ps) = parens (ps.flatMap Piece.text) := by
  induction ps generalizing k with
  | nil => rfl
  | cons p ps ih =>
    have hstar : parens (if k.multiplies p.kind then ['*'] else []) = [] := by split <;> rfl
    rw [writeFrom, parens_append, parens_append, ih, hstar, List.flatMap_cons, parens_append]
    rfl

/-- Doubled stars are spread without touching parentheses. -/
theorem parens_spread (t : Text) : parens (spread t) = parens t := by
  induction t with
  | nil => rfl
  | cons c r ih =>
    have hc : parens (if c = '^' then ['*', '*'] else [c]) = parens [c] := by
      split
      · next h => subst h; rfl
      · rfl
    rw [spread, List.flatMap_cons, parens_append, hc]
    exact (congrArg (parens [c] ++ ·) ih).trans (parens_append [c] r).symm

/-- Writing the pieces changes no parentheses. -/
theorem parens_written (k : PieceKind) (t : Text) : parens (written k t) = parens t := by
  rw [written, parens_spread, parens_writeFrom, pieces_text]

/-- The kind of a piece of one character. -/
def symbolKind (c : Char) : PieceKind := if c = '(' then .opening else if c = ')' then .closing else .other

theorem isNumeric_of_not_isWordChar (h : isWordChar c = false) : isNumeric c = false := by
  rw [Bool.eq_false_iff] at h ⊢
  exact fun hn => h (isWordChar_of_isNumeric hn)

theorem isLetterOrDigit_of_not_isWordChar (h : isWordChar c = false) : isLetterOrDigit c = false := by
  rw [isWordChar, Bool.or_eq_false_iff] at h
  exact h.1

/-- A character of no word is a piece by itself. -/
theorem pieces_cons (hc : isWordChar c = false) (r : Text) :
    pieces (c :: r) = ⟨symbolKind c, [c]⟩ :: pieces r := by
  have hn := isNumeric_of_not_isWordChar hc
  have hl := not_isLetter_of_not_isLetterOrDigit (isLetterOrDigit_of_not_isWordChar hc)
  rw [pieces, dif_neg (by rw [hn]; exact Bool.false_ne_true), dif_neg (by rw [hl]; exact Bool.false_ne_true)]
  rfl

/-- A run ends at the first character that is not of its kind, if not before. -/
theorem takeWhile_append_break {p : Char → Bool} (hc : p c = false) (s r : Text) :
    (s ++ c :: r).takeWhile p = s.takeWhile p ∧ (s ++ c :: r).dropWhile p = s.dropWhile p ++ c :: r := by
  have hc : ¬ p c = true := by rw [hc]; exact Bool.false_ne_true
  induction s with
  | nil => exact ⟨List.takeWhile_cons_of_neg hc, List.dropWhile_cons_of_neg hc⟩
  | cons d s ih =>
    by_cases hd : p d = true
    · rw [List.cons_append, List.takeWhile_cons_of_pos hd, List.dropWhile_cons_of_pos hd,
        List.takeWhile_cons_of_pos hd, List.dropWhile_cons_of_pos hd, ih.1]
      exact ⟨rfl, ih.2⟩
    · rw [List.cons_append, List.takeWhile_cons_of_neg hd, List.dropWhile_cons_of_neg hd,
        List.takeWhile_cons_of_neg hd, List.dropWhile_cons_of_neg hd]
      exact ⟨rfl, rfl⟩

/-- No piece goes across a character that belongs to no word. -/
theorem pieces_append (hc : isWordChar c = false) (s r : Text) :
    pieces (s ++ c :: r) = pieces s ++ ⟨symbolKind c, [c]⟩ :: pieces r := by
  have hnumeric := takeWhile_append_break (isNumeric_of_not_isWordChar hc)
  have hword := takeWhile_append_break (isLetterOrDigit_of_not_isWordChar hc)
  have hletter := takeWhile_append_break
    (not_isLetter_of_not_isLetterOrDigit (isLetterOrDigit_of_not_isWordChar hc))
  fun_induction pieces s with
  | case1 => exact pieces_cons hc r
  | case2 d s hn ih =>
    rw [List.cons_append, pieces, dif_pos hn, ← List.cons_append, (hnumeric _ _).1, (hnumeric _ _).2, ih]
    rfl
  | case3 d s hn hl words hwords ih =>
    rw [List.cons_append, pieces, dif_neg hn, dif_pos hl, ← List.cons_append, (hletter _ _).1, hwords]
    simp only [(hletter _ _).2, ih, List.append_assoc]
  | case4 d s hn hl hnone ih =>
    rw [List.cons_append, pieces, dif_neg hn, dif_pos hl, ← List.cons_append, (hletter _ _).1, hnone]
    simp only [(hword _ _).1, (hword _ _).2, ih]
    rfl
  | case5 d s hn hl kind ih =>
    rw [List.cons_append, pieces, dif_neg hn, dif_neg hl, ih]
    rfl

/-- Behind no piece a parenthesis that closes, or an operator, is a factor. -/
theorem writeFrom_append {p : Piece} (hp : ∀ k : PieceKind, k.multiplies p.kind = false) (ps qs : List Piece) :
    ∀ k : PieceKind, writeFrom k (ps ++ p :: qs) = writeFrom k ps ++ (p.text ++ writeFrom p.kind qs) := by
  induction ps with
  | nil =>
    intro k
    show writeFrom k (p :: qs) = p.text ++ writeFrom p.kind qs
    rw [writeFrom, hp k]
    rfl
  | cons q ps ih =>
    intro k
    rw [List.cons_append, writeFrom, writeFrom, ih]
    simp only [List.append_assoc]

/-- A part in front of such a character is written by itself. -/
theorem written_append (hc : isWordChar c = false) (ho : c ≠ '(') (k : PieceKind) (s r : Text) :
    written k (s ++ c :: r) = written k s ++ (spread [c] ++ written (symbolKind c) r) := by
  have hkind : ∀ k : PieceKind, k.multiplies (symbolKind c) = false := by
    intro k
    rw [symbolKind, if_neg ho]
    split <;> cases k <;> rfl
  rw [written, pieces_append hc, writeFrom_append (p := ⟨symbolKind c, [c]⟩) hkind, spread_append, spread_append]
  rfl

/-- No star is written behind a parenthesis that opens. -/
theorem written_opening (r : Text) : written .other ('(' :: r) = '(' :: written .other r := by
  have hbehind : ∀ ps : List Piece, writeFrom .opening ps = writeFrom .other ps := by
    intro ps
    cases ps with
    | nil => rfl
    | cons p ps => rw [writeFrom, writeFrom]; rfl
  have hwrite : writeFrom .other (pieces ('(' :: r)) = '(' :: writeFrom .other (pieces r) := by
    rw [pieces_cons (by decide), ← hbehind (pieces r)]
    rfl
  rw [written, hwrite]
  rfl

/-- A group is written by itself, and what follows it behind a parenthesis that closes. -/
theorem written_group (s r : Text) :
    written .other ('(' :: (s ++ ')' :: r)) = '(' :: (written .other s ++ ')' :: written .closing r) := by
  rw [written_opening, written_append (by decide) (by decide)]
  rfl

theorem written_nil (k : PieceKind) : written k [] = [] := by
  rw [written, pieces]
  rfl

/-- An operator behind a group. -/
theorem written_operator (hc : isWordChar c = false) (ho : c ≠ '(') (hclose : c ≠ ')') (k : PieceKind) (r : Text) :
    written k (c :: r) = spread [c] ++ written .other r := by
  have h := written_append hc ho k [] r
  rw [written_nil, symbolKind, if_neg ho, if_neg hclose] at h
  exact h

end

end SignChart
