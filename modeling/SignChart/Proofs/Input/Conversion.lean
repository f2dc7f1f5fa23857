/-
  LaTeX notation is converted part by part.

  The converter cuts the text at braces and brackets, runs again on what it cuts out, trims that, and hands the result
  on to three more passes over the whole.  None of this shows: what is written for a formula is put together from what
  is written for its parts (`normalize_latex`).

  1. **Formulas.**  A `Formula` is a tree of words, sums, products, fractions, roots, powers and groups.  It has a
     writing in LaTeX and a plain one, each defined by recursion.

  2. **Conversion.**  The search for the end of a group passes over the LaTeX writing of a formula, for all groups in it
     are closed (`Formula.skipped_latex`).  So each part is cut out whole, and by induction on the formula the converter
     writes its plain writing and goes on behind it, whatever stands there (`latexToPlain_latex`).

  3. **Passes.**  No pass finds anything to do in a plain writing.  In `Seam` it is said which characters stand side
     by side in one: a star always has its space behind it, and no parenthesis stands behind the end of the word `frac`.
-/
import SignChart.Proofs.Input.Reading
import SignChart.Proofs.Input.NormalForm

namespace SignChart

/-! ## Formulas -/

/-- A lower-case letter, a digit or a point. -/
def isWordCharacter (c : Char) : Bool := c.isLower || c.isDigit || c = '.'

/-- One or more lower-case letters, digits and points. -/
def IsLowerWord (t : Text) : Prop := t ≠ [] ∧ ∀ c ∈ t, isWordCharacter c = true

instance (t : Text) : Decidable (IsLowerWord t) := inferInstanceAs (Decidable (_ ∧ _))

/-- A formula as it can be written in LaTeX. -/
inductive Formula where
  | word (w : Text) (h : IsLowerWord w)
  | sum (a b : Formula)
  | difference (a b : Formula)
  | product (a b : Formula)
  | fraction (num den : Formula)
  | root (radicand : Formula)
  | indexedRoot (index radicand : Formula)
  | power (base : Text) (h : IsLowerWord base) (exponent : Formula)
  | groupPower (base exponent : Formula)
  | group (a : Formula)

/-- A text in braces. -/
def braced (t : Text) : Text := '{' :: (t ++ ['}'])

/-- A text in brackets. -/
def bracketed (t : Text) : Text := '[' :: (t ++ [']'])

/-- A text in parentheses that grow with it. -/
def delimited (t : Text) : Text := "\\left(".toList ++ (t ++ "\\right)".toList)

/-- What a power is raised to, in plain notation: a word as it is, all else in parentheses. -/
def raised (p : Text) : Text := if IsLowerWord p then p else parenthesized p

namespace Formula

/-- The LaTeX writing of a formula. -/
def latex : Formula → Text
  | word w _ => w
  | sum a b => a.latex ++ '+' :: b.latex
  | difference a b => a.latex ++ '-' :: b.latex
  | product a b => a.latex ++ ("\\cdot ".toList ++ b.latex)
  | fraction num den => "\\frac".toList ++ (braced num.latex ++ braced den.latex)
  | root radicand => "\\sqrt".toList ++ braced radicand.latex
  | indexedRoot index radicand => "\\sqrt".toList ++ (bracketed index.latex ++ braced radicand.latex)
  | power base _ exponent => base ++ '^' :: braced exponent.latex
  | groupPower base exponent => delimited base.latex ++ '^' :: braced exponent.latex
  | group a => delimited a.latex

/-- The plain writing of a formula. -/
def plain : Formula → Text
  | word w _ => w
  | sum a b => a.plain ++ '+' :: b.plain
  | difference a b => a.plain ++ '-' :: b.plain
  | product a b => a.plain ++ ("* ".toList ++ b.plain)
  | fraction num den => quotient num.plain den.plain
  | root radicand => "sqrt".toList ++ parenthesized radicand.plain
  | indexedRoot index radicand =>
    parenthesized radicand.plain ++ '^' :: parenthesized ('1' :: '/' :: parenthesized index.plain)
  | power base _ exponent => base ++ '^' :: raised exponent.plain
  | groupPower base exponent => parenthesized base.plain ++ '^' :: raised exponent.plain
  | group a => parenthesized a.plain

/-- A command is used somewhere in a formula. -/
def usesCommand : Formula → Bool
  | word _ _ => false
  | sum a b | difference a b => a.usesCommand || b.usesCommand
  | power _ _ exponent => exponent.usesCommand
  | product _ _ | fraction _ _ | root _ | indexedRoot _ _ | groupPower _ _ | group _ => true

end Formula

section
variable {c d o e : Char} {p q r s t w : Text}

/-! ## Characters -/

/-- The character codes of lower-case letters, digits and the point. -/
theorem isWordCharacter_iff : isWordCharacter c = true ↔
    97 ≤ c.toNat ∧ c.toNat ≤ 122 ∨ 48 ≤ c.toNat ∧ c.toNat ≤ 57 ∨ c.toNat = 46 := by
  have hlower : c.isLower = true ↔ 97 ≤ c.toNat ∧ c.toNat ≤ 122 := by
    simp only [Char.isLower, Bool.and_eq_true, decide_eq_true_eq, ge_iff_le, UInt32.le_iff_toNat_le, Char.toNat_val]
    exact Iff.rfl
  rw [isWordCharacter, Bool.or_eq_true, Bool.or_eq_true, hlower, Char.isDigit_iff_toNat, decide_eq_true_eq, or_assoc,
    ← Char.toNat_inj]
  exact Iff.rfl

theorem isBlank_of_isWordCharacter (h : isWordCharacter c = true) : isBlank c = false := by
  have h := isWordCharacter_iff.1 h
  simp only [isBlank, Bool.or_eq_false_iff, Bool.and_eq_false_iff, beq_eq_false_iff_ne, decide_eq_false_iff_not]
  omega

/-- The characters of a word are in lower case already. -/
theorem toLower_of_isWordCharacter (h : isWordCharacter c = true) : c.toLower = c := by
  have h := isWordCharacter_iff.1 h
  rw [← Char.toNat_inj, toNat_toLower, if_neg (by omega)]

/-- The characters that structure a formula, in either notation, are in no word. -/
theorem ne_of_isWordCharacter (h : isWordCharacter c = true) :
    c ∉ ['\\', '{', '}', '[', ']', '(', ')', '+', '-', '*', '/', '^', '_', ' ', '='] := by
  have hall : ['\\', '{', '}', '[', ']', '(', ')', '+', '-', '*', '/', '^', '_', ' ', '='].all
      (fun c => !isWordCharacter c) = true := rfl
  intro hc
  have hnot := List.all_eq_true.1 hall c hc
  rw [h] at hnot
  exact absurd hnot Bool.false_ne_true

theorem asciiSymbol_of_isWordCharacter (h : isWordCharacter c = true) : asciiSymbol c = [c] := by
  unfold asciiSymbol
  split
  all_goals first | rfl | exact absurd h (by decide)

/-- For a text that is given, the conditions can be computed. -/
theorem isLowerWord_of_all (h : (!t.isEmpty && t.all isWordCharacter) = true) : IsLowerWord t := by
  obtain ⟨hne, hall⟩ := Bool.and_eq_true_iff.1 h
  refine ⟨fun he => ?_, List.all_eq_true.1 hall⟩
  rw [he] at hne
  exact absurd hne Bool.false_ne_true

/-! ## Spaces -/

/-- A text with single spaces inside only. -/
structure Solid (t : Text) : Prop where
  spaced : SingleSpaced t
  first : ∃ c ∈ t.head?, isBlank c = false
  last : ∃ c ∈ t.getLast?, isBlank c = false

/-- The blanks of two texts put together are those of each, and each has its word behind it. -/
theorem SingleSpaced.append (hs : SingleSpaced s) (ht : SingleSpaced t) : SingleSpaced (s ++ t) := by
  induction s with
  | nil => exact ht
  | cons c s ih =>
    refine ⟨fun hc => ?_, ih hs.2⟩
    obtain ⟨hspace, d, hd, hd'⟩ := hs.1 hc
    exact ⟨hspace, d, List.mem_head?_append_of_mem_head? hd, hd'⟩

/-- Texts without blanks around them make no new pair of blanks. -/
theorem Solid.append (hs : Solid s) (ht : Solid t) : Solid (s ++ t) := by
  obtain ⟨c, hc, hc'⟩ := hs.first
  obtain ⟨d, hd, hd'⟩ := ht.last
  exact ⟨hs.spaced.append ht.spaced, ⟨c, List.mem_head?_append_of_mem_head? hc, hc'⟩,
    ⟨d, List.mem_getLast?_append_of_mem_getLast? hd, hd'⟩⟩

/-- A text that is not empty and has no blank at all. -/
theorem solid_of_no_blank (hne : t ≠ []) (h : ∀ c ∈ t, isBlank c = false) : Solid t := by
  refine ⟨?_, ⟨t.head hne, List.head?_eq_some_head hne, h _ (List.head_mem hne)⟩,
    ⟨t.getLast hne, List.getLast?_eq_some_getLast hne, h _ (List.getLast_mem hne)⟩⟩
  clear hne
  induction t with
  | nil => trivial
  | cons c t ih =>
    exact ⟨fun hc => absurd hc (by rw [h c List.mem_cons_self]; exact Bool.false_ne_true),
      ih fun d hd => h d (List.mem_cons_of_mem c hd)⟩

theorem solid_of_all (h : (!t.isEmpty && t.all fun c => !isBlank c) = true) : Solid t := by
  obtain ⟨hne, hall⟩ := Bool.and_eq_true_iff.1 h
  refine solid_of_no_blank (fun he => ?_) fun c hc => Bool.not_eq_true' _ ▸ List.all_eq_true.1 hall c hc
  rw [he] at hne
  exact absurd hne Bool.false_ne_true

/-- A space in front of a text that is shown. -/
theorem Solid.spaced_cons (h : Solid t) : SingleSpaced (' ' :: t) := ⟨fun _ => ⟨rfl, h.first⟩, h.spaced⟩

/-- A space between two texts is a single one. -/
theorem Solid.behind_space (hs : Solid s) (ht : Solid t) : Solid (s ++ ' ' :: t) := by
  obtain ⟨c, hc, hc'⟩ := hs.first
  obtain ⟨d, hd, hd'⟩ := ht.last
  refine ⟨hs.spaced.append ht.spaced_cons, ⟨c, List.mem_head?_append_of_mem_head? hc, hc'⟩, ⟨d, ?_, hd'⟩⟩
  have hspaced : d ∈ ([' '] ++ t).getLast? := List.mem_getLast?_append_of_mem_getLast? hd
  exact List.mem_getLast?_append_of_mem_getLast? hspaced

theorem Solid.unindented (h : Solid t) : Unindented t := by
  obtain ⟨c, hc, hc'⟩ := h.first
  exact fun d hd => Option.mem_unique hc hd ▸ hc'

/-- There is no run of blanks to squeeze. -/
theorem Solid.squeeze_eq (h : Solid t) : t.squeeze = t := squeeze_of_singleSpaced h.spaced h.unindented

/-- There are no blanks around the text to drop. -/
theorem Solid.trim_eq (h : Solid t) : t.trim = t := by
  have hend : Text.trimStart t.reverse = t.reverse := by
    refine trimStart_of_unindented fun d hd => ?_
    obtain ⟨c, hc, hc'⟩ := h.last
    rw [List.head?_reverse] at hd
    exact Option.mem_unique hc hd ▸ hc'
  rw [Text.trim, trimStart_of_unindented h.unindented, Text.trimEnd, ← Text.trimStart, hend, List.reverse_reverse]

theorem IsLowerWord.solid (h : IsLowerWord w) : Solid w :=
  solid_of_no_blank h.1 fun c hc => isBlank_of_isWordCharacter (h.2 c hc)

/-- A text between two others without blanks. -/
theorem Solid.between (h : Solid t) (hs : Solid s) (hr : Solid r) : Solid (s ++ (t ++ r)) := hs.append (h.append hr)

theorem Solid.braced (h : Solid t) : Solid (braced t) :=
  h.between (s := ['{']) (solid_of_all rfl) (solid_of_all rfl)

theorem Solid.bracketed (h : Solid t) : Solid (bracketed t) :=
  h.between (s := ['[']) (solid_of_all rfl) (solid_of_all rfl)

theorem Solid.delimited (h : Solid t) : Solid (delimited t) :=
  h.between (solid_of_all rfl) (solid_of_all rfl)

/-- The delimiters of a group are characters, whatever is in it. -/
theorem Solid.parenthesized (h : Solid t) : Solid (parenthesized t) :=
  h.between (s := ['(']) (solid_of_all rfl) (solid_of_all rfl)

/-- Two texts with a character between them that is no blank. -/
theorem Solid.joined (hs : Solid s) (hc : isBlank c = false) (ht : Solid t) : Solid (s ++ c :: t) := by
  have hmiddle : Solid [c] := solid_of_no_blank (by simp) (by simpa using hc)
  exact hs.append (hmiddle.append ht)

/-- What a power is raised to has no blanks around it, in parentheses or not. -/
theorem Solid.raised (h : Solid t) : Solid (raised t) := by
  unfold SignChart.raised
  split
  · exact h
  · exact h.parenthesized

namespace Formula

/-- A LaTeX writing begins and ends with a character, and its blanks are the single ones behind `\cdot`. -/
theorem solid_latex (a : Formula) : Solid a.latex := by
  induction a with
  | word w h => exact h.solid
  | sum a b iha ihb | difference a b iha ihb => exact iha.joined rfl ihb
  | product a b iha ihb =>
    have hdot : Solid ("\\cdot".toList ++ ' ' :: b.latex) := (solid_of_all rfl).behind_space ihb
    exact iha.append hdot
  | fraction num den ihn ihd => exact (solid_of_all rfl).append (ihn.braced.append ihd.braced)
  | root radicand ih => exact (solid_of_all rfl).append ih.braced
  | indexedRoot index radicand ihi ihr => exact (solid_of_all rfl).append (ihi.bracketed.append ihr.braced)
  | power base h exponent ih => exact h.solid.joined rfl ih.braced
  | groupPower base exponent ihb ihe => exact ihb.delimited.joined rfl ihe.braced
  | group a ih => exact ih.delimited

/-- A plain writing begins and ends with a character, and its blanks are the single ones behind stars. -/
theorem solid_plain (a : Formula) : Solid a.plain := by
  induction a with
  | word w h => exact h.solid
  | sum a b iha ihb | difference a b iha ihb => exact iha.joined rfl ihb
  | product a b iha ihb =>
    have hstar : Solid (['*'] ++ ' ' :: b.plain) := (solid_of_all rfl).behind_space ihb
    exact iha.append hstar
  | fraction num den ihn ihd => exact ihn.parenthesized.joined rfl ihd.parenthesized
  | root radicand ih => exact (solid_of_all rfl).append ih.parenthesized
  | indexedRoot index radicand ihi ihr =>
    have hone : Solid (['1'] ++ '/' :: SignChart.parenthesized index.plain) :=
      (solid_of_all rfl).joined rfl ihi.parenthesized
    exact ihr.parenthesized.joined rfl hone.parenthesized
  | power base h exponent ih => exact h.solid.joined rfl ih.raised
  | groupPower base exponent ihb ihe => exact ihb.parenthesized.joined rfl ihe.raised
  | group a ih => exact ih.parenthesized

end Formula

/-! ## Groups -/

/-- The delimiters of a group that is cut out. -/
def IsPair (o e : Char) : Prop := o = '{' ∧ e = '}' ∨ o = '[' ∧ e = ']'

/-- The search passes over one text after another. -/
theorem Skipped.append (hs : Skipped o e s) (ht : Skipped o e t) : Skipped o e (s ++ t) := by
  intro depth r
  rw [List.append_assoc, hs, ht, Option.map_map]
  simp [Function.comp_def]

/-- A character that is no delimiter is passed over. -/
theorem skipped_char (h : c ≠ o ∧ c ≠ e) : Skipped o e [c] :=
  skipped_of_forall_ne fun _ hd => List.mem_singleton.1 hd ▸ h

/-- A text without braces and brackets. -/
theorem skipped_of_all (hp : IsPair o e) (h : (t.all fun c => c ∉ ['{', '}', '[', ']']) = true) : Skipped o e t := by
  refine skipped_of_forall_ne fun c hc => ?_
  have hmem := of_decide_eq_true (List.all_eq_true.1 h c hc)
  simp only [List.mem_cons, List.not_mem_nil, or_false, not_or] at hmem
  rcases hp with ⟨rfl, rfl⟩ | ⟨rfl, rfl⟩
  · exact ⟨hmem.1, hmem.2.1⟩
  · exact ⟨hmem.2.2.1, hmem.2.2.2⟩

/-- Characters other than braces and brackets belong to the groups of no pair. -/
theorem Skipped.cons_of_all (hp : IsPair o e) (hc : c ∉ ['{', '}', '[', ']']) (h : Skipped o e t) :
    Skipped o e (c :: t) :=
  Skipped.append (s := [c]) (skipped_of_all hp (by simpa using hc)) h

/-- A group of the one kind of delimiters, and a text in the other. -/
theorem Skipped.braced (hp : IsPair o e) (h : Skipped o e t) : Skipped o e (braced t) := by
  rcases hp with ⟨rfl, rfl⟩ | ⟨rfl, rfl⟩
  · exact h.group (by decide)
  · exact (h.append (skipped_char (by decide))).cons (by decide)

/-- Brackets are a closed group for the one pair and plain characters for the other, as braces are. -/
theorem Skipped.bracketed (hp : IsPair o e) (h : Skipped o e t) : Skipped o e (bracketed t) := by
  rcases hp with ⟨rfl, rfl⟩ | ⟨rfl, rfl⟩
  · exact (h.append (skipped_char (by decide))).cons (by decide)
  · exact h.group (by decide)

theorem Skipped.delimited (hp : IsPair o e) (h : Skipped o e t) : Skipped o e (delimited t) :=
  (skipped_of_all hp rfl).append (h.append (skipped_of_all hp rfl))

/-- A word has no delimiter in it. -/
theorem IsLowerWord.skipped (hp : IsPair o e) (h : IsLowerWord w) : Skipped o e w := by
  refine skipped_of_all hp (List.all_eq_true.2 fun c hc => decide_eq_true fun hmem => ?_)
  exact ne_of_isWordCharacter (h.2 c hc) (by simp only [List.mem_cons] at hmem ⊢; tauto)

/-- **Groups.**  All groups in the LaTeX writing of a formula are closed in it. -/
theorem Formula.skipped_latex (hp : IsPair o e) (a : Formula) : Skipped o e a.latex := by
  induction a with
  | word w h => exact h.skipped hp
  | sum a b iha ihb | difference a b iha ihb => exact iha.append (ihb.cons_of_all hp (by decide))
  | product a b iha ihb => exact iha.append ((skipped_of_all hp rfl).append ihb)
  | fraction num den ihn ihd => exact (skipped_of_all hp rfl).append ((ihn.braced hp).append (ihd.braced hp))
  | root radicand ih => exact (skipped_of_all hp rfl).append (ih.braced hp)
  | indexedRoot index radicand ihi ihr =>
    exact (skipped_of_all hp rfl).append ((ihi.bracketed hp).append (ihr.braced hp))
  | power base h exponent ih => exact (h.skipped hp).append ((ih.braced hp).cons_of_all hp (by decide))
  | groupPower base exponent ihb ihe =>
    exact (ihb.delimited hp).append ((ihe.braced hp).cons_of_all hp (by decide))
  | group a ih => exact ih.delimited hp

/-- The group ends at the first delimiter behind what is passed over. -/
theorem untilClose_of_skipped (h : Skipped o e t) (hne : e ≠ o) (r : Text) :
    untilClose o e 0 (t ++ e :: r) = some (t, r) := by
  rw [h, untilClose_cons, if_pos ⟨hne, rfl, rfl⟩, Option.map_some, List.append_nil]

/-- An argument is cut out whole if all groups in it are closed. -/
theorem readArgument_braced (h : Skipped '{' '}' t) (r : Text) : readArgument (braced t ++ r) = (t, r) := by
  have hbraced : braced t ++ r = '{' :: (t ++ '}' :: r) := by simp [braced]
  rw [hbraced, readArgument, trimStart_of_unindented (unindented_cons rfl _), Group.brace?, Group.forward?, if_pos rfl,
    untilClose_of_skipped h (by decide)]

/-- An index is cut out whole if all groups in it are closed. -/
theorem readIndex_bracketed (h : Skipped '[' ']' t) (r : Text) : readIndex (bracketed t ++ r) = (some t, r) := by
  have hbracketed : bracketed t ++ r = '[' :: (t ++ ']' :: r) := by simp [bracketed]
  rw [hbracketed, readIndex, trimStart_of_unindented (unindented_cons rfl _), Group.bracket?, Group.forward?,
    if_pos rfl, untilClose_of_skipped h (by decide)]

/-- Without a bracket there is no index. -/
theorem readIndex_of_ne (hc : isBlank c = false) (hne : c ≠ '[') (r : Text) : readIndex (c :: r) = (none, c :: r) := by
  have hnone : Group.bracket? (c :: r) = none := forward?_eq_none.2 fun d hd => Option.some.inj hd ▸ hne
  rw [readIndex, trimStart_of_unindented (unindented_cons hc r), hnone]

/-! ## Conversion -/

/-- The name of a command ends in front of a character that is no letter. -/
theorem readName_letters (hne : w ≠ []) (hw : (w.all isLetter) = true) (hc : isLetter c = false) (r : Text) :
    readName (w ++ c :: r) = (w, c :: r) := by
  have hall := List.all_eq_true.1 hw
  have htake : (w ++ c :: r).takeWhile isLetter = w := by
    rw [List.takeWhile_append_of_pos hall, List.takeWhile_cons_of_neg (by rw [hc]; exact Bool.false_ne_true),
      List.append_nil]
  have hdrop : (w ++ c :: r).dropWhile isLetter = c :: r := by
    rw [List.dropWhile_append_of_pos hall, List.dropWhile_cons_of_neg (by rw [hc]; exact Bool.false_ne_true)]
  rw [readName, htake, hdrop, if_pos hne]

/-- A text without commands, groups and powers stays as it is, whatever stands behind it. -/
theorem latexToPlain_literal (h : ∀ c ∈ s, c ∉ ['\\', '^', '_', '{', '}']) (r : Text) :
    latexToPlain (s ++ r) = s ++ latexToPlain r := by
  induction s with
  | nil => rfl
  | cons c s ih =>
    have hc := h c List.mem_cons_self
    simp only [List.mem_cons, List.not_mem_nil, or_false, not_or] at hc
    rw [List.cons_append, latexToPlain_plain (by simp [hc]), plainText, if_neg (by simp [hc]),
      ih fun d hd => h d (List.mem_cons_of_mem c hd)]
    rfl

/-- Words are written as they are. -/
theorem latexToPlain_word (h : IsLowerWord w) (r : Text) : latexToPlain (w ++ r) = w ++ latexToPlain r := by
  refine latexToPlain_literal (fun c hc hmem => ?_) r
  exact ne_of_isWordCharacter (h.2 c hc) (by simp only [List.mem_cons] at hmem ⊢; tauto)

/-- A text is converted, and what stands behind it by itself. -/
def Converts (s p : Text) : Prop := ∀ r, latexToPlain (s ++ r) = p ++ latexToPlain r

/-- A text with nothing behind it. -/
theorem Converts.eq (h : Converts s p) : latexToPlain s = p := by
  have h := h []
  rwa [List.append_nil, latexToPlain_nil, List.append_nil] at h

/-- Texts that are converted each by itself are converted one after the other. -/
theorem Converts.append (hs : Converts s p) (ht : Converts t q) : Converts (s ++ t) (p ++ q) := by
  intro r
  rw [List.append_assoc, hs, ht, List.append_assoc]

/-- Characters that begin no command and no group stay as they are. -/
theorem converts_char (hc : c ∉ ['\\', '^', '_', '{', '}']) : Converts [c] [c] :=
  latexToPlain_literal fun _ hd => List.mem_singleton.1 hd ▸ hc

theorem Converts.behind (hs : Converts s p) (hc : c ∉ ['\\', '^', '_', '{', '}']) (ht : Converts t q) :
    Converts (s ++ c :: t) (p ++ c :: q) :=
  hs.append ((converts_char hc).append ht)

/-- The commands in front of two parentheses are dropped. -/
theorem converts_delimited (h : Converts t p) : Converts (delimited t) (parenthesized p) := by
  have hcommand : ∀ (name : Text) (c : Char), name ≠ [] → name.all isLetter = true →
      LatexCommand.ofName name = .delimiter → isLetter c = false → c ∉ ['\\', '^', '_', '{', '}'] → c ≠ '.' →
        Converts ('\\' :: (name ++ [c])) [c] := by
    intro name c hne hname hof hletter hc hpoint r
    have hsplit : ('\\' :: (name ++ [c])) ++ r = '\\' :: (name ++ c :: r) := by simp
    have hkept : withoutPoint (c :: r) = [c] ++ r := if_neg fun h => hpoint (Option.some.inj h)
    rw [hsplit, latexToPlain_delimiter (readName_letters hne hname hletter r) hof, hkept, converts_char hc]
  have hleft := hcommand "left".toList '(' (by decide) rfl (by decide) rfl (by decide) (by decide)
  have hright := hcommand "right".toList ')' (by decide) rfl (by decide) rfl (by decide) (by decide)
  exact hleft.append (h.append hright)

/-- The sign of a product is written as a star, and its space is kept. -/
theorem converts_product (hs : Converts s p) (ht : Converts t q) :
    Converts (s ++ ("\\cdot ".toList ++ t)) (p ++ ("* ".toList ++ q)) := by
  have hdot : Converts "\\cdot ".toList "* ".toList := by
    intro r
    have hread : readName ("cdot".toList ++ ' ' :: r) = ("cdot".toList, ' ' :: r) :=
      readName_letters (by decide) rfl rfl r
    have hwritten : LatexCommand.ofName "cdot".toList = .written ['*'] := by decide
    have hspace : latexToPlain ([' '] ++ r) = [' '] ++ latexToPlain r := converts_char (by decide) r
    exact (latexToPlain_written hread hwritten).trans (congrArg ('*' :: ·) hspace)
  exact hs.append (hdot.append ht)

/-- The arguments of a command in braces. -/
theorem parts_braced (hskip : Skipped '{' '}' t) (n : Nat) (r : Text) :
    parts (n + 1) (braced t ++ r) = t :: parts n r := by
  rw [parts, readArgument_braced hskip]

/-- A fraction is written as the quotient of what is written for its parts. -/
theorem converts_fraction (hs : Converts s p) (ht : Converts t q) (hp : Solid p) (hq : Solid q)
    (hskips : Skipped '{' '}' s) (hskipt : Skipped '{' '}' t) :
    Converts ("\\frac".toList ++ (braced s ++ braced t)) (quotient p q) := by
  intro r
  have hsplit : "\\frac".toList ++ (braced s ++ braced t) ++ r =
      '\\' :: ("frac".toList ++ (braced s ++ (braced t ++ r))) := by simp
  have hread : readName ("frac".toList ++ (braced s ++ (braced t ++ r))) =
      ("frac".toList, braced s ++ (braced t ++ r)) := readName_letters (by decide) rfl rfl _
  have hparts : (parts 2 (braced s ++ (braced t ++ r))).map latexToPlain = [p, q, latexToPlain r] := by
    rw [parts_braced hskips, parts_braced hskipt, parts, List.map_cons, List.map_cons, List.map_singleton, hs.eq, ht.eq]
  rw [hsplit, latexToPlain_fraction hread (by decide) hparts, hp.trim_eq, hq.trim_eq]

/-- A square root is written as a call. -/
theorem converts_root (ht : Converts t q) (hq : Solid q) (hskip : Skipped '{' '}' t) :
    Converts ("\\sqrt".toList ++ braced t) ("sqrt".toList ++ parenthesized q) := by
  intro r
  have hsplit : "\\sqrt".toList ++ braced t ++ r = '\\' :: ("sqrt".toList ++ (braced t ++ r)) := by simp
  have hread : readName ("sqrt".toList ++ (braced t ++ r)) = ("sqrt".toList, braced t ++ r) :=
    readName_letters (by decide) rfl rfl _
  have hindex : readIndex (braced t ++ r) = (none, braced t ++ r) := readIndex_of_ne rfl (by decide) _
  have hparts : (parts 1 (braced t ++ r)).map latexToPlain = [q, latexToPlain r] := by
    rw [parts_braced hskip, parts, List.map_cons, List.map_singleton, ht.eq]
  rw [hsplit, latexToPlain_root hread (by decide) hindex hparts, Option.map_none, rootText, hq.trim_eq]

/-- A root with an index is written as a power. -/
theorem converts_indexedRoot (hs : Converts s p) (ht : Converts t q) (hp : Solid p) (hq : Solid q)
    (hskips : Skipped '[' ']' s) (hskipt : Skipped '{' '}' t) :
    Converts ("\\sqrt".toList ++ (bracketed s ++ braced t))
      (parenthesized q ++ '^' :: parenthesized ('1' :: '/' :: parenthesized p)) := by
  intro r
  have hsplit : "\\sqrt".toList ++ (bracketed s ++ braced t) ++ r =
      '\\' :: ("sqrt".toList ++ (bracketed s ++ (braced t ++ r))) := by simp
  have hread : readName ("sqrt".toList ++ (bracketed s ++ (braced t ++ r))) =
      ("sqrt".toList, bracketed s ++ (braced t ++ r)) := readName_letters (by decide) rfl rfl _
  have hparts : (parts 1 (braced t ++ r)).map latexToPlain = [q, latexToPlain r] := by
    rw [parts_braced hskipt, parts, List.map_cons, List.map_singleton, ht.eq]
  rw [hsplit, latexToPlain_root hread (by decide) (readIndex_bracketed hskips _) hparts, Option.map_some, rootText,
    hs.eq, hp.trim_eq, hq.trim_eq]

/-- An exponent in braces, where what is written for it is a word exactly if it is an atom. -/
theorem converts_exponent (ht : Converts t q) (hq : Solid q) (hskip : Skipped '{' '}' t)
    (hatom : isAtom q = true ↔ IsLowerWord q) : Converts ('^' :: braced t) ('^' :: raised q) := by
  intro r
  have hgroup : '{' ∈ (Text.trimStart (braced t ++ r)).head? := by
    rw [show braced t ++ r = '{' :: (t ++ ['}'] ++ r) by simp [braced],
      trimStart_of_unindented (unindented_cons rfl _)]
    rfl
  have hparts : (parts 1 (braced t ++ r)).map latexToPlain = [q, latexToPlain r] := by
    rw [parts_braced hskip, parts, List.map_cons, List.map_singleton, ht.eq]
  have hraised : grouped q.trim = raised q := by
    rw [hq.trim_eq, grouped, raised]
    by_cases h : IsLowerWord q
    · rw [if_pos h, if_pos (hatom.2 h)]
    · rw [if_neg h, if_neg (mt hatom.1 h)]
  rw [List.cons_append, latexToPlain_group (.inl rfl) hgroup hparts, hraised]

/-! ## Plain writings -/

/-- A character that a plain writing can have. -/
def PlainCharacter (c : Char) : Prop := isWordCharacter c = true ∨ c ∈ ['(', ')', '+', '-', '*', '/', '^', ' ']

/-- What stands side by side in a plain writing: a star and its space, and a parenthesis only behind an operator,
another one or the word `sqrt`. -/
structure Seam (c d : Char) : Prop where
  star : c = '*' → d = ' '
  blank : isBlank d = true → c = '*'
  opening : d = '(' → c ∈ ['(', '+', '-', '/', '^', ' ', 't']

/-- Where no star and no blank is there is only the parenthesis to look at. -/
theorem seam_of_ne (hc : c ≠ '*') (hd : isBlank d = false)
    (hopening : d = '(' → c ∈ ['(', '+', '-', '/', '^', ' ', 't']) : Seam c d :=
  ⟨fun h => absurd h hc, fun h => absurd h (by rw [hd]; exact Bool.false_ne_true), hopening⟩

/-- A text that is a plain writing, as far as the passes can see. -/
structure Plain (p : Text) : Prop where
  solid : Solid p
  seams : p.IsChain Seam
  last : ∀ c ∈ p.getLast?, c ≠ '*'
  chars : ∀ c ∈ p, PlainCharacter c

/-- A word has neither a star nor a parenthesis in it. -/
theorem IsLowerWord.ne (h : IsLowerWord w) (hc : c ∈ w) : c ≠ '*' ∧ c ≠ '(' := by
  constructor
  · rintro rfl
    exact ne_of_isWordCharacter (h.2 _ hc) (by decide)
  · rintro rfl
    exact ne_of_isWordCharacter (h.2 _ hc) (by decide)

theorem IsLowerWord.plain (h : IsLowerWord w) : Plain w := by
  have hseams : ∀ c ∈ w, ∀ d ∈ w, Seam c d := fun c hc d hd =>
    seam_of_ne (h.ne hc).1 (isBlank_of_isWordCharacter (h.2 d hd)) fun ho => absurd ho (h.ne hd).2
  exact ⟨h.solid, (List.pairwise_of_forall_mem_list hseams).isChain, fun c hc => (h.ne (List.mem_of_mem_getLast? hc)).1,
    fun c hc => .inl (h.2 c hc)⟩

/-- Each of these characters may stand alone. -/
theorem plain_char (hc : c ∈ ['(', ')', '+', '-', '/', '^']) : Plain [c] := by
  have hall : ['(', ')', '+', '-', '/', '^'].all (fun c => !isBlank c && decide (c ≠ '*') &&
      decide (c ∈ ['(', ')', '+', '-', '*', '/', '^', ' '])) = true := rfl
  have h := List.all_eq_true.1 hall c hc
  simp only [Bool.and_eq_true, Bool.not_eq_true', decide_eq_true_eq] at h
  refine ⟨solid_of_no_blank (by simp) (by simpa using h.1.1), .singleton _, fun d hd => ?_, fun d hd => ?_⟩
  · exact Option.some.inj hd ▸ h.1.2
  · exact List.mem_singleton.1 hd ▸ .inr h.2

/-- Two plain writings make one if the last character of the first may stand in front of the other. -/
theorem Plain.append (hs : Plain s) (ht : Plain t) (hseam : ∀ c ∈ s.getLast?, ∀ d ∈ t.head?, Seam c d) :
    Plain (s ++ t) := by
  refine ⟨hs.solid.append ht.solid, List.isChain_append.2 ⟨hs.seams, ht.seams, hseam⟩, fun c hc => ?_, fun c hc => ?_⟩
  · obtain ⟨d, hd, _⟩ := ht.solid.last
    exact Option.mem_unique (List.mem_getLast?_append_of_mem_getLast? hd) hc ▸ ht.last d hd
  · exact (List.mem_append.1 hc).elim (hs.chars c) (ht.chars c)

/-- A plain writing behind an operator, an opening parenthesis or the word `sqrt`. -/
theorem Plain.behind (hs : Plain s) (ht : Plain t) (hc : ∀ c ∈ s.getLast?, c ∈ ['(', '+', '-', '/', '^', ' ', 't']) :
    Plain (s ++ t) :=
  hs.append ht fun c hlast d hd => seam_of_ne (hs.last c hlast) (ht.solid.unindented d hd) fun _ => hc c hlast

/-- A plain writing in front of a character. -/
theorem Plain.before (hs : Plain s) (ht : Plain t) (hd : ∀ d ∈ t.head?, d ≠ '(') : Plain (s ++ t) :=
  hs.append ht fun c hlast d hfirst =>
    seam_of_ne (hs.last c hlast) (ht.solid.unindented d hfirst) fun h => absurd h (hd d hfirst)

/-- Behind an operator other than a star, any plain writing may follow. -/
theorem Plain.joined (hs : Plain s) (ht : Plain t) (hc : c ∈ ['+', '-', '/', '^']) : Plain (s ++ c :: t) := by
  have hall : ['+', '-', '/', '^'].all (fun c => decide (c ∈ ['(', ')', '+', '-', '/', '^']) &&
      decide (c ∈ ['(', '+', '-', '/', '^', ' ', 't']) && decide (c ≠ '(')) = true := rfl
  have h := List.all_eq_true.1 hall c hc
  simp only [Bool.and_eq_true, decide_eq_true_eq] at h
  obtain ⟨⟨hchar, hbefore⟩, hne⟩ := h
  have htail : Plain (c :: t) := (plain_char hchar).behind ht fun d hd => Option.some.inj hd ▸ hbefore
  exact hs.before htail fun d hd => Option.some.inj hd ▸ hne

theorem Plain.parenthesized (h : Plain t) : Plain (parenthesized t) := by
  have hclosed : Plain (t ++ [')']) := h.before (plain_char (by decide)) fun d hd => Option.some.inj hd ▸ by decide
  exact (plain_char (c := '(') (by decide)).behind hclosed fun d hd => Option.some.inj hd ▸ by decide

theorem Plain.quotient (hs : Plain s) (ht : Plain t) : Plain (quotient s t) :=
  hs.parenthesized.joined ht.parenthesized (by decide)

/-- The word `sqrt` is the one that a parenthesis stands behind. -/
theorem Plain.root (h : Plain t) : Plain ("sqrt".toList ++ SignChart.parenthesized t) := by
  have hword : IsLowerWord "sqrt".toList := isLowerWord_of_all rfl
  exact hword.plain.behind h.parenthesized fun c hc => Option.some.inj hc ▸ by decide

theorem Plain.raised (h : Plain t) : Plain (raised t) := by
  unfold SignChart.raised
  split
  · exact h
  · exact h.parenthesized

/-- A star is followed by its space. -/
theorem Plain.product (hs : Plain s) (ht : Plain t) : Plain (s ++ ("* ".toList ++ t)) := by
  have hspace : (' ' :: t).IsChain Seam := List.isChain_cons.2 ⟨fun d hd =>
    seam_of_ne (by decide) (ht.solid.unindented d hd) fun _ => by decide, ht.seams⟩
  have hstar : ('*' :: ' ' :: t).IsChain Seam :=
    List.isChain_cons_cons.2 ⟨⟨fun _ => rfl, fun _ => rfl, fun h => absurd h (by decide)⟩, hspace⟩
  have hsolid : Solid (['*'] ++ ' ' :: t) := (solid_of_all rfl).behind_space ht.solid
  refine ⟨hs.solid.append hsolid, List.isChain_append.2 ⟨hs.seams, hstar, fun c hc d hd => ?_⟩, fun c hc => ?_,
    fun c hc => ?_⟩
  · obtain rfl := Option.some.inj hd
    exact seam_of_ne (hs.last c hc) rfl fun h => absurd h (by decide)
  · obtain ⟨d, hd, _⟩ := ht.solid.last
    have hend : d ∈ (s ++ ("* ".toList ++ t)).getLast? :=
      List.mem_getLast?_append_of_mem_getLast? (List.mem_getLast?_append_of_mem_getLast? hd)
    exact Option.mem_unique hend hc ▸ ht.last d hd
  · rcases List.mem_append.1 hc with hc | hc
    · exact hs.chars c hc
    rcases List.mem_append.1 hc with hc | hc
    · have hall : "* ".toList.all (fun c => decide (c ∈ ['(', ')', '+', '-', '*', '/', '^', ' '])) = true := rfl
      exact .inr (of_decide_eq_true (List.all_eq_true.1 hall c hc))
    · exact ht.chars c hc

/-- By induction on the formula. -/
theorem Formula.plain_plain (a : Formula) : Plain a.plain := by
  induction a with
  | word w h => exact h.plain
  | sum a b iha ihb | difference a b iha ihb => exact iha.joined ihb (by decide)
  | product a b iha ihb => exact iha.product ihb
  | fraction num den ihn ihd => exact ihn.quotient ihd
  | root radicand ih => exact ih.root
  | indexedRoot index radicand ihi ihr =>
    have hone : IsLowerWord ['1'] := isLowerWord_of_all rfl
    exact ihr.parenthesized.joined (hone.plain.joined ihi.parenthesized (by decide)).parenthesized (by decide)
  | power base h exponent ih => exact h.plain.joined ih.raised (by decide)
  | groupPower base exponent ihb ihe => exact ihb.parenthesized.joined ihe.raised (by decide)
  | group a ih => exact ih.parenthesized

/-! ## Passes -/

theorem PlainCharacter.toLower (h : PlainCharacter c) : c.toLower = c := by
  rcases h with h | h
  · exact toLower_of_isWordCharacter h
  · have hall : ['(', ')', '+', '-', '*', '/', '^', ' '].all (fun c => c.toLower == c) = true := rfl
    exact eq_of_beq (List.all_eq_true.1 hall c h)

/-- No character of a plain writing is a symbol that stands for others. -/
theorem PlainCharacter.asciiSymbol (h : PlainCharacter c) : asciiSymbol c = [c] := by
  rcases h with h | h
  · exact asciiSymbol_of_isWordCharacter h
  · have hall : ['(', ')', '+', '-', '*', '/', '^', ' '].all (fun c => SignChart.asciiSymbol c == [c]) = true := rfl
    exact eq_of_beq (List.all_eq_true.1 hall c h)

theorem PlainCharacter.ne (h : PlainCharacter c) : c ≠ '\\' ∧ c ≠ '=' := by
  constructor <;> rintro rfl <;> exact h.elim (fun h => absurd h (by decide)) fun h => absurd h (by decide)

/-- Among these characters, those of atoms are those of words. -/
theorem PlainCharacter.isAtom (h : PlainCharacter c) :
    (isLetterOrDigit c || decide (c = '.')) = isWordCharacter c := by
  rcases h with h | h
  · have hrange := isWordCharacter_iff.1 h
    rw [h, Bool.or_eq_true, isLetterOrDigit_iff, isLetter_iff, decide_eq_true_eq, ← Char.toNat_inj]
    show _ ∨ c.toNat = 46
    omega
  · have hall : ['(', ')', '+', '-', '*', '/', '^', ' '].all (fun c =>
        (isLetterOrDigit c || decide (c = '.')) == isWordCharacter c) = true := rfl
    exact eq_of_beq (List.all_eq_true.1 hall c h)

/-- Among plain writings the atoms are the words. -/
theorem Plain.isAtom_iff (h : Plain p) : isAtom p = true ↔ IsLowerWord p := by
  rw [isAtom, Bool.and_eq_true, List.all_eq_true, decide_eq_true_eq]
  exact and_congr_right fun _ => forall₂_congr fun c hc => by rw [(h.chars c hc).isAtom]

/-- A call of `frac` would need a parenthesis behind the word, or behind a space there. -/
theorem fractionCall?_of_seams (h : t.IsChain Seam) (hchars : ∀ c ∈ t, PlainCharacter c) : fractionCall? t = none := by
  rw [Option.eq_none_iff_forall_ne_some]
  intro g hg
  unfold fractionCall? at hg
  split at hg
  · next hname =>
    obtain ⟨c₁, c₂, c₃, c₄, rest, rfl⟩ : ∃ c₁ c₂ c₃ c₄ rest, t = c₁ :: c₂ :: c₃ :: c₄ :: rest := by
      match t, hname with
      | c₁ :: c₂ :: c₃ :: c₄ :: rest, _ => exact ⟨c₁, c₂, c₃, c₄, rest, rfl⟩
    have hc : c₄ = 'c' := by
      have hfour : [c₁.toLower, c₂.toLower, c₃.toLower, c₄.toLower] = ['f', 'r', 'a', 'c'] := hname
      rw [← (hchars c₄ (by simp)).toLower]
      simp only [List.cons.injEq] at hfour
      exact hfour.2.2.2.1
    subst hc
    have hrest : ('c' :: rest).IsChain Seam := h.tail.tail.tail
    cases rest with
    | nil => exact absurd hg (by simp [Text.trimStart, Group.paren?, Group.forward?])
    | cons d rest =>
      have hseam := (List.isChain_cons_cons.1 hrest).1
      have hblank : isBlank d = false := Bool.eq_false_iff.2 fun hb => absurd (hseam.blank hb) (by decide)
      have hopening : d ≠ '(' := fun ho => absurd (hseam.opening ho) (by decide)
      have hnone : Group.paren? (Text.trimStart (d :: rest)) = none := by
        rw [trimStart_of_unindented (unindented_cons hblank rest)]
        exact forward?_eq_none.2 fun b hb => Option.some.inj hb ▸ hopening
      exact absurd (hnone.symm.trans hg) (Option.some_ne_none g).symm
  · exact absurd hg (Option.some_ne_none g).symm

/-- A parenthesis stands behind no letter but a `t`, so never behind the word `frac`. -/
theorem hasFractionCall_of_seams (h : t.IsChain Seam) (hchars : ∀ c ∈ t, PlainCharacter c) :
    ∀ afterLetter, hasFractionCall afterLetter t = false := by
  induction t with
  | nil => exact fun _ => rfl
  | cons c r ih =>
    intro afterLetter
    rw [hasFractionCall, fractionCall?_of_seams h hchars, Option.isSome_none, Bool.and_false, Bool.false_or]
    exact ih h.tail (fun d hd => hchars d (List.mem_cons_of_mem c hd)) _

/-- A text in lower case has its words in their usual case. -/
theorem usualCaseFrom_of_lower (ht : ∀ c ∈ t, c.toLower = c) :
    ∀ w : Text, (∀ c ∈ w, c.toLower = c) → usualCaseFrom w t = w ++ t := by
  have husual : ∀ w : Text, (∀ c ∈ w, c.toLower = c) → usualCase w = w := by
    intro w hw
    have hlower : w.asciiLower = w := (List.map_congr_left hw).trans (List.map_id w)
    rw [usualCase, hlower, ite_self]
  induction t with
  | nil => exact fun w hw => (husual w hw).trans (List.append_nil w).symm
  | cons c r ih =>
    intro w hw
    have hr : ∀ d ∈ r, d.toLower = d := fun d hd => ht d (List.mem_cons_of_mem c hd)
    rw [usualCaseFrom]
    split
    · rw [ih hr (w ++ [c]) fun d hd => (List.mem_append.1 hd).elim (hw d) fun hd =>
        List.mem_singleton.1 hd ▸ ht c List.mem_cons_self, List.append_assoc]
      rfl
    · rw [husual w hw, ih hr [] fun d hd => absurd hd List.not_mem_nil]
      rfl

/-- **Passes.**  A plain writing is a normal form, and stays as it is. -/
theorem Plain.normalForm (h : Plain p) : NormalForm p where
  spaced := h.solid.spaced
  unindented := h.solid.unindented
  plain hc := (h.chars _ hc).ne.1 rfl
  symbolFree c hc := (h.chars c hc).asciiSymbol
  singleStars := h.seams.imp fun _ _ hseam hstars => absurd ((hseam.star hstars.1).symm.trans hstars.2) (by decide)
  usual := usualCaseFrom_of_lower (fun c hc => (h.chars c hc).toLower) [] fun _ hd => absurd hd List.not_mem_nil
  unnamed := by
    rw [Option.eq_none_iff_forall_ne_some]
    intro r hr
    obtain ⟨s, u, rfl, _⟩ := of_afterEquals? hr
    exact (h.chars '=' (by simp)).ne.2 rfl

/-- No pass changes a plain writing. -/
theorem Plain.normalize_eq (h : Plain p) : normalize p = p := by
  have hcall := hasFractionCall_of_seams h.seams h.chars false
  rw [h.normalForm.normalize_eq, fractions, fractionsFrom_of_no_call (Bool.eq_false_iff.1 hcall), h.normalForm.usual,
    h.solid.squeeze_eq, dropNames_of_unnamed h.normalForm.unnamed]

/-! ## Formulas converted -/

/-- **Conversion.**  A formula is converted to its plain writing, and what stands behind it by itself. -/
theorem Formula.converts (a : Formula) : Converts a.latex a.plain := by
  have hpair : IsPair '{' '}' := .inl ⟨rfl, rfl⟩
  induction a with
  | word w h => exact latexToPlain_word h
  | sum a b iha ihb | difference a b iha ihb => exact iha.behind (by decide) ihb
  | product a b iha ihb => exact converts_product iha ihb
  | fraction num den ihn ihd =>
    exact converts_fraction ihn ihd num.solid_plain den.solid_plain (num.skipped_latex hpair) (den.skipped_latex hpair)
  | root radicand ih => exact converts_root ih radicand.solid_plain (radicand.skipped_latex hpair)
  | indexedRoot index radicand ihi ihr =>
    exact converts_indexedRoot ihi ihr index.solid_plain radicand.solid_plain (index.skipped_latex (.inr ⟨rfl, rfl⟩))
      (radicand.skipped_latex hpair)
  | power base h exponent ih =>
    exact Converts.append (latexToPlain_word h) (converts_exponent ih exponent.solid_plain
      (exponent.skipped_latex hpair) exponent.plain_plain.isAtom_iff)
  | groupPower base exponent ihb ihe =>
    exact (converts_delimited ihb).append (converts_exponent ihe exponent.solid_plain
      (exponent.skipped_latex hpair) exponent.plain_plain.isAtom_iff)
  | group a ih => exact converts_delimited ih

/-- A command shows in the LaTeX writing by its backslash. -/
theorem Formula.backslash_mem_latex (a : Formula) (h : a.usesCommand = true) : '\\' ∈ a.latex := by
  induction a with
  | word w hw => exact absurd h Bool.false_ne_true
  | sum a b iha ihb | difference a b iha ihb =>
    rcases Bool.or_eq_true_iff.1 h with h | h
    · exact List.mem_append_left _ (iha h)
    · exact List.mem_append_right _ (List.mem_cons_of_mem _ (ihb h))
  | power base hw exponent ih =>
    exact List.mem_append_right _ (List.mem_cons_of_mem _ (List.mem_cons_of_mem _ (List.mem_append_left _ (ih h))))
  | product a b => exact List.mem_append_right _ List.mem_cons_self
  | fraction | root | indexedRoot | group => exact List.mem_cons_self
  | groupPower base exponent => exact List.mem_append_left _ List.mem_cons_self

end

/-- **Formulas.**  The normal form of what is written in LaTeX for a formula with a command in it is its plain
writing. -/
theorem normalize_latex (a : Formula) (h : a.usesCommand = true) : normalize a.latex = a.plain := by
  have hplain := a.plain_plain
  have hsolid : a.plain.squeeze = a.plain := hplain.solid.squeeze_eq
  have hnormal : normalize a.plain = dropNames (plainSpelling a.plain).squeeze := by
    rw [normalize, hsolid]
    simp only [if_neg hplain.normalForm.plain]
  rw [normalize, a.solid_latex.squeeze_eq]
  simp only [if_pos (a.backslash_mem_latex h)]
  rw [a.converts.eq, ← hnormal, hplain.normalize_eq]

/-- A root in an exponent in a fraction. -/
def nestedFormula : Formula :=
  .fraction
    (.power ['x'] (isLowerWord_of_all rfl)
      (.indexedRoot (.word ['3'] (isLowerWord_of_all rfl))
        (.product (.word ['2'] (isLowerWord_of_all rfl)) (.word ['y'] (isLowerWord_of_all rfl)))))
    (.group (.word ['x'] (isLowerWord_of_all rfl)))

/-- `normalize_latex` at a formula with a root in an exponent in a fraction. -/
theorem normalize_latex_nestedFormula :
    nestedFormula.usesCommand = true ∧ normalize nestedFormula.latex = nestedFormula.plain :=
  ⟨rfl, normalize_latex nestedFormula rfl⟩

end SignChart
