/-
  The group of an exponent.

  `normalize_exponent`: in any surroundings in which a caret is an operator, a group in braces behind it has the
  same normal form as the group in parentheses, or as the group bare if it is a run of letters, digits and
  points.  In the second case nothing holds the run together.  If it is one word that ends where the group does,
  the text still compiles to the same operations (`compile_exponent`); otherwise a part of it is cut off from the
  exponent (`exponent_cut`).

  1. **Writings.**  The three ways to write an exponent are read by themselves (`written_braces`,
     `written_self`), so that they are put into the same surroundings (`latexToPlain_place`).

  2. **Blanks.**  The text is squeezed part by part (`squeeze_exponent`), and the blanks at the ends of the group
     are dropped (`trim_spaceFrom`).
-/
import SignChart.Proofs.Input.Power

namespace SignChart

section
variable {c : Char} {r s t w y : Text}

/-! ## Writings -/

/-- Without commands, groups and brackets. -/
def Simple (t : Text) : Prop := ∀ c ∈ t, c ∉ ['\\', '{', '}', '[', ']']

/-- Simple text has no commands and no groups. -/
theorem Simple.latexFree (h : Simple t) : LatexFree t := fun c hc hm =>
  h c hc (List.mem_append_left ['[', ']'] hm)

theorem Simple.skipped_braces (h : Simple t) : Skipped '{' '}' t := skipped_of_forall_ne fun c hc =>
  ⟨fun he => h c hc (by simp [he]), fun he => h c hc (by simp [he])⟩

/-- The search for the end of an index passes over simple text. -/
theorem Simple.skipped_brackets (h : Simple t) : Skipped '[' ']' t := skipped_of_forall_ne fun c hc =>
  ⟨fun he => h c hc (by simp [he]), fun he => h c hc (by simp [he])⟩

/-- A character of an atom. -/
theorem of_isAtom (h : isAtom t = true) : t ≠ [] ∧ ∀ c ∈ t, isWordChar c = true := by
  rw [isAtom, Bool.and_eq_true, decide_eq_true_eq] at h
  exact ⟨h.1, List.all_eq_true.1 h.2⟩

theorem not_mark_of_isWordChar (h : isWordChar c = true) : c ∉ ['\\', '{', '}', '[', ']', '^', '_'] := by
  intro hm
  have hall : ['\\', '{', '}', '[', ']', '^', '_'].all (fun c => !isWordChar c) = true := by decide
  have hc := List.all_eq_true.1 hall c hm
  rw [h] at hc
  exact absurd hc Bool.false_ne_true

/-- The last character of what is written for a group. -/
theorem getLast?_grouped (t : Text) : ∃ c ∈ (grouped t).getLast?, isBlank c = false ∧ c ∉ ['^', '_'] := by
  rw [grouped]
  split
  · next h =>
    obtain ⟨hne, hword⟩ := of_isAtom h
    have hlast := hword _ (List.getLast_mem hne)
    refine ⟨t.getLast hne, List.getLast?_eq_some_getLast hne, (not_symbol_of_isWordChar hlast).1, fun hm => ?_⟩
    exact not_mark_of_isWordChar hlast (List.mem_append_right ['\\', '{', '}', '[', ']'] hm)
  · exact ⟨')', List.getLast?_concat, rfl, by decide⟩

/-- What is written for a group is an exponent without a blank at its end. -/
theorem isPower_grouped (t : Text) : IsPower ('^' :: grouped t) := by
  obtain ⟨c, hc, hsolid, _⟩ := getLast?_grouped t
  have hlast : c ∈ (['^'] ++ grouped t).getLast? := List.mem_getLast?_append_of_mem_getLast? hc
  exact ⟨rfl, c, hlast, hsolid⟩

/-- A group in braces. -/
theorem written_braces (h : Simple t) : Written ('^' :: '{' :: (t ++ ['}'])) ('^' :: grouped t.trim) where
  isPower := isPower_grouped t.trim
  caret := rfl
  braces := .cons (by decide) (.group (by decide) h.skipped_braces)
  brackets := skipped_of_forall_ne fun c hc => by
    simp only [List.mem_cons, List.mem_append, List.not_mem_nil, or_false] at hc
    rcases hc with rfl | rfl | hc | rfl
    · decide
    · decide
    · exact ⟨fun he => h c hc (by simp [he]), fun he => h c hc (by simp [he])⟩
    · decide
  reads := fun r => by
    have hparts : (parts 1 ('{' :: (t ++ '}' :: r))).map latexToPlain = [t, latexToPlain r] := by
      rw [parts, parts, readArgument_group h.latexFree, List.map_cons, latexToPlain_of_latexFree h.latexFree]
      rfl
    have htext : '^' :: '{' :: (t ++ ['}']) ++ r = '^' :: '{' :: (t ++ '}' :: r) := by simp
    rw [htext, latexToPlain_group (Or.inl rfl) rfl hparts]

/-- An exponent that is written in LaTeX as in plain notation. -/
theorem written_self (h : Simple y) (hcaret : '^' ∈ y.head?)
    (hlast : ∃ c ∈ y.getLast?, isBlank c = false ∧ c ∉ ['^', '_']) : Written y y where
  isPower := ⟨hcaret, hlast.imp fun _ h => ⟨h.1, h.2.1⟩⟩
  caret := hcaret
  braces := h.skipped_braces
  brackets := h.skipped_brackets
  reads := fun r => by
    obtain ⟨c, hc, hsolid, hpower⟩ := hlast
    obtain ⟨s, rfl⟩ := List.getLast?_eq_some_iff.1 hc
    have hc' := h.latexFree c (List.mem_append_right s List.mem_cons_self)
    simp only [List.mem_cons, List.not_mem_nil, or_false, not_or] at hpower hc'
    have hnext : ∀ d ∈ (Text.trimStart (c :: r)).head?, d ≠ '{' := by
      rw [trimStart_of_unindented (unindented_cons hsolid r)]
      exact fun d hd => Option.some.inj hd ▸ hc'.2.1
    rw [List.append_assoc, List.singleton_append,
      latexToPlain_append (fun d hd => h.latexFree d (List.mem_append_left _ hd)) hnext,
      latexToPlain_plain (by simp [hc', hpower]), plainText, if_neg fun h => h.elim hc'.2.1 hc'.2.2,
      List.append_assoc]

/-- An exponent in parentheses is written as it is. -/
theorem written_parenthesized (h : Simple t) : Written ('^' :: parenthesized t) ('^' :: parenthesized t) :=
  written_self (List.forall_mem_cons.2 ⟨by decide, List.forall_mem_cons.2 ⟨by decide,
    List.forall_mem_append.2 ⟨h, List.forall_mem_singleton.2 (by decide)⟩⟩⟩) rfl
    ⟨')', List.getLast?_concat (l := '^' :: '(' :: t), rfl, by decide⟩

/-- An exponent that is an atom, or in parentheses, is written as it is. -/
theorem written_grouped (h : Simple t) : Written ('^' :: grouped t) ('^' :: grouped t) := by
  by_cases hatom : isAtom t = true
  · obtain ⟨c, hc, hlast⟩ := getLast?_grouped t
    rw [grouped, if_pos hatom] at hc ⊢
    have hlast' : c ∈ (['^'] ++ t).getLast? := List.mem_getLast?_append_of_mem_getLast? hc
    exact written_self (List.forall_mem_cons.2 ⟨by decide, h⟩) rfl ⟨c, hlast', hlast⟩
  · rw [grouped, if_neg hatom]
    exact written_parenthesized h

/-! ## Blanks -/

/-- Blanks make no text an atom, and a text with blanks is none. -/
theorem isAtom_spaceFrom (t : Text) : isAtom (spaceFrom false t) = isAtom t := by
  by_cases h : ∃ c ∈ t, isBlank c = true
  · have hnot : ∀ {t : Text} {c : Char}, c ∈ t → isBlank c = true → isAtom t = false := fun hc hblank =>
      Bool.eq_false_iff.2 fun h =>
        absurd (hblank.symm.trans (not_symbol_of_isWordChar ((of_isAtom h).2 _ hc)).1) (by decide)
    obtain ⟨c, hc, hblank⟩ := h
    rw [hnot hc hblank, hnot (space_mem_spaceFrom ⟨c, hc, hblank⟩) rfl]
  · rw [spaceFrom_of_no_blank fun c hc => Bool.eq_false_iff.2 fun hblank => h ⟨c, hc, hblank⟩]

/-- Whether parentheses are written does not depend on how the group is spaced. -/
theorem spaceFrom_grouped (t : Text) : spaceFrom false (grouped t) = grouped (spaceFrom false t) := by
  rw [grouped, grouped, isAtom_spaceFrom]
  split
  · rfl
  · rw [parenthesized, List.cons_append, spaceFrom_cons_of_not_blank rfl, spaceFrom_append _ _ _ rfl]
    rfl

theorem Simple.spaced (h : Simple t) : Simple (spaceFrom false t) := fun c hc =>
  (mem_spaceFrom hc).elim (h c) fun hspace => hspace ▸ by decide

theorem Simple.trim (h : Simple t) : Simple t.trim := fun c hc => h c ((trim_isInfix t).subset hc)

/-- The blanks of a group in braces. -/
theorem written_braces_spaced (h : Simple t) :
    Written (spaceFrom false ('^' :: '{' :: (t ++ ['}']))) ('^' :: grouped (spaceFrom false t.trim)) := by
  rw [spaceFrom_cons_of_not_blank rfl, spaceFrom_cons_of_not_blank rfl, spaceFrom_append _ _ _ rfl, ← trim_spaceFrom]
  exact written_braces h.spaced

theorem written_grouped_spaced (h : Simple t) :
    Written (spaceFrom false ('^' :: grouped t.trim)) ('^' :: grouped (spaceFrom false t.trim)) := by
  rw [spaceFrom_cons_of_not_blank rfl, spaceFrom_grouped]
  exact written_grouped h.trim.spaced

theorem written_parenthesized_spaced (h : Simple t) :
    Written (spaceFrom false ('^' :: parenthesized t.trim)) ('^' :: parenthesized (spaceFrom false t.trim)) := by
  have hspaced : spaceFrom false (parenthesized t.trim) = parenthesized (spaceFrom false t.trim) := by
    rw [parenthesized, List.cons_append, spaceFrom_cons_of_not_blank rfl, spaceFrom_append _ _ _ rfl]
    rfl
  rw [spaceFrom_cons_of_not_blank rfl]
  exact hspaced ▸ written_parenthesized h.trim.spaced

/-! ## Groups -/

/-- Behind a place where a caret is an operator, every exponent is put into the same plain surroundings. -/
theorem latexToPlain_exponent {front : Text} (hfront : Settled 0 (spaceFrom false front.trimStart)) (back : Text) :
    ∃ x z, ∀ y w, '^' ∈ y.head? → (∃ c ∈ y.getLast?, isBlank c = false) → Written (spaceFrom false y) w →
      latexToPlain (Text.squeeze (front ++ (y ++ back))) = x ++ (w ++ z) := by
  obtain ⟨x, z, hplace⟩ := latexToPlain_place hfront (Text.squeezeFrom false back)
  refine ⟨x, z, fun y w hcaret hlast hw => ?_⟩
  rw [squeeze_exponent _ _ _ hcaret hlast, hplace _ _ hw]

/-- The normal form of a text with a backslash. -/
theorem normalize_of_latex {front y back p : Text} (hlatex : '\\' ∈ front ∨ '\\' ∈ back)
    (hplain : latexToPlain (Text.squeeze (front ++ (y ++ back))) = p) :
    normalize (front ++ (y ++ back)) = dropNames (plainSpelling p).squeeze := by
  have hslash : '\\' ∈ Text.squeeze (front ++ (y ++ back)) :=
    mem_squeeze_of_mem rfl (hlatex.elim (List.mem_append_left _) fun h =>
      List.mem_append_right _ (List.mem_append_right y h))
  rw [normalize]
  simp only [if_pos hslash]
  rw [hplain]

/-- **The group of an exponent.**  Behind a caret that is an operator, a group in braces is the same as the group in
parentheses, or the group bare if it is a run of letters, digits and points. -/
theorem normalize_exponent (front inside back : Text) (hfront : Settled 0 (spaceFrom false front.trimStart))
    (hinside : Simple inside) (hlatex : '\\' ∈ front ∨ '\\' ∈ back) :
    normalize (front ++ '^' :: '{' :: (inside ++ '}' :: back)) =
      normalize (front ++ '^' :: (grouped inside.trim ++ back)) := by
  obtain ⟨x, z, hplace⟩ := latexToPlain_exponent hfront back
  have hbraces := hplace ('^' :: '{' :: (inside ++ ['}'])) _ rfl
    ⟨'}', List.getLast?_concat (l := '^' :: '{' :: inside), rfl⟩ (written_braces_spaced hinside)
  have hgrouped := hplace _ _ rfl (isPower_grouped inside.trim).solid (written_grouped_spaced hinside)
  have htext : front ++ '^' :: '{' :: (inside ++ '}' :: back) =
      front ++ ('^' :: '{' :: (inside ++ ['}']) ++ back) := by simp
  rw [htext, normalize_of_latex hlatex hbraces]
  exact (normalize_of_latex hlatex hgrouped).symm

/-- A word as an exponent in plain text, without its parentheses. -/
theorem compile_plain {a z : Text} {f : Evaluator} (ha : IsWord a) (hstop : Stops a (asciiSymbols z)) (x : Text)
    (hf : compile (canonical (dropNames (plainSpelling (x ++ ('^' :: parenthesized a ++ z))).squeeze)) = .ok f) :
    ∃ g, compile (canonical (dropNames (plainSpelling (x ++ ('^' :: a ++ z))).squeeze)) = .ok g ∧
      g.program.instrs = f.program.instrs := by
  obtain ⟨x', z', hstop', hplain⟩ := plainSpelling_place ha x hstop
  obtain ⟨husual, hall⟩ := ha.usualCases
  rw [hplain _ (Or.inr rfl), usualCases_break _ rfl, usualCases_parenthesized] at hf
  rw [hplain _ (Or.inl rfl), usualCases_break _ rfl]
  exact compile_of_parenthesized husual (hstop'.congr hall) x' hf

/-- **An exponent in braces.**  The group in braces has the same normal form as in its shortest writing.  Where the text
with the group in parentheses compiles, the text with the group in braces compiles to the same operations, unless the
group is a run of letters, digits and points: it then has to be one word that stops where the group ends.  What stands
around the group is the same in both texts. -/
theorem compile_exponent (front inside back : Text) (hfront : Settled 0 (spaceFrom false front.trimStart))
    (hinside : Simple inside) (hlatex : '\\' ∈ front ∨ '\\' ∈ back) :
    normalize (front ++ '^' :: '{' :: (inside ++ '}' :: back)) =
        normalize (front ++ '^' :: (grouped inside.trim ++ back)) ∧
      ∃ x z, latexToPlain (Text.squeeze (front ++ '^' :: '{' :: (inside ++ '}' :: back))) =
          x ++ ('^' :: grouped (spaceFrom false inside.trim) ++ z) ∧
        latexToPlain (Text.squeeze (front ++ '^' :: (parenthesized inside.trim ++ back))) =
          x ++ ('^' :: parenthesized (spaceFrom false inside.trim) ++ z) ∧
        ((isAtom inside.trim = true → IsWord inside.trim ∧ Stops inside.trim (asciiSymbols z)) →
          ∀ is, operations (front ++ '^' :: (parenthesized inside.trim ++ back)) = some is →
            operations (front ++ '^' :: '{' :: (inside ++ '}' :: back)) = some is) := by
  obtain ⟨x, z, hplace⟩ := latexToPlain_exponent hfront back
  have hbraces := hplace ('^' :: '{' :: (inside ++ ['}'])) _ rfl
    ⟨'}', List.getLast?_concat (l := '^' :: '{' :: inside), rfl⟩ (written_braces_spaced hinside)
  have hparenthesized := hplace ('^' :: parenthesized inside.trim) _ rfl
    ⟨')', List.getLast?_concat (l := '^' :: '(' :: inside.trim), rfl⟩ (written_parenthesized_spaced hinside)
  have htext : front ++ '^' :: '{' :: (inside ++ '}' :: back) =
      front ++ ('^' :: '{' :: (inside ++ ['}']) ++ back) := by simp
  refine ⟨normalize_exponent front inside back hfront hinside hlatex, x, z, htext ▸ hbraces, hparenthesized, ?_⟩
  intro hatom is his
  obtain ⟨f, hf, hfis⟩ := operations_eq_some.1 his
  rw [operations_eq_some, htext, normalize_of_latex hlatex hbraces]
  rw [← List.cons_append, normalize_of_latex hlatex hparenthesized] at hf
  by_cases ha : isAtom inside.trim = true
  · obtain ⟨hword, hstop⟩ := hatom ha
    have hspaced : spaceFrom false inside.trim = inside.trim := spaceFrom_of_no_blank fun c hc =>
      (not_symbol_of_isWordChar ((of_isAtom ha).2 c hc)).1
    rw [hspaced] at hf
    rw [hspaced, grouped, if_pos ha]
    obtain ⟨g, hg, hgf⟩ := compile_plain hword hstop x hf
    exact ⟨g, hg, hgf.trans hfis⟩
  · rw [grouped, isAtom_spaceFrom, if_neg ha]
    exact ⟨f, hf, hfis⟩

end

/-- `compile_exponent` at a group that is one word, in front of a product, and at a group that is a sum. -/
theorem compile_exponent_word :
    (Settled 0 (spaceFrom false (Text.trimStart "2".toList)) ∧ Simple " x ".toList ∧ Simple "x+1".toList ∧
      '\\' ∈ "\\cdot3".toList) ∧
      operations "2^(x)\\cdot3".toList = some [.push 2.0, .load ['x'], .operate .pow, .push 3.0, .operate .mul] ∧
      operations "2^\x7b x \x7d\\cdot3".toList = operations "2^(x)\\cdot3".toList ∧
      normalize "2^\x7bx+1\x7d\\cdot3".toList = normalize "2^(x+1)\\cdot3".toList := by
  have hfront : Settled 0 (spaceFrom false (Text.trimStart "2".toList)) := .plain (by decide) .nil
  have hword : Simple " x ".toList := by simp [Simple]
  have hsum : Simple "x+1".toList := by simp [Simple]
  have hoperations : operations "2^(x)\\cdot3".toList =
      some [.push 2.0, .load ['x'], .operate .pow, .push 3.0, .operate .mul] := by
    have htokens : (Lexer.ofText (canonical (normalize "2^(x)\\cdot3".toList))).tokens =
        [⟨.number, 0, ['2']⟩, ⟨.op .pow, 1, ['*', '*']⟩, ⟨.openParen, 3, ['(']⟩, ⟨.ident, 4, ['x']⟩,
          ⟨.closeParen, 5, [')']⟩, ⟨.op .mul, 6, ['*']⟩, ⟨.number, 7, ['3']⟩].map .ok := by cbv
    exact operations_of_tokens htokens rfl rfl
  obtain ⟨-, x, z, hplain, -, hsame⟩ :=
    compile_exponent "2".toList " x ".toList "\\cdot3".toList hfront hword (Or.inr (by decide))
  -- there is a single caret, so what stands behind the word is known
  have hrest : z = "*3".toList := by
    have hcaret : latexToPlain (Text.squeeze "2^\x7b x \x7d\\cdot3".toList) = "2".toList ++ '^' :: "x*3".toList := by cbv
    have hplace := hcaret.symm.trans hplain
    rw [List.cons_append, List.append_cons_inj_of_notMem (by decide) (by decide)] at hplace
    exact (List.cons.inj hplace.2.2).2.symm
  have hstop : Stops ['x'] (asciiSymbols z) := by
    have hsymbols : asciiSymbols "*3".toList = "*3".toList := by cbv
    rw [hrest, hsymbols]
    exact (stops_cons_of_not_blank rfl).2 (by decide)
  have hbraces := hsame (fun _ => ⟨.name (by decide), hstop⟩) _ hoperations
  obtain ⟨hnormal, -⟩ :=
    compile_exponent "2".toList "x+1".toList "\\cdot3".toList hfront hsum (Or.inr (by decide))
  exact ⟨⟨hfront, hword, hsum, by decide⟩, hoperations, hbraces.trans hoperations.symm, hnormal⟩

/-- **An exponent that is cut**: the group `2x` is written bare, and only its `2` is raised to. -/
theorem exponent_cut :
    operations "2^(2x)\\cdot\\left(x-1\\right)".toList =
        some [.push 2.0, .push 2.0, .load ['x'], .operate .mul, .operate .pow, .load ['x'], .push 1.0,
          .operate .sub, .operate .mul] ∧
      operations "2^\x7b2x\x7d\\cdot\\left(x-1\\right)".toList =
        some [.push 2.0, .push 2.0, .operate .pow, .load ['x'], .operate .mul, .load ['x'], .push 1.0,
          .operate .sub, .operate .mul] ∧
      operations "2^\x7b2x\x7d\\cdot\\left(x-1\\right)".toList ≠
        operations "2^(2x)\\cdot\\left(x-1\\right)".toList := by
  have hkept : operations "2^(2x)\\cdot\\left(x-1\\right)".toList =
      some [.push 2.0, .push 2.0, .load ['x'], .operate .mul, .operate .pow, .load ['x'], .push 1.0,
        .operate .sub, .operate .mul] := by
    have htokens : (Lexer.ofText (canonical (normalize "2^(2x)\\cdot\\left(x-1\\right)".toList))).tokens =
        [⟨.number, 0, ['2']⟩, ⟨.op .pow, 1, ['*', '*']⟩, ⟨.openParen, 3, ['(']⟩, ⟨.number, 4, ['2']⟩,
          ⟨.op .mul, 5, ['*']⟩, ⟨.ident, 6, ['x']⟩, ⟨.closeParen, 7, [')']⟩, ⟨.op .mul, 8, ['*']⟩,
          ⟨.openParen, 9, ['(']⟩, ⟨.ident, 10, ['x']⟩, ⟨.op .sub, 11, ['-']⟩, ⟨.number, 12, ['1']⟩,
          ⟨.closeParen, 13, [')']⟩].map .ok := by cbv
    exact operations_of_tokens htokens rfl rfl
  have hcut : operations "2^\x7b2x\x7d\\cdot\\left(x-1\\right)".toList =
      some [.push 2.0, .push 2.0, .operate .pow, .load ['x'], .operate .mul, .load ['x'], .push 1.0,
        .operate .sub, .operate .mul] := by
    have htokens :
        (Lexer.ofText (canonical (normalize "2^\x7b2x\x7d\\cdot\\left(x-1\\right)".toList))).tokens =
        [⟨.number, 0, ['2']⟩, ⟨.op .pow, 1, ['*', '*']⟩, ⟨.number, 3, ['2']⟩, ⟨.op .mul, 4, ['*']⟩,
          ⟨.ident, 5, ['x']⟩, ⟨.op .mul, 6, ['*']⟩, ⟨.openParen, 7, ['(']⟩, ⟨.ident, 8, ['x']⟩,
          ⟨.op .sub, 9, ['-']⟩, ⟨.number, 10, ['1']⟩, ⟨.closeParen, 11, [')']⟩].map .ok := by cbv
    exact operations_of_tokens htokens rfl rfl
  rw [hkept, hcut]
  exact ⟨rfl, rfl, by simp⟩

end SignChart
