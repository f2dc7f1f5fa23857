/-
  An exponent that is one word.

  If a text with a number, or the name of a value, in parentheses as an exponent compiles, the text with
  the bare word compiles to the same operations (`compile_of_parenthesized`).

  1. **Cleaning.**  A word that stops is cleaned by itself, and what follows it does not go on with it when it is
     clean either (`head?_clean`).

  2. **Pieces.**  So it is a piece of its own, behind which the same stars are written as behind a
     parenthesis (`writeFrom_word`).

  3. **Operations.**  The canonical forms differ in the parentheses only (`canonical_place`), and these make no
     difference behind the stars of the power (`compile_of_enclosed`).
-/
import SignChart.Proofs.Expr.Enclosure
import SignChart.Proofs.Input.Placement

namespace SignChart

section
variable {a r w z : Text} {c : Char}

/-! ## Cleaning -/

theorem cleanFrom_cons {prev : Option Char}
    (h : ¬ (c = ',' ∧ prev.any Char.isDigit = true ∧ r.head?.any Char.isDigit = true)) :
    cleanFrom prev (c :: r) = if isBlank c then cleanFrom c r else lowerCase c ++ cleanFrom c r := by
  rw [cleanFrom, if_neg h]

theorem cleanFrom_of_not_digit {prev : Option Char} (h : ∀ c ∈ prev, c.isDigit = false) (t : Text) :
    cleanFrom prev t = clean t := by
  cases t with
  | nil => rfl
  | cons c r =>
    have hprev : ¬ prev.any Char.isDigit = true := by
      intro hany
      obtain ⟨d, hd, hdigit⟩ := (Option.any_eq_true _ _).1 hany
      exact absurd ((h d hd).symm.trans hdigit) Bool.false_ne_true
    rw [clean, cleanFrom_cons fun h => hprev h.2.1, cleanFrom_cons fun h => absurd h.2.1 (by simp)]

/-- A symbol that is neither a digit nor a comma is kept, and no comma at it is decimal. -/
theorem splitsAt_clean (hb : isBlank c = false) (hl : lowerCase c = [c]) (hd : c.isDigit = false) (hc : c ≠ ',') :
    SplitsAt clean c := by
  have hfrom : ∀ (s r : Text) (prev : Option Char), cleanFrom prev (s ++ c :: r) = cleanFrom prev s ++ c :: clean r := by
    intro s r
    induction s with
    | nil =>
      intro prev
      rw [List.nil_append, cleanFrom_cons fun h => hc h.1, hb, if_neg Bool.false_ne_true, hl,
        cleanFrom_of_not_digit fun d hd' => Option.some.inj hd' ▸ hd]
      rfl
    | cons e s ih =>
      intro prev
      have hhead : (s ++ c :: r).head?.any Char.isDigit = s.head?.any Char.isDigit := by
        cases s with
        | nil => exact hd
        | cons => rfl
      rw [List.cons_append, cleanFrom, cleanFrom, hhead, ih]
      split
      · rfl
      · split
        · rfl
        · rw [List.append_assoc]
  exact fun s r => hfrom s r none

/-- A word that stops is cleaned by itself. -/
theorem clean_word (ha : ∀ c ∈ w, isWordChar c = true) (hdigit : ∀ c ∈ w, c.isDigit = true → a.all isNumeric = true)
    (h : Stops a z) : ∀ prev : Option Char, (∀ c ∈ prev, c.isDigit = true → a.all isNumeric = true) →
      cleanFrom prev (w ++ z) = bare w ++ clean z := by
  induction w with
  | nil =>
    intro prev hprev
    cases z with
    | nil => rfl
    | cons c z =>
      have hcomma : ¬ (c = ',' ∧ prev.any Char.isDigit = true ∧ z.head?.any Char.isDigit = true) := by
        rintro ⟨rfl, hany, hz⟩
        obtain ⟨d, hd, hdigit⟩ := (Option.any_eq_true _ _).1 hany
        rw [stops_cons_of_not_blank rfl, goesOn, if_pos (hprev d hd hdigit), hz] at h
        exact absurd h (by decide)
      show cleanFrom prev (c :: z) = clean (c :: z)
      rw [clean, cleanFrom_cons hcomma, cleanFrom_cons fun h => absurd h.2.1 (by simp)]
  | cons c w ih =>
    intro prev _
    have hc := not_symbol_of_isWordChar (ha c List.mem_cons_self)
    have hrest := ih (fun d hd => ha d (List.mem_cons_of_mem c hd)) (fun d hd => hdigit d (List.mem_cons_of_mem c hd))
      (some c) fun d hd => Option.some.inj hd ▸ hdigit c List.mem_cons_self
    rw [List.cons_append, cleanFrom_cons fun h => hc.2 (by rw [h.1]; decide), hc.1, if_neg Bool.false_ne_true, hrest,
      bare_cons_of_not_blank hc.1, List.append_assoc]

/-- The characters that a word of this kind is made of. -/
def wordClass (a : Text) : Char → Bool := if a.all isNumeric then isNumeric else isLetter

/-- What goes on with no word goes on with none when it is clean. -/
theorem head?_clean (h : Stops a z) :
    ∀ c ∈ (clean z).head?, wordClass a c = false := by
  rw [wordClass]
  induction z with
  | nil => exact fun c hc => absurd hc (by simp [clean, cleanFrom])
  | cons c z ih =>
    intro d hd
    rw [clean, cleanFrom_cons fun h => absurd h.2.1 (by simp)] at hd
    by_cases hc : isBlank c = true
    · have hnot : c.isDigit = false := Bool.eq_false_iff.2 fun hdigit =>
        absurd (hc.symm.trans (not_symbol_of_isWordChar (isWordChar_of_isNumeric (isNumeric_of_isDigit hdigit))).1)
          (by decide)
      rw [if_pos hc, cleanFrom_of_not_digit fun e he => Option.some.inj he ▸ hnot] at hd
      exact ih ((stops_cons_of_blank hc).1 h) d hd
    · rw [stops_cons_of_not_blank (Bool.eq_false_iff.2 hc), goesOn] at h
      rw [if_neg hc, List.head?_append_of_ne_nil _ (lowerCase_ne_nil c)] at hd
      have hmem := List.mem_of_mem_head? hd
      split at h
      · next hn =>
        rw [if_pos hn]
        refine Bool.eq_false_iff.2 fun hnumeric => ?_
        have hrange := isNumeric_iff.1 hnumeric
        obtain rfl := eq_of_mem_lowerCase (by omega) (not_isLetter_of_isNumeric hnumeric) hmem
        rw [hnumeric] at h
        exact absurd h (by simp)
      · next hn =>
        rw [if_neg hn]
        exact Bool.eq_false_iff.2 (List.any_eq_false.1 h d hmem)

/-! ## Pieces -/

/-- The kind of a piece that is a word. -/
def wordKind (a : Text) : PieceKind := if a.all isNumeric then .number else .value

/-- A clean word. -/
theorem IsWord.bare (h : IsWord a) : IsWord (bare a) ∧ (bare a).all isNumeric = a.all isNumeric ∧
    (¬ a.all isNumeric = true → bare a ∈ valueWords) := by
  cases h with
  | number hne h =>
    have hsame : SignChart.bare a = a := by
      have hchar : ∀ c ∈ a, SplitsAt SignChart.bare c := fun c hc => by
        have hn := h c hc
        have hrange := isNumeric_iff.1 hn
        have hlower : lowerCase c = [c] := by
          rw [lowerCase_of_ascii (by omega), (toLower_eq_iff (not_isLetter_of_isNumeric hn)).2 rfl]
        exact splitsAt_bare (not_symbol_of_isWordChar (isWordChar_of_isNumeric hn)).1 hlower
      have hall := SplitsAt.text (f := SignChart.bare) rfl hchar []
      rwa [List.append_nil, show SignChart.bare [] = [] from rfl, List.append_nil] at hall
    rw [hsame]
    exact ⟨.number hne h, rfl, fun hnot => absurd (List.all_eq_true.2 h) hnot⟩
  | name h =>
    have hlower : (a.asciiLower).asciiLower = a.asciiLower := by
      have hall : ∀ w ∈ valueWords, Text.asciiLower w = w := by decide
      exact hall _ h
    rw [bare_letters (letters_of_name h)]
    refine ⟨.name (hlower.symm ▸ h), ?_, fun _ => h⟩
    rw [Bool.eq_false_iff.2 (all_isNumeric_of_name h), Bool.eq_false_iff.2 (all_isNumeric_of_name (hlower.symm ▸ h))]

/-- A clean word that nothing goes on with is a piece of its own. -/
theorem pieces_word (hw : IsWord w) (hvalue : ¬ w.all isNumeric = true → w ∈ valueWords)
    (hr : ∀ c ∈ r.head?, wordClass w c = false) : pieces (w ++ r) = ⟨wordKind w, w⟩ :: pieces r := by
  obtain ⟨c, w, rfl⟩ := List.exists_cons_of_ne_nil hw.ne_nil
  rw [wordKind]
  by_cases hn : (c :: w).all isNumeric = true
  · have hall := List.all_eq_true.1 hn
    rw [wordClass, if_pos hn] at hr
    obtain ⟨htake, hdrop⟩ := takeWhile_append_of_stop hall hr
    rw [if_pos hn, List.cons_append, pieces, dif_pos (hall c List.mem_cons_self), ← List.cons_append, htake, hdrop]
  · have hletters := letters_of_mem_valueWords (hvalue hn)
    rw [wordClass, if_neg hn] at hr
    obtain ⟨htake, hdrop⟩ := takeWhile_append_of_stop hletters hr
    have hc := hletters c List.mem_cons_self
    rw [if_neg hn, List.cons_append, pieces, dif_neg (not_isNumeric_of_isLetter hc), dif_pos hc, ← List.cons_append,
      htake, hdrop, valueRun?_of_mem (hvalue hn)]
    rfl

/-- Only a digit or a point begins a number. -/
theorem kind_ne_number (h : ¬ isNumeric c = true) : ∀ p ∈ (pieces (c :: r)).head?, p.kind ≠ .number := by
  rw [pieces, dif_neg h]
  by_cases hl : isLetter c = true
  · rw [dif_pos hl]
    split
    · next words hwords =>
      have hne := (valueRun?_words hwords).2 (by rw [List.takeWhile_cons_of_pos hl]; exact List.cons_ne_nil _ _)
      obtain ⟨w, words, rfl⟩ := List.exists_cons_of_ne_nil hne
      rintro p ⟨⟩
      exact PieceKind.noConfusion
    · rintro p ⟨⟩
      exact PieceKind.noConfusion
  · rw [dif_neg hl]
    rintro p ⟨⟩
    show (if c = '(' then PieceKind.opening else if c = ')' then PieceKind.closing else PieceKind.other) ≠ _
    split
    · exact PieceKind.noConfusion
    · split <;> exact PieceKind.noConfusion

/-- Behind a word that stops, the same stars are written as behind a parenthesis. -/
theorem writeFrom_word (hr : ∀ c ∈ r.head?, wordClass a c = false) :
    writeFrom (wordKind a) (pieces r) = writeFrom .closing (pieces r) := by
  have hkind : ∀ p ∈ (pieces r).head?, (wordKind a).multiplies p.kind = PieceKind.closing.multiplies p.kind := by
    intro p hp
    rw [wordKind]
    by_cases ha : a.all isNumeric = true
    · cases r with
      | nil => rw [pieces] at hp; exact absurd hp (by simp)
      | cons c r =>
        rw [wordClass, if_pos ha] at hr
        have hnumber := kind_ne_number (Bool.eq_false_iff.1 (hr c rfl)) p hp
        rw [if_pos ha]
        cases hk : p.kind <;> first | rfl | exact absurd hk hnumber
    · rw [if_neg ha]
      cases p.kind <;> rfl
  cases hp : pieces r with
  | nil => rfl
  | cons p ps => rw [writeFrom, writeFrom, hkind p (by rw [hp]; rfl)]

/-- A clean word in front of what does not go on with it. -/
theorem written_word (hw : IsWord w) (hvalue : ¬ w.all isNumeric = true → w ∈ valueWords)
    (hr : ∀ c ∈ r.head?, wordClass w c = false) : written .other (w ++ r) = w ++ written .closing r := by
  have hcaret : '^' ∉ w := fun hm => absurd (hw.isWordChar _ hm) (by decide)
  have hstar : ∀ k : PieceKind, PieceKind.other.multiplies k = false := fun k => by cases k <;> rfl
  rw [written, pieces_word hw hvalue hr, writeFrom, hstar, writeFrom_word hr, List.append_assoc]
  show spread (w ++ _) = _
  rw [spread_append, spread_of_not_mem hcaret]
  rfl

/-! ## Operations -/

/-- The canonical forms of a text with the word as an exponent. -/
theorem canonical_place (ha : IsWord a) (hstop : Stops a z) (x : Text) :
    ∃ k w, (∀ c ∈ w.head?, isLetterOrDigit c = false ∧ isNumeric c = false) ∧ '*' ∈ k.getLast? ∧
      canonical (x ++ ('^' :: a ++ z)) = k ++ (bare a ++ w) ∧
      canonical (x ++ ('^' :: parenthesized a ++ z)) = k ++ '(' :: (bare a ++ ')' :: w) := by
  obtain ⟨hword, hall, hvalue⟩ := ha.bare
  have hdigit : ∀ c ∈ a, c.isDigit = true → a.all isNumeric = true := by
    intro c hc hd
    cases ha with
    | number _ h => exact List.all_eq_true.2 h
    | name h =>
      have hnot := not_isLetter_of_isNumeric (isNumeric_of_isDigit hd)
      exact absurd (hnot.symm.trans (letters_of_name h c hc)) Bool.false_ne_true
  have hcaret : SplitsAt clean '^' := splitsAt_clean rfl rfl rfl (by decide)
  have hopen : SplitsAt clean '(' := splitsAt_clean rfl rfl rfl (by decide)
  have hclose : SplitsAt clean ')' := splitsAt_clean rfl rfl rfl (by decide)
  have hclean : ∀ {u : Text}, Stops a u → clean (a ++ u) = bare a ++ clean u := fun hu =>
    clean_word ha.isWordChar hdigit hu none fun d hd => absurd hd (by simp)
  have halone : clean a = bare a := by
    have h := hclean (u := []) trivial
    rwa [List.append_nil, show clean [] = [] from rfl, List.append_nil] at h
  have hstops : ∀ {u : Text}, Stops a u → ∀ c ∈ (clean u).head?, wordClass (bare a) c = false := by
    intro u hu
    rw [wordClass, hall]
    exact head?_clean hu
  have hcanonical : ∀ u : Text, canonical (x ++ '^' :: u) =
      written .other (clean x) ++ ['*', '*'] ++ written .other (clean u) := by
    intro u
    show written .other (clean (x ++ '^' :: u)) = _
    rw [hcaret, written_append (by decide) (by decide), List.append_assoc]
    rfl
  have hseparated : Separated .closing (written .closing (clean z)) :=
    separated_pieces _ (fun c hc => not_isBlank_of_mem_cleanFrom hc) .closing (fun h => PieceKind.noConfusion h)
      fun h => PieceKind.noConfusion h
  refine ⟨written .other (clean x) ++ ['*', '*'], written .closing (clean z), hseparated.stop rfl,
    List.mem_getLast?_append_of_mem_getLast? rfl, ?_, ?_⟩
  · rw [List.cons_append, hcanonical, hclean hstop, written_word hword (fun h => hvalue (hall ▸ h)) (hstops hstop)]
  · have hgroup : clean ('(' :: (a ++ ')' :: z)) = '(' :: (bare a ++ ')' :: clean z) := by
      rw [hopen.cons rfl, hclose, halone]
    have hinner : written .other (bare a) = bare a := by
      have h := written_word (r := []) hword (fun h => hvalue (hall ▸ h)) fun c hc => absurd hc (by simp)
      rwa [List.append_nil, written_nil, List.append_nil] at h
    have htext : '^' :: parenthesized a ++ z = '^' :: '(' :: (a ++ ')' :: z) := by simp [parenthesized]
    rw [htext, hcanonical, hgroup, written_group, hinner]

/-- **A word as an exponent.**  If a text with the word in parentheses as an exponent compiles, the text with the bare
word compiles to the same operations. -/
theorem compile_of_parenthesized {f : Evaluator} (ha : IsWord a) (hstop : Stops a z) (x : Text)
    (hf : compile (canonical (x ++ ('^' :: parenthesized a ++ z))) = .ok f) :
    ∃ g, compile (canonical (x ++ ('^' :: a ++ z))) = .ok g ∧ g.program.instrs = f.program.instrs := by
  obtain ⟨k, w, hw, hstar, hbare, hgroup⟩ := canonical_place ha hstop x
  obtain ⟨hword, hall, hvalue⟩ := ha.bare
  have hblank : ∀ c ∈ k, isBlank c = false := fun c hc =>
    (separated_canonical (x ++ ('^' :: a ++ z))).not_blank c (hbare ▸ List.mem_append_left _ hc)
  rw [hgroup] at hf
  rw [hbare]
  by_cases hn : a.all isNumeric = true
  · have hproper : (Terminal.number (bare a)).Proper := .number hword.ne_nil (List.all_eq_true.1 (hall ▸ hn))
    exact compile_of_enclosed hblank hstar hproper rfl (Or.inl rfl) (fun c hc => (hw c hc).2) hf
  · have hproper : (Terminal.name (bare a)).Proper := .name (isName_of_mem_valueWords (hvalue hn))
    exact compile_of_enclosed hblank hstar hproper rfl (Or.inr rfl) (fun c hc => (hw c hc).1) hf

end

end SignChart
