/-
  Canonical text is canonical already.

  Writing the canonical form of a text cuts it into pieces and puts stars between factors.  Nothing is left to do to
  what comes out:

  1. **Pieces.**  A canonical text has no operands side by side (`separated_canonical`), so each of its words ends
     where nothing goes on with it, and is a piece of its own (`pieces_number`, `pieces_value`, `pieces_function`).
     Between these pieces no star is missing (`Separated.writeFrom_pieces`).

  2. **Runs.**  Seen from outside, a text falls into numbers, words and single other characters (`runs`).  In
     a canonical text no run that ends an operand stands right in front of one that begins another
     (`Separated.runs_isChain`).

  3. **Stars.**  Apart from the stars between factors (`factors`) nothing is put in, left out or moved.

  **`canonical_canonical`** puts these together for texts of ASCII without commas.  A comma that a blank separates from
  a digit would be a decimal point to a second pass.
-/
import SignChart.Proofs.Input.Power

namespace SignChart

section
variable {c : Char} {k : PieceKind} {r s t u v w : Text}

/-! ## Pieces -/

/-- A run ends with the text if what follows does not go on with it. -/
theorem takeWhile_append_stop {q : Char → Bool} (hr : ∀ c ∈ r.head?, q c = false) (s : Text) :
    (s ++ r).takeWhile q = s.takeWhile q ∧ (s ++ r).dropWhile q = s.dropWhile q ++ r := by
  cases r with
  | nil => rw [List.append_nil, List.append_nil]; exact ⟨rfl, rfl⟩
  | cons c r => exact takeWhile_append_break (hr c rfl) s r

/-- A number that nothing goes on with is a piece of its own. -/
theorem pieces_number (hne : w ≠ []) (hw : ∀ c ∈ w, isNumeric c = true) (hr : ∀ c ∈ r.head?, isNumeric c = false) :
    pieces (w ++ r) = ⟨.number, w⟩ :: pieces r := by
  have hall : w.all isNumeric = true := List.all_eq_true.2 hw
  have hword := pieces_word (.number hne hw) (fun h => absurd hall h) (r := r) (by rwa [wordClass, hall])
  rwa [wordKind, hall] at hword

/-- So is a word that stands for a value. -/
theorem pieces_value (hw : w ∈ valueWords) (hr : ∀ c ∈ r.head?, isLetter c = false) :
    pieces (w ++ r) = ⟨.value, w⟩ :: pieces r := by
  have hall : ∀ w ∈ valueWords, w.all isNumeric = false ∧ w.asciiLower ∈ valueWords := by decide
  obtain ⟨hnumeric, hlower⟩ := hall w hw
  have hword := pieces_word (.name hlower) (fun _ => hw) (r := r) (by rwa [wordClass, hnumeric])
  rwa [wordKind, hnumeric] at hword

/-- A text that begins with letters which are no words for values begins with the name of a function. -/
theorem pieces_name (h : valueRun? (t.takeWhile isLetter) = none) :
    pieces t = ⟨.function, t.takeWhile isLetterOrDigit⟩ :: pieces (t.dropWhile isLetterOrDigit) := by
  cases t with
  | nil => rw [List.takeWhile_nil, valueRun?] at h; exact absurd h (by simp)
  | cons c r =>
    by_cases hl : isLetter c = true
    · rw [pieces, dif_neg (not_isNumeric_of_isLetter hl), dif_pos hl, h]
    · rw [List.takeWhile_cons_of_neg hl, valueRun?] at h
      exact absurd h (by simp)

theorem isLetterOrDigit_of_isName (hw : isName w) : ∀ c ∈ w, isLetterOrDigit c = true := by
  obtain ⟨c, w, rfl, hc⟩ := cons_of_isName hw
  rw [isName, Bool.and_eq_true, List.all_eq_true] at hw
  exact List.forall_mem_cons.2 ⟨isLetterOrDigit_iff.2 (Or.inl hc), hw.2⟩

/-- A name of a function that nothing goes on with is a piece of its own. -/
theorem pieces_function (hw : isName w) (hvalue : valueRun? (w.takeWhile isLetter) = none)
    (hr : ∀ c ∈ r.head?, isLetterOrDigit c = false) : pieces (w ++ r) = ⟨.function, w⟩ :: pieces r := by
  obtain ⟨hletters, -⟩ := takeWhile_append_stop (fun c hc => not_isLetter_of_not_isLetterOrDigit (hr c hc)) w
  obtain ⟨htake, hdrop⟩ := takeWhile_append_of_stop (isLetterOrDigit_of_isName hw) hr
  rw [pieces_name (hletters.symm ▸ hvalue), htake, hdrop]

theorem not_isWordChar (hn : isNumeric c = false) (hl : isLetter c = false) : isWordChar c = false := by
  rw [Bool.eq_false_iff, Ne, isNumeric_iff] at hn
  rw [Bool.eq_false_iff, isWordChar, Ne, Bool.or_eq_true, isLetterOrDigit_iff, decide_eq_true_iff, ← Char.toNat_inj]
  rintro ((h | h) | h)
  · exact absurd (hl.symm.trans h) Bool.false_ne_true
  · exact hn (Or.inl h)
  · exact hn (Or.inr h)

theorem PieceKind.multiplies_eq_false (h : k.ends = false) (j : PieceKind) : k.multiplies j = false := by
  cases k with
  | number | value | closing => exact absurd h.symm Bool.false_ne_true
  | function | opening | other => rfl

/-- **No star is missing** between the pieces of a text without operands side by side. -/
theorem Separated.writeFrom_pieces (h : Separated k t) : writeFrom k (pieces t) = t := by
  -- a piece without a star in front, and what is written behind it
  have hcons {k : PieceKind} {p : Piece} {s t : Text} (hpieces : pieces s = p :: pieces t)
      (hk : k.multiplies p.kind = false) (ih : writeFrom p.kind (pieces t) = t) :
      writeFrom k (pieces s) = p.text ++ t := by
    rw [hpieces, writeFrom, hk, ih]
    rfl
  induction h with
  | nil k => rw [pieces]; rfl
  | @symbol k c t hc _ ih =>
    have hpieces := pieces_cons (not_isWordChar hc.1 hc.2.1) t
    rw [symbolKind, if_neg hc.2.2.2.1, if_neg hc.2.2.2.2] at hpieces
    exact hcons hpieces (by cases k <;> rfl) ih
  | opening hk _ ih => exact hcons (pieces_cons rfl _) (PieceKind.multiplies_eq_false hk _) ih
  | @closing k t _ ih => exact hcons (pieces_cons rfl _) (by cases k <;> rfl) ih
  | number hk hne hw h ih =>
    exact hcons (pieces_number hne hw fun c hc => (h.stop rfl c hc).2) (PieceKind.multiplies_eq_false hk _) ih
  | value hk hw h ih =>
    have hstop := fun c hc => not_isLetter_of_not_isLetterOrDigit (h.stop rfl c hc).1
    exact hcons (pieces_value hw hstop) (PieceKind.multiplies_eq_false hk _) ih
  | function hk hw hvalue hstop _ ih =>
    exact hcons (pieces_function hw hvalue hstop) (PieceKind.multiplies_eq_false hk _) ih

/-! ## Runs -/

/-- A text cut into numbers, which are longest runs of digits and points, words, which are letters with the longest run
of letters and digits behind them, and single other characters. -/
def runs (t : Text) : List Text :=
  match t with
  | [] => []
  | c :: r =>
    if _hn : isNumeric c then (c :: r).takeWhile isNumeric :: runs ((c :: r).dropWhile isNumeric)
    else if _hl : isLetter c then (c :: r).takeWhile isLetterOrDigit :: runs ((c :: r).dropWhile isLetterOrDigit)
    else [c] :: runs r
termination_by t.length
decreasing_by
  · exact length_dropWhile_lt _hn r
  · exact length_dropWhile_lt (isLetterOrDigit_iff.2 (Or.inl _hl)) r
  · exact Nat.lt_succ_self _

/-- The run is a number, a word that stands for a value, or a parenthesis that closes. -/
def EndsOperand (u : Text) : Prop := (∃ c ∈ u.head?, isNumeric c = true) ∨ u ∈ valueWords ∨ u = [')']

/-- The run is a number, a word, or a parenthesis that opens. -/
def BeginsOperand (u : Text) : Prop := ∃ c ∈ u.head?, isNumeric c = true ∨ isLetter c = true ∨ c = '('

/-- The two runs are not factors side by side. -/
def NotFactors (u v : Text) : Prop := ¬ (EndsOperand u ∧ BeginsOperand v)

theorem runs_number (hne : w ≠ []) (hw : ∀ c ∈ w, isNumeric c = true) (hr : ∀ c ∈ r.head?, isNumeric c = false) :
    runs (w ++ r) = w :: runs r := by
  obtain ⟨c, w, rfl⟩ := List.exists_cons_of_ne_nil hne
  obtain ⟨htake, hdrop⟩ := takeWhile_append_of_stop hw hr
  rw [List.cons_append, runs, dif_pos (hw c List.mem_cons_self), ← List.cons_append, htake, hdrop]

theorem runs_word (hw : isName w) (hr : ∀ c ∈ r.head?, isLetterOrDigit c = false) : runs (w ++ r) = w :: runs r := by
  obtain ⟨htake, hdrop⟩ := takeWhile_append_of_stop (isLetterOrDigit_of_isName hw) hr
  obtain ⟨c, w, rfl, hc⟩ := cons_of_isName hw
  rw [List.cons_append, runs, dif_neg (not_isNumeric_of_isLetter hc), dif_pos hc, ← List.cons_append, htake, hdrop]

theorem runs_cons (hn : isNumeric c = false) (hl : isLetter c = false) (r : Text) : runs (c :: r) = [c] :: runs r := by
  rw [runs, dif_neg (Bool.eq_false_iff.1 hn), dif_neg (Bool.eq_false_iff.1 hl)]

theorem not_endsOperand_single (hn : isNumeric c = false) (hl : isLetter c = false) (hc : c ≠ ')') :
    ¬ EndsOperand [c] := by
  rintro (⟨d, hd, hnumeric⟩ | hmem | hclose)
  · obtain rfl := Option.some.inj hd
    exact absurd (hn.symm.trans hnumeric) Bool.false_ne_true
  · exact absurd (hl.symm.trans (letters_of_mem_valueWords hmem c List.mem_cons_self)) Bool.false_ne_true
  · exact hc (List.cons.inj hclose).1

theorem not_beginsOperand_single (hn : isNumeric c = false) (hl : isLetter c = false) (hc : c ≠ '(') :
    ¬ BeginsOperand [c] := by
  rintro ⟨d, hd, hbegins⟩
  obtain rfl := Option.some.inj hd
  rcases hbegins with h | h | h
  · exact absurd (hn.symm.trans h) Bool.false_ne_true
  · exact absurd (hl.symm.trans h) Bool.false_ne_true
  · exact hc h

theorem not_endsOperand_word (hw : isName w) (hvalue : w ∉ valueWords) : ¬ EndsOperand w := by
  obtain ⟨c, w, rfl, hc⟩ := cons_of_isName hw
  rintro (⟨d, hd, hn⟩ | hmem | hclose)
  · obtain rfl := Option.some.inj hd
    exact not_isNumeric_of_isLetter hc hn
  · exact hvalue hmem
  · obtain rfl := (List.cons.inj hclose).1
    exact absurd hc (by decide)

/-- **No factors side by side** are seen in a text without operands side by side, and behind the end of an operand no
other begins. -/
theorem Separated.runs_isChain (h : Separated k t) :
    (runs t).IsChain NotFactors ∧ (k.ends = true → ∀ u ∈ (runs t).head?, ¬ BeginsOperand u) := by
  -- a run that begins no operand, or stands behind the end of none
  have hcons {k : PieceKind} {s u t : Text} {j : PieceKind} (hruns : runs s = u :: runs t)
      (hk : k.ends = true → ¬ BeginsOperand u) (hj : EndsOperand u → j.ends = true)
      (ih : (runs t).IsChain NotFactors ∧ (j.ends = true → ∀ v ∈ (runs t).head?, ¬ BeginsOperand v)) :
      (runs s).IsChain NotFactors ∧ (k.ends = true → ∀ v ∈ (runs s).head?, ¬ BeginsOperand v) := by
    rw [hruns]
    refine ⟨List.isChain_cons.2 ⟨fun v hv hfactors => ?_, ih.1⟩, fun hends v hv => ?_⟩
    · exact ih.2 (hj hfactors.1) v hv hfactors.2
    · exact Option.some.inj hv ▸ hk hends
  have hnever {k : PieceKind} {u : Text} (hk : k.ends = false) : k.ends = true → ¬ BeginsOperand u := fun h =>
    absurd (hk.symm.trans h) Bool.false_ne_true
  induction h with
  | nil k => rw [runs]; exact ⟨List.isChain_nil, fun _ u hu => absurd hu (by simp)⟩
  | symbol hc _ ih =>
    exact hcons (runs_cons hc.1 hc.2.1 _) (fun _ => not_beginsOperand_single hc.1 hc.2.1 hc.2.2.2.1)
      (fun hends => absurd hends (not_endsOperand_single hc.1 hc.2.1 hc.2.2.2.2)) ih
  | opening hk _ ih =>
    exact hcons (runs_cons rfl rfl _) (hnever hk)
      (fun hends => absurd hends (not_endsOperand_single rfl rfl (by decide))) ih
  | closing _ ih =>
    exact hcons (runs_cons rfl rfl _) (fun _ => not_beginsOperand_single rfl rfl (by decide)) (fun _ => rfl) ih
  | number hk hne hw h ih =>
    exact hcons (runs_number hne hw fun c hc => (h.stop rfl c hc).2) (hnever hk) (fun _ => rfl) ih
  | value hk hw h ih =>
    exact hcons (runs_word (isName_of_mem_valueWords hw) fun c hc => (h.stop rfl c hc).1) (hnever hk) (fun _ => rfl) ih
  | function hk hw hvalue hstop _ ih =>
    refine hcons (runs_word hw hstop) (hnever hk) (fun hends => ?_) ih
    exact absurd hends (not_endsOperand_word hw (not_mem_valueWords hvalue))

/-! ## Stars -/

/-- The factors of some pieces behind a text `u` that ends with a piece of kind `k`: what stands between two stars. -/
def factors (u : Text) (k : PieceKind) : List Piece → List Text
  | [] => [u]
  | p :: ps => if k.multiplies p.kind then u :: factors p.text p.kind ps else factors (u ++ p.text) p.kind ps

theorem factors_ne_nil (u : Text) (k : PieceKind) (ps : List Piece) : factors u k ps ≠ [] := by
  induction ps generalizing u k with
  | nil => exact List.cons_ne_nil _ _
  | cons p ps ih =>
    rw [factors]
    split
    · exact List.cons_ne_nil _ _
    · exact ih _ _

theorem flatten_factors (ps : List Piece) : ∀ (u : Text) (k : PieceKind),
    (factors u k ps).flatten = u ++ ps.flatMap Piece.text := by
  induction ps with
  | nil => intro u k; rw [factors]; rfl
  | cons p ps ih =>
    intro u k
    rw [factors, List.flatMap_cons]
    split
    · rw [List.flatten_cons, ih]
    · rw [ih, List.append_assoc]

/-- The factors with stars in between are the pieces with their stars. -/
theorem intercalate_factors (ps : List Piece) : ∀ (u : Text) (k : PieceKind),
    ['*'].intercalate (factors u k ps) = u ++ writeFrom k ps := by
  induction ps with
  | nil => intro u k; rw [factors]; simp [writeFrom]
  | cons p ps ih =>
    intro u k
    rw [factors, writeFrom]
    split
    · rw [List.intercalate_cons_of_ne_nil (factors_ne_nil _ _ _), ih]
      simp
    · rw [ih]
      simp

theorem ne_nil_of_mem_factors (ps : List Piece) : ∀ (u : Text) (k : PieceKind), u ≠ [] →
    (∀ p ∈ ps, p.text ≠ []) → ∀ v ∈ factors u k ps, v ≠ [] := by
  induction ps with
  | nil => intro u k hu _ v hv; exact List.mem_singleton.1 hv ▸ hu
  | cons p ps ih =>
    intro u k hu hps v hv
    obtain ⟨hp, hps⟩ := List.forall_mem_cons.1 hps
    rw [factors] at hv
    split at hv
    · rcases List.mem_cons.1 hv with rfl | hv
      · exact hu
      · exact ih _ _ hp hps v hv
    · exact ih _ _ (List.append_ne_nil_of_left_ne_nil hu _) hps v hv

theorem text_ne_nil_of_mem_pieces (t : Text) : ∀ p ∈ pieces t, p.text ≠ [] := by
  fun_induction pieces t with
  | case1 => exact fun p hp => absurd hp List.not_mem_nil
  | case2 c r hn ih =>
    refine List.forall_mem_cons.2 ⟨?_, ih⟩
    rw [List.takeWhile_cons_of_pos hn]
    exact List.cons_ne_nil _ _
  | case3 c r hn hl words hwords ih =>
    refine List.forall_mem_append.2 ⟨fun p hp => ?_, ih⟩
    obtain ⟨w, hw, rfl⟩ := List.mem_map.1 hp
    exact ne_nil_of_isName (isName_of_mem_valueWords ((valueRun?_words hwords).1 w hw))
  | case4 c r hn hl hnone ih =>
    refine List.forall_mem_cons.2 ⟨?_, ih⟩
    rw [List.takeWhile_cons_of_pos (isLetterOrDigit_iff.2 (Or.inl hl))]
    exact List.cons_ne_nil _ _
  | case5 c r hn hl kind ih => exact List.forall_mem_cons.2 ⟨List.cons_ne_nil _ _, ih⟩

theorem spread_intercalate (parts : List Text) :
    spread (['*'].intercalate parts) = ['*'].intercalate (parts.map spread) := by
  induction parts with
  | nil => rfl
  | cons u parts ih =>
    by_cases hne : parts = []
    · rw [hne, List.map_cons, List.map_nil, List.intercalate_singleton, List.intercalate_singleton]
    · rw [List.map_cons, List.intercalate_cons_of_ne_nil hne,
        List.intercalate_cons_of_ne_nil (mt List.map_eq_nil_iff.1 hne), spread_append, spread_append, ih]
      rfl

theorem spread_flatten (parts : List Text) : spread parts.flatten = (parts.map spread).flatten := by
  induction parts with
  | nil => rfl
  | cons u parts ih => rw [List.flatten_cons, spread_append, ih]; rfl

/-- **Stars.**  A canonical text is the clean text, with powers as stars, in parts with a star between one and the
next. -/
theorem exists_parts (t : Text) : ∃ parts : List Text, (∀ u ∈ parts, u ≠ []) ∧ parts.flatten = spread (clean t) ∧
    canonical t = ['*'].intercalate parts := by
  have htext := pieces_text (clean t)
  have hne := text_ne_nil_of_mem_pieces (clean t)
  show ∃ parts : List Text, _ ∧ _ ∧ spread (writeFrom .other (pieces (clean t))) = _
  cases hpieces : pieces (clean t) with
  | nil =>
    rw [hpieces] at htext
    exact ⟨[], fun u hu => absurd hu List.not_mem_nil, congrArg spread htext, rfl⟩
  | cons p ps =>
    rw [hpieces, List.flatMap_cons] at htext
    rw [hpieces] at hne
    obtain ⟨hp, hps⟩ := List.forall_mem_cons.1 hne
    refine ⟨(factors p.text p.kind ps).map spread, fun u hu => ?_, ?_, ?_⟩
    · obtain ⟨v, hv, rfl⟩ := List.mem_map.1 hu
      exact spread_ne_nil (ne_nil_of_mem_factors ps _ _ hp hps v hv)
    · rw [← spread_flatten, flatten_factors, htext]
    · rw [← spread_intercalate, intercalate_factors, writeFrom, PieceKind.multiplies_eq_false rfl]
      rfl

/-! ## Texts of ASCII -/

/-- What is clean in a text of ASCII without commas. -/
def lowerInk (t : Text) : Text := (t.filter fun c => !isBlank c).map Char.toLower

theorem clean_of_ascii (hascii : ∀ c ∈ t, c.toNat < 128) (hcomma : ',' ∉ t) : clean t = lowerInk t := by
  rw [clean, cleanFrom_eq_bare hcomma]
  clear hcomma
  induction t with
  | nil => rfl
  | cons c r ih =>
    have hrest := ih fun d hd => hascii d (List.mem_cons_of_mem c hd)
    by_cases hb : isBlank c = true
    · rw [bare_cons_of_blank hb, hrest, lowerInk, lowerInk, List.filter_cons_of_neg (by simp [hb])]
    · rw [bare_cons_of_not_blank (Bool.eq_false_iff.2 hb), hrest, lowerCase_of_ascii (hascii c List.mem_cons_self),
        lowerInk, lowerInk, List.filter_cons_of_pos (by simp [hb])]
      rfl

/-- A character that a clean text of ASCII is made of. -/
structure IsCleanAscii (c : Char) : Prop where
  ascii : c.toNat < 128
  not_blank : isBlank c = false
  not_upper : c.isUpper = false

theorem isUpper_iff : c.isUpper = true ↔ 65 ≤ c.toNat ∧ c.toNat ≤ 90 := by
  simp only [Char.isUpper, decide_eq_true_eq, ge_iff_le, UInt32.le_iff_toNat_le, Char.toNat_val]
  exact Iff.rfl

theorem toLower_of_not_upper (h : c.isUpper = false) : c.toLower = c := by
  rw [Bool.eq_false_iff, Ne, isUpper_iff] at h
  rw [← Char.toNat_inj, toNat_toLower, if_neg h]

theorem isCleanAscii_of_mem_lowerInk (hascii : ∀ c ∈ t, c.toNat < 128) (h : c ∈ lowerInk t) : IsCleanAscii c := by
  obtain ⟨d, hd, rfl⟩ := List.mem_map.1 h
  obtain ⟨hmem, hblank⟩ := List.mem_filter.1 hd
  have hlt := hascii d hmem
  refine ⟨?_, ?_, ?_⟩
  · rw [toNat_toLower]
    split <;> omega
  · refine not_isBlank_of_mem_lowerCase (c := d) (by simpa using hblank) ?_
    rw [lowerCase_of_ascii hlt]
    exact List.mem_singleton_self _
  · rw [Bool.eq_false_iff, Ne, isUpper_iff, toNat_toLower]
    split <;> omega

theorem comma_not_mem_lowerInk (hcomma : ',' ∉ t) : ',' ∉ lowerInk t := by
  intro h
  obtain ⟨d, hd, hlower⟩ := List.mem_map.1 h
  rw [(toLower_eq_iff (by decide)).1 hlower] at hd
  exact hcomma (List.mem_filter.1 hd).1

/-- Clean text is clean already. -/
theorem lowerInk_eq_self (h : ∀ c ∈ t, IsCleanAscii c) : lowerInk t = t := by
  have hfilter : (t.filter fun c => !isBlank c) = t :=
    List.filter_eq_self.2 fun c hc => by rw [(h c hc).not_blank]; rfl
  rw [lowerInk, hfilter]
  exact (List.map_congr_left fun c hc => toLower_of_not_upper (h c hc).not_upper).trans (List.map_id' t)

/-- Writing puts in nothing but stars. -/
theorem mem_canonical (h : c ∈ canonical t) : c = '*' ∨ c ∈ clean t := by
  obtain ⟨parts, -, hflatten, hcanonical⟩ := exists_parts t
  have hmem : ∀ parts : List Text, c ∈ ['*'].intercalate parts → c = '*' ∨ c ∈ parts.flatten := by
    intro parts
    induction parts with
    | nil => intro h; exact absurd h List.not_mem_nil
    | cons u parts ih =>
      by_cases hne : parts = []
      · rw [hne, List.intercalate_singleton]
        intro h
        exact Or.inr (List.mem_append_left _ h)
      · rw [List.intercalate_cons_of_ne_nil hne, List.flatten_cons, List.mem_append, List.mem_append, List.mem_append]
        rintro ((h | h) | h)
        · exact Or.inr (Or.inl h)
        · exact Or.inl (List.mem_singleton.1 h)
        · exact (ih h).imp_right Or.inr
  rw [hcanonical] at h
  rcases hmem parts h with h | h
  · exact Or.inl h
  · rw [hflatten] at h
    obtain ⟨d, hd, hc⟩ := List.mem_flatMap.1 h
    split at hc
    · simp only [List.mem_cons, List.not_mem_nil, or_false, or_self] at hc
      exact Or.inl hc
    · exact Or.inr (List.mem_singleton.1 hc ▸ hd)

/-- **Canonical text** of a text of ASCII without commas: lower case without blanks and carets; its own canonical form;
without factors side by side; and, apart from single stars between its parts, the text itself. -/
theorem canonical_canonical (hascii : ∀ c ∈ t, c.toNat < 128) (hcomma : ',' ∉ t) :
    (∀ c ∈ canonical t, IsCleanAscii c ∧ c ≠ '^') ∧ canonical (canonical t) = canonical t ∧
      (runs (canonical t)).IsChain NotFactors ∧
      ∃ parts : List Text, (∀ u ∈ parts, u ≠ []) ∧ parts.flatten = spread (lowerInk t) ∧
        canonical t = ['*'].intercalate parts := by
  have hclean := clean_of_ascii hascii hcomma
  have hchar : ∀ c ∈ canonical t, IsCleanAscii c ∧ c ≠ ',' := by
    intro c hc
    rcases mem_canonical hc with rfl | hc
    · exact ⟨⟨by decide, by decide, by decide⟩, by decide⟩
    · rw [hclean] at hc
      exact ⟨isCleanAscii_of_mem_lowerInk hascii hc, fun h => comma_not_mem_lowerInk hcomma (h ▸ hc)⟩
  have hcaret := caret_not_mem_canonical t
  refine ⟨fun c hc => ⟨(hchar c hc).1, fun h => hcaret (h ▸ hc)⟩, ?_, (separated_canonical t).runs_isChain.1, ?_⟩
  · have hagain : clean (canonical t) = canonical t := by
      rw [clean_of_ascii (fun c hc => (hchar c hc).1.ascii) fun h => (hchar ',' h).2 rfl]
      exact lowerInk_eq_self fun c hc => (hchar c hc).1
    show spread (writeFrom .other (pieces (clean (canonical t)))) = _
    rw [hagain, (separated_canonical t).writeFrom_pieces, spread_of_not_mem hcaret]
  · rw [← hclean]
    exact exists_parts t

end

/-- `canonical_canonical` at a product whose factors are written with blanks, capitals and a caret. -/
theorem canonical_canonical_product :
    (∀ c ∈ " 2 Pi X^2(x-1)sin x2".toList, c.toNat < 128) ∧ ',' ∉ " 2 Pi X^2(x-1)sin x2".toList ∧
      canonical " 2 Pi X^2(x-1)sin x2".toList = "2*pi*x**2*(x-1)*sinx2".toList ∧
      canonical "2*pi*x**2*(x-1)*sinx2".toList = "2*pi*x**2*(x-1)*sinx2".toList ∧
      (runs "2*pi*x**2*(x-1)*sinx2".toList).IsChain NotFactors := by
  have hascii : ∀ c ∈ " 2 Pi X^2(x-1)sin x2".toList, c.toNat < 128 := by simp
  have hcomma : ',' ∉ " 2 Pi X^2(x-1)sin x2".toList := by simp
  have hcanonical : canonical " 2 Pi X^2(x-1)sin x2".toList = "2*pi*x**2*(x-1)*sinx2".toList := by cbv
  obtain ⟨-, hagain, hruns, -⟩ := canonical_canonical hascii hcomma
  rw [hcanonical] at hagain hruns
  exact ⟨hascii, hcomma, hcanonical, hagain, hruns⟩

end SignChart
