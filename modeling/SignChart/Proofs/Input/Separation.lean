/-
  Canonical text leaves no two operands side by side.

  1. **Shape.**  `Separated k t` says of a text behind a piece of kind `k` that it goes on with whole words,
     symbols and parentheses, and that no operand begins right behind the end of another.

  2. **Lexing.**  The lexer cuts such a text where its words end, so that what is left behind a token has the
     shape again (`Separated.step`), and no two tokens of it are operands side by side (`Separated.apart`).

  3. **Writing.**  Writing pieces with stars between factors gives a text of this shape
     (`separated_canonical`).  It matters that nothing in it is blank: a blank would separate operands for the
     pieces and not for the lexer.
-/
import SignChart.Proofs.Expr.Lexing

namespace SignChart

/-! ## Operands side by side -/

/-- A name of this meaning stands for a value. -/
def Meaning.isValue : Meaning → Bool
  | .function _ => false
  | .input _ | .constant _ => true

/-- A token that completes an operand. -/
def Token.endsOperand (tok : Token) : Bool :=
  match tok.kind with
  | .number | .closeParen => true
  | .ident => (standardTable.lookup tok.source.text).any Meaning.isValue
  | _ => false

/-- A token that begins an operand which is not a signed one. -/
def Token.beginsOperand (tok : Token) : Bool :=
  match tok.kind with
  | .number | .ident | .openParen => true
  | _ => false

/-- No operand begins right behind another; `ended` says whether one ends in front of the tokens. -/
def Apart (ended : Bool) : List Token → Prop
  | [] => True
  | tok :: rest => ¬ (ended = true ∧ tok.beginsOperand = true) ∧ Apart tok.endsOperand rest

theorem Apart.mono {ended ended' : Bool} {toks : List Token} (h : Apart ended toks)
    (he : ended' = true → ended = true) : Apart ended' toks := by
  cases toks with
  | nil => trivial
  | cons tok rest => exact ⟨fun hb => h.1 ⟨he hb.1, hb.2⟩, h.2⟩

/-! ## The shape of canonical text -/

/-- An operand ends with a piece of this kind. -/
def PieceKind.ends : PieceKind → Bool
  | .number | .value | .closing => true
  | .function | .opening | .other => false

/-- A character that is a piece of its own, and no parenthesis. -/
def IsSymbol (c : Char) : Prop :=
  isNumeric c = false ∧ isLetter c = false ∧ isBlank c = false ∧ c ≠ '(' ∧ c ≠ ')'

/-- A text without operands side by side, behind a piece of kind `k`. -/
inductive Separated : PieceKind → Text → Prop where
  | nil (k : PieceKind) : Separated k []
  | symbol {k : PieceKind} {c : Char} {t : Text} (hc : IsSymbol c) (h : Separated .other t) :
      Separated k (c :: t)
  | opening {k : PieceKind} {t : Text} (hk : k.ends = false) (h : Separated .opening t) :
      Separated k ('(' :: t)
  | closing {k : PieceKind} {t : Text} (h : Separated .closing t) : Separated k (')' :: t)
  | number {k : PieceKind} {w t : Text} (hk : k.ends = false) (hne : w ≠ [])
      (hw : ∀ c ∈ w, isNumeric c) (h : Separated .number t) : Separated k (w ++ t)
  | value {k : PieceKind} {w t : Text} (hk : k.ends = false) (hw : w ∈ valueWords)
      (h : Separated .value t) : Separated k (w ++ t)
  | function {k : PieceKind} {w t : Text} (hk : k.ends = false) (hw : isName w)
      (hv : valueRun? (w.takeWhile isLetter) = none)
      (stop : ∀ c ∈ t.head?, isLetterOrDigit c = false) (h : Separated .function t) : Separated k (w ++ t)

theorem isName_of_mem_valueWords {w : Text} (h : w ∈ valueWords) : isName w := by
  have hall : ∀ w ∈ valueWords, isName w := by decide
  exact hall w h

theorem cons_of_isName {w : Text} (h : isName w) : ∃ c r, w = c :: r ∧ isLetter c = true := by
  cases w with
  | nil => exact absurd h (by decide)
  | cons c r =>
    rw [isName, Bool.and_eq_true] at h
    exact ⟨c, r, rfl, h.1⟩

theorem letters_of_mem_valueWords {w : Text} (h : w ∈ valueWords) : ∀ c ∈ w, isLetter c = true := by
  have hall : ∀ w ∈ valueWords, w.all isLetter = true := by decide
  exact List.all_eq_true.1 (hall w h)

theorem valueRun?_of_mem {w : Text} (h : w ∈ valueWords) : valueRun? w = some [w] := by
  simp only [valueWords, List.mem_cons, List.not_mem_nil, or_false] at h
  rcases h with rfl | rfl | rfl | rfl <;> cbv

/-- A name whose letters are no run of words for values is none of these words. -/
theorem not_mem_valueWords {w : Text} (h : valueRun? (w.takeWhile isLetter) = none) : w ∉ valueWords := by
  intro hvalue
  have hletters : w.takeWhile isLetter = w := List.takeWhile_eq_self_iff.2 (letters_of_mem_valueWords hvalue)
  rw [hletters, valueRun?_of_mem hvalue] at h
  exact absurd h (by simp)

/-- Behind the end of an operand no word goes on. -/
theorem Separated.stop {k : PieceKind} {t : Text} (h : Separated k t) (hk : k.ends = true) :
    ∀ c ∈ t.head?, isLetterOrDigit c = false ∧ isNumeric c = false := by
  intro c hc
  cases h with
  | nil => exact absurd hc (by simp)
  | symbol hs _ =>
    obtain rfl := Option.some.inj hc
    refine ⟨?_, hs.1⟩
    have hn := hs.1
    have hl := hs.2.1
    rw [Bool.eq_false_iff, Ne, isNumeric_iff] at hn
    rw [Bool.eq_false_iff, Ne, isLetterOrDigit_iff, hl]
    simp only [Bool.false_eq_true, false_or]
    omega
  | closing _ => obtain rfl := Option.some.inj hc; decide
  | opening hf _ | number hf _ _ _ | value hf _ _ | function hf _ _ _ _ =>
    rw [hk] at hf; exact absurd hf (by decide)

/-- A star, written or inserted, leaves a text of the same shape behind it. -/
theorem Separated.behind_star {k : PieceKind} {t : Text} (h : Separated k ('*' :: t)) :
    Separated .other t := by
  generalize hs : '*' :: t = s at h
  cases h with
  | nil => exact absurd hs (by simp)
  | symbol _ h => obtain ⟨_, rfl⟩ := List.cons.inj hs; exact h
  | opening _ h => exact absurd (List.cons.inj hs).1 (by decide)
  | closing h => exact absurd (List.cons.inj hs).1 (by decide)
  | number _ hne hw _ =>
    obtain ⟨c, r, rfl⟩ := List.exists_cons_of_ne_nil hne
    obtain rfl := (List.cons.inj hs).1
    exact absurd (hw '*' List.mem_cons_self) (by decide)
  | value _ hw _ =>
    obtain ⟨c, r, rfl, hc⟩ := cons_of_isName (isName_of_mem_valueWords hw)
    obtain rfl := (List.cons.inj hs).1
    exact absurd hc (by decide)
  | function _ hw _ _ _ =>
    obtain ⟨c, r, rfl, hc⟩ := cons_of_isName hw
    obtain rfl := (List.cons.inj hs).1
    exact absurd hc (by decide)

/-! ## Lexing -/

/-- A word or a parenthesis that nothing continues is the next token. -/
theorem next?_of_word {l m : Lexer} {tok : Token} {t : Terminal} {w r : Text} (hl : l.failed = false)
    (hnext : l.next? = (some (.ok tok), m)) (hrest : l.rest = w ++ r) (ht : t.Proper)
    (hw : w ∈ t.spellings) (ho : ∀ o, t.kind ≠ .op o) (hr : ∀ c ∈ r.head?, t.kind.continuedBy c = false) :
    tok.kind = t.kind ∧ tok.source.text = w ∧ m.rest = r := by
  obtain ⟨start, pos, h⟩ := next?_of_spelling hl (show l.rest = [] ++ w ++ r from hrest)
    (fun c hc => absurd hc List.not_mem_nil) ht hw (fun o h => absurd h (ho o)) hr
  rw [hnext] at h
  obtain ⟨htok, hm⟩ := Prod.mk.inj h
  obtain rfl := Except.ok.inj (Option.some.inj htok)
  subst hm
  exact ⟨rfl, rfl, rfl⟩

/-- What is spelled with a symbol at its front is a comma or an operator; only a star may follow there. -/
theorem Terminal.Proper.of_symbol {t : Terminal} {c : Char} {r : Text} (ht : t.Proper)
    (hw : c :: r ∈ t.spellings) (hc : IsSymbol c) :
    (t.kind = .comma ∨ ∃ o, t.kind = .op o) ∧ (r = [] ∨ r = ['*']) := by
  cases ht with
  | number _ hn =>
    obtain rfl := List.mem_singleton.1 hw
    exact absurd (hn c List.mem_cons_self) (by rw [hc.1]; decide)
  | name hname =>
    obtain rfl := List.mem_singleton.1 hw
    rw [isName, hc.2.1] at hname
    exact absurd hname (by simp)
  | opening => exact absurd (List.cons.inj (List.mem_singleton.1 hw)).1 hc.2.2.2.1
  | closing => exact absurd (List.cons.inj (List.mem_singleton.1 hw)).1 hc.2.2.2.2
  | comma => exact ⟨Or.inl rfl, Or.inl (List.cons.inj (List.mem_singleton.1 hw)).2⟩
  | op o =>
    have hall : ∀ o : Operator, ∀ w ∈ o.spellings, w.tail = [] ∨ w.tail = ['*'] := by
      intro o; cases o <;> decide
    exact ⟨Or.inr ⟨o, rfl⟩, hall o _ hw⟩

/-- A symbol is read as a token that is no operand; of two stars, both are read. -/
theorem next?_of_symbol {l m : Lexer} {tok : Token} {c : Char} {t : Text}
    (hnext : l.next? = (some (.ok tok), m)) (hrest : l.rest = c :: t) (hc : IsSymbol c) :
    tok.beginsOperand = false ∧ tok.endsOperand = false ∧ (m.rest = t ∨ t = '*' :: m.rest) := by
  obtain ⟨blanks, hb, htext, _, _, hproper, hspell, _⟩ := of_next? hnext
  rw [hrest] at htext
  obtain rfl : blanks = [] := by
    cases blanks with
    | nil => rfl
    | cons b blanks =>
      obtain ⟨rfl, _⟩ := List.cons.inj htext
      exact absurd (hb c List.mem_cons_self) (by rw [hc.2.2.1]; decide)
  obtain ⟨d, r, hword, _⟩ := hproper.head hspell
  rw [hword] at htext hspell
  obtain ⟨rfl, rfl⟩ := List.cons.inj htext
  obtain ⟨hkind, hr⟩ := hproper.of_symbol hspell hc
  rw [← kind_of_terminal rfl] at hkind
  refine ⟨?_, ?_, ?_⟩
  · rcases hkind with h | ⟨o, h⟩ <;> rw [Token.beginsOperand, h]
  · rcases hkind with h | ⟨o, h⟩ <;> rw [Token.endsOperand, h]
  · rcases hr with rfl | rfl
    · exact Or.inl rfl
    · exact Or.inr rfl

theorem mem_valueWords_of_lookup {w : Text} (h : (standardTable.lookup w).any Meaning.isValue = true) :
    w ∈ valueWords := by
  have hall : ∀ entry ∈ standardTable, entry.2.isValue = true → entry.1 ∈ valueWords := by decide
  cases hm : standardTable.lookup w with
  | none => rw [hm] at h; exact absurd h (by decide)
  | some m => rw [hm] at h; exact hall (w, m) (mem_of_lookup hm) h

/-- **Step.**  The token that comes next is not an operand right behind another, and what is left behind it
has the same shape. -/
theorem Separated.step {k : PieceKind} {l m : Lexer} {tok : Token} (h : Separated k l.rest)
    (hl : l.failed = false) (hnext : l.next? = (some (.ok tok), m)) :
    ¬ (k.ends = true ∧ tok.beginsOperand = true) ∧
      ∃ k', Separated k' m.rest ∧ (tok.endsOperand = true → k'.ends = true) := by
  generalize htext : l.rest = text at h
  cases h with
  | nil =>
    obtain ⟨blanks, _, hrest, _, _, hproper, hspell, _⟩ := of_next? hnext
    obtain ⟨c, r, hc, _⟩ := hproper.head hspell
    rw [htext, hc] at hrest
    exact absurd hrest (by simp)
  | @symbol _ c t hc h =>
    obtain ⟨hbegins, hends, hm⟩ := next?_of_symbol hnext htext hc
    refine ⟨fun hb => absurd hb.2 (by rw [hbegins]; decide), .other, ?_, fun he => ?_⟩
    · rcases hm with hm | hm
      · rw [hm]; exact h
      · rw [hm] at h; exact h.behind_star
    · rw [hends] at he; exact absurd he (by decide)
  | @closing _ t h =>
    obtain ⟨hkind, _, hm⟩ := next?_of_word hl hnext htext .closing (List.mem_singleton_self _)
      (fun o h => TokenKind.noConfusion h) (fun c hc => rfl)
    refine ⟨fun hb => absurd hb.2 ?_, .closing, hm ▸ h, fun _ => rfl⟩
    simp [Token.beginsOperand, hkind, Terminal.closing]
  | @opening _ t hk h =>
    obtain ⟨hkind, _, hm⟩ := next?_of_word hl hnext htext .opening (List.mem_singleton_self _)
      (fun o h => TokenKind.noConfusion h) (fun c hc => rfl)
    refine ⟨fun hb => absurd hb.1 (by rw [hk]; decide), .opening, hm ▸ h, fun he => absurd he ?_⟩
    simp [Token.endsOperand, hkind, Terminal.opening]
  | @number _ w t hk hne hw h =>
    obtain ⟨_, _, hm⟩ := next?_of_word hl hnext htext (.number hne hw) (List.mem_singleton_self _)
      (fun o h => TokenKind.noConfusion h) (fun c hc => (h.stop rfl c hc).2)
    exact ⟨fun hb => absurd hb.1 (by rw [hk]; decide), .number, hm ▸ h, fun _ => rfl⟩
  | @value _ w t hk hw h =>
    obtain ⟨_, _, hm⟩ := next?_of_word hl hnext htext (.name (isName_of_mem_valueWords hw))
      (List.mem_singleton_self _) (fun o h => TokenKind.noConfusion h) (fun c hc => (h.stop rfl c hc).1)
    exact ⟨fun hb => absurd hb.1 (by rw [hk]; decide), .value, hm ▸ h, fun _ => rfl⟩
  | @function _ w t hk hw hv stop h =>
    obtain ⟨hkind, hword, hm⟩ := next?_of_word hl hnext htext (.name hw) (List.mem_singleton_self _)
      (fun o h => TokenKind.noConfusion h) stop
    refine ⟨fun hb => absurd hb.1 (by rw [hk]; decide), .function, hm ▸ h, fun he => ?_⟩
    -- a name that ends an operand stands for a value, and such names are words of their own
    rw [Token.endsOperand, hkind, hword] at he
    exact absurd (mem_valueWords_of_lookup he) (not_mem_valueWords hv)

/-- **Run.**  No two tokens of such a text are operands side by side. -/
theorem Separated.apart (toks : List Token) : ∀ {k : PieceKind} {l : Lexer}, Separated k l.rest →
    l.failed = false → l.tokens = toks.map .ok → Apart k.ends toks := by
  induction toks with
  | nil => intro k l _ _ _; trivial
  | cons tok rest ih =>
    intro k l h hl htokens
    obtain ⟨m, hnext, hrest⟩ := of_tokens_eq_cons htokens
    obtain ⟨_, _, _, hm, _⟩ := of_next? hnext
    obtain ⟨hfirst, k', hk', hends⟩ := h.step hl hnext
    exact ⟨hfirst, (ih hk' hm hrest).mono hends⟩

/-! ## Writing -/

/-- A text with its powers written as two stars. -/
def spread (t : Text) : Text := t.flatMap fun c => if c = '^' then ['*', '*'] else [c]

theorem spread_append (s t : Text) : spread (s ++ t) = spread s ++ spread t := List.flatMap_append

theorem spread_of_not_mem {t : Text} (h : '^' ∉ t) : spread t = t := by
  induction t with
  | nil => rfl
  | cons c r ih =>
    rw [List.mem_cons, not_or] at h
    rw [spread, List.flatMap_cons, if_neg (Ne.symm h.1)]
    exact congrArg (c :: ·) (ih h.2)

theorem spread_ne_nil {t : Text} (h : t ≠ []) : spread t ≠ [] := by
  obtain ⟨c, r, rfl⟩ := List.exists_cons_of_ne_nil h
  rw [spread, List.flatMap_cons]
  split <;> exact List.cons_ne_nil _ _

/-- A piece without a power in it, behind a piece of kind `k`. -/
theorem spread_writeFrom (k : PieceKind) {p : Piece} (ps : List Piece) (h : '^' ∉ p.text) :
    spread (writeFrom k (p :: ps)) =
      (if k.multiplies p.kind then ['*'] else []) ++ (p.text ++ spread (writeFrom p.kind ps)) := by
  rw [writeFrom, spread_append, spread_append, spread_of_not_mem h, List.append_assoc]
  split <;> rfl

theorem isSymbol_star : IsSymbol '*' := ⟨by decide, by decide, by decide, by decide, by decide⟩

/-- Behind the end of an operand the piece that begins another comes with a star. -/
theorem Separated.star {k kind : PieceKind} {t : Text} (hk : k.multiplies kind = true ∨ k.ends = false)
    (h : ∀ k' : PieceKind, k'.ends = false → Separated k' t) :
    Separated k ((if k.multiplies kind then ['*'] else []) ++ t) := by
  by_cases hm : k.multiplies kind = true
  · rw [if_pos hm]
    exact .symbol isSymbol_star (h .other rfl)
  · rw [if_neg hm]
    exact h k (hk.resolve_left hm)

theorem not_power_of_isName {w : Text} (h : isName w) : '^' ∉ w := by
  intro hm
  obtain ⟨c, r, rfl, hc⟩ := cons_of_isName h
  rw [isName, Bool.and_eq_true, List.all_eq_true] at h
  rcases List.mem_cons.1 hm with rfl | hm
  · exact absurd hc (by decide)
  · exact absurd (h.2 '^' hm) (by decide)

/-- Words for values, each a factor. -/
theorem separated_words {ps : List Piece} (h : Separated .value (spread (writeFrom .value ps))) :
    ∀ (words : List Text) (k : PieceKind), (∀ w ∈ words, w ∈ valueWords) → words ≠ [] →
      Separated k (spread (writeFrom k (words.map (⟨.value, ·⟩) ++ ps))) := by
  intro words
  induction words with
  | nil => intro k _ hne; exact absurd rfl hne
  | cons w rest ih =>
    intro k hw _
    have hmem := hw w List.mem_cons_self
    have hkind : k.multiplies .value = true ∨ k.ends = false := by cases k <;> decide
    rw [List.map_cons, List.cons_append,
      spread_writeFrom k _ (not_power_of_isName (isName_of_mem_valueWords hmem))]
    refine Separated.star hkind fun k' hk' => .value hk' hmem ?_
    cases rest with
    | nil => exact h
    | cons w' rest => exact ih .value (fun v hv => hw v (List.mem_cons_of_mem _ hv)) (by simp)

theorem valueRun?_words {letters : Text} : ∀ {words : List Text}, valueRun? letters = some words →
    (∀ w ∈ words, w ∈ valueWords) ∧ (letters ≠ [] → words ≠ []) := by
  fun_induction valueRun? letters with
  | case1 => intro words h; obtain rfl := Option.some.inj h; exact ⟨by simp, fun h => absurd rfl h⟩
  | case2 letters hne word hword ih =>
    intro words h
    obtain ⟨rest, hrest, rfl⟩ := Option.map_eq_some_iff.1 h
    refine ⟨fun w hw => ?_, fun _ => by simp⟩
    rcases List.mem_cons.1 hw with rfl | hw
    · exact List.mem_of_find?_eq_some hword
    · exact (ih hrest).1 w hw
  | case3 => intro words h; exact absurd h (by simp)

theorem not_isLetter_of_not_isLetterOrDigit {c : Char} (h : isLetterOrDigit c = false) :
    isLetter c = false := by
  rw [Bool.eq_false_iff] at h ⊢
  exact fun hl => h (isLetterOrDigit_iff.2 (Or.inl hl))

theorem head?_dropWhile {α : Type} (p : α → Bool) (l : List α) {x : α}
    (h : x ∈ (l.dropWhile p).head?) : p x = false := by
  have hnot := List.head?_dropWhile_not p l
  rw [Option.mem_def.1 h] at hnot
  exact hnot

theorem head?_spread_writeFrom {k : PieceKind} {p : Piece} {ps : List Piece} {c d : Char} {w : Text}
    (hp : p.text = c :: w) (h : d ∈ (spread (writeFrom k (p :: ps))).head?) : d = '*' ∨ d = c := by
  have hcons : ∀ (c : Char) (t : Text), d ∈ (spread (c :: t)).head? → d = '*' ∨ d = c := by
    intro c t hd
    rw [spread, List.flatMap_cons] at hd
    by_cases hc : c = '^'
    · rw [if_pos hc] at hd
      exact Or.inl (Option.some.inj hd).symm
    · rw [if_neg hc] at hd
      exact Or.inr (Option.some.inj hd).symm
  rw [writeFrom, hp] at h
  by_cases hm : k.multiplies p.kind = true
  · rw [if_pos hm] at h
    exact Or.inl ((hcons '*' _ h).elim id id)
  · rw [if_neg hm] at h
    exact hcons c _ h

/-- A text that does not begin with a letter or a digit is not written with one at its front either. -/
theorem head?_spread {k : PieceKind} {t : Text} {d : Char}
    (ht : ∀ c ∈ t.head?, isLetterOrDigit c = false) :
    d ∈ (spread (writeFrom k (pieces t))).head? → isLetterOrDigit d = false := by
  have hstar : isLetterOrDigit '*' = false := by decide
  revert ht
  fun_cases pieces t with
  | case1 => intro _ h; exact absurd h (by simp [writeFrom, spread])
  | case2 c r hn =>
    intro ht h
    have htake : (c :: r).takeWhile isNumeric = c :: r.takeWhile isNumeric := List.takeWhile_cons_of_pos hn
    rcases head?_spread_writeFrom htake h with rfl | rfl
    · exact hstar
    · exact ht d rfl
  | case3 c r hn hl | case4 c r hn hl =>
    intro ht h
    exact absurd (isLetterOrDigit_iff.2 (Or.inl hl)) (by rw [ht c rfl]; decide)
  | case5 c r hn hl kind =>
    intro ht h
    rcases head?_spread_writeFrom rfl h with rfl | rfl
    · exact hstar
    · exact ht d rfl

/-- A number is a factor behind any piece but a number. -/
theorem separated_number {k : PieceKind} {w : Text} {ps : List Piece} (hk : k ≠ .number) (hne : w ≠ [])
    (hw : ∀ c ∈ w, isNumeric c = true) (h : Separated .number (spread (writeFrom .number ps))) :
    Separated k (spread (writeFrom k (⟨.number, w⟩ :: ps))) := by
  have hpower : '^' ∉ w := fun hm => absurd (hw '^' hm) (by decide)
  have hkind : k.multiplies .number = true ∨ k.ends = false := by
    cases k with
    | number => exact absurd rfl hk
    | value | function | opening | closing | other => decide
  rw [spread_writeFrom k _ hpower]
  exact Separated.star hkind fun k' hk' => .number hk' hne hw h

/-- So is the name of a function, if it ends where its letters and digits end. -/
theorem separated_function (k : PieceKind) {w : Text} {ps : List Piece} (hname : isName w)
    (hvalue : valueRun? (w.takeWhile isLetter) = none)
    (hstop : ∀ d ∈ (spread (writeFrom .function ps)).head?, isLetterOrDigit d = false)
    (h : Separated .function (spread (writeFrom .function ps))) :
    Separated k (spread (writeFrom k (⟨.function, w⟩ :: ps))) := by
  have hkind : k.multiplies .function = true ∨ k.ends = false := by cases k <;> decide
  rw [spread_writeFrom k _ (not_power_of_isName hname)]
  exact Separated.star hkind fun k' hk' => .function hk' hname hvalue hstop h

theorem separated_opening (k : PieceKind) {ps : List Piece}
    (h : Separated .opening (spread (writeFrom .opening ps))) :
    Separated k (spread (writeFrom k (⟨.opening, ['(']⟩ :: ps))) := by
  have hkind : k.multiplies .opening = true ∨ k.ends = false := by cases k <;> decide
  rw [spread_writeFrom k _ (show '^' ∉ ['('] by decide)]
  exact Separated.star hkind fun k' hk' => .opening hk' h

theorem separated_closing (k : PieceKind) {ps : List Piece}
    (h : Separated .closing (spread (writeFrom .closing ps))) :
    Separated k (spread (writeFrom k (⟨.closing, [')']⟩ :: ps))) := by
  have hkind : k.multiplies .closing = false := by cases k <;> rfl
  rw [spread_writeFrom k _ (show '^' ∉ [')'] by decide), hkind]
  exact .closing h

/-- Symbols are written as they are, a power as two stars. -/
theorem separated_symbol (k : PieceKind) {c : Char} {ps : List Piece} (hc : IsSymbol c)
    (h : Separated .other (spread (writeFrom .other ps))) :
    Separated k (spread (writeFrom k (⟨.other, [c]⟩ :: ps))) := by
  have hkind : k.multiplies .other = false := by cases k <;> rfl
  by_cases hpower : c = '^'
  · subst hpower
    rw [writeFrom, hkind]
    exact .symbol isSymbol_star (.symbol isSymbol_star h)
  · rw [spread_writeFrom k _ (by simpa using Ne.symm hpower), hkind]
    exact .symbol hc h

/-- A letter begins a name, to which the letters and digits behind it belong. -/
theorem isName_run {c : Char} (hl : isLetter c = true) (r : Text) : isName ((c :: r).takeWhile isLetterOrDigit) := by
  rw [List.takeWhile_cons_of_pos (isLetterOrDigit_iff.2 (Or.inl hl)), isName, hl]
  exact List.all_takeWhile

/-- The letters that such a run begins with are those that the text begins with. -/
theorem takeWhile_isLetter_run (t : Text) : (t.takeWhile isLetterOrDigit).takeWhile isLetter = t.takeWhile isLetter := by
  have hboth : ∀ d, (isLetter d = true ∧ isLetterOrDigit d = true) = (isLetter d = true) := fun d =>
    propext (and_iff_left_of_imp fun hd => isLetterOrDigit_iff.2 (Or.inl hd))
  rw [List.takeWhile_takeWhile]
  simp only [hboth, Bool.decide_eq_true]

/-- Pieces written with stars between factors have no operands side by side. -/
theorem separated_pieces (t : Text) : (∀ c ∈ t, isBlank c = false) → ∀ k : PieceKind,
    (k = .number → ∀ c ∈ t.head?, isNumeric c = false) →
    (k = .function → ∀ c ∈ t.head?, isLetterOrDigit c = false) →
      Separated k (spread (writeFrom k (pieces t))) := by
  fun_induction pieces t with
  | case1 => intro _ k _ _; exact .nil k
  | case2 c r hn ih =>
    intro hb k hnum _
    have hk : k ≠ .number := fun hk => absurd hn (by rw [hnum hk c rfl]; decide)
    have hne : (c :: r).takeWhile isNumeric ≠ [] := by rw [List.takeWhile_cons_of_pos hn]; simp
    refine separated_number hk hne (List.all_eq_true.1 List.all_takeWhile) ?_
    exact ih (fun d hd => hb d ((List.dropWhile_sublist _).subset hd)) .number
      (fun _ d hd => head?_dropWhile _ _ hd) (fun h => PieceKind.noConfusion h)
  | case3 c r hn hl words hwords ih =>
    intro hb k _ _
    -- a run of letters made of words, each of them a factor
    obtain ⟨hmem, hne⟩ := valueRun?_words hwords
    refine separated_words ?_ words k hmem (hne (by rw [List.takeWhile_cons_of_pos hl]; simp))
    exact ih (fun d hd => hb d ((List.dropWhile_sublist _).subset hd)) .value
      (fun h => PieceKind.noConfusion h) (fun h => PieceKind.noConfusion h)
  | case4 c r hn hl hnone ih =>
    intro hb k _ _
    have hstop : ∀ d ∈ ((c :: r).dropWhile isLetterOrDigit).head?, isLetterOrDigit d = false :=
      fun d hd => head?_dropWhile _ _ hd
    have hvalue : valueRun? (((c :: r).takeWhile isLetterOrDigit).takeWhile isLetter) = none := by
      rwa [takeWhile_isLetter_run]
    refine separated_function k (isName_run hl r) hvalue (fun d hd => head?_spread hstop hd) ?_
    exact ih (fun d hd => hb d ((List.dropWhile_sublist _).subset hd)) .function
      (fun h => PieceKind.noConfusion h) (fun _ => hstop)
  | case5 c r hn hl kind ih =>
    intro hb k _ _
    have ih : ∀ k : PieceKind, k ≠ .number → k ≠ .function → Separated k (spread (writeFrom k (pieces r))) :=
      fun k hk hk' => ih (fun d hd => hb d (List.mem_cons_of_mem _ hd)) k
        (fun h => absurd h hk) (fun h => absurd h hk')
    show Separated k (spread (writeFrom k
      (⟨if c = '(' then .opening else if c = ')' then .closing else .other, [c]⟩ :: pieces r)))
    by_cases hopen : c = '('
    · rw [if_pos hopen, hopen]
      exact separated_opening k (ih .opening (by decide) (by decide))
    by_cases hclose : c = ')'
    · rw [if_neg hopen, if_pos hclose, hclose]
      exact separated_closing k (ih .closing (by decide) (by decide))
    · rw [if_neg hopen, if_neg hclose]
      have hsymbol : IsSymbol c :=
        ⟨Bool.eq_false_iff.2 hn, Bool.eq_false_iff.2 hl, hb c List.mem_cons_self, hopen, hclose⟩
      exact separated_symbol k hsymbol (ih .other (by decide) (by decide))

/-! ### Blanks -/

/-- The numbers of blanks, as ranges. -/
def blankRanges : List (Int × Int) :=
  [(9, 13), (0x20, 0x20), (0x85, 0x85), (0xA0, 0xA0), (0x1680, 0x1680), (0x2000, 0x200A),
    (0x2028, 0x2029), (0x202F, 0x202F), (0x205F, 0x205F), (0x3000, 0x3000)]

theorem isBlank_iff {c : Char} :
    isBlank c = true ↔ ∃ g ∈ blankRanges, g.1 ≤ (c.toNat : Int) ∧ (c.toNat : Int) ≤ g.2 := by
  simp [isBlank, blankRanges]
  omega

theorem not_isBlank_of_isLetter {c : Char} (h : isLetter c = true) : isBlank c = false := by
  rw [Bool.eq_false_iff]
  intro hb
  have hstop := not_continuedBy_of_isBlank .ident hb
  rw [TokenKind.continuedBy, isLetterOrDigit_iff.2 (Or.inl h)] at hstop
  exact absurd hstop (by decide)

theorem toNat_ofNat (n : Nat) : (Char.ofNat n).toNat = n ∨ (Char.ofNat n).toNat = 0 := by
  unfold Char.ofNat
  split
  · exact Or.inl rfl
  · exact Or.inr rfl

/-- No lower-case form is a blank. -/
theorem caseRanges_avoid_blanks : ∀ r ∈ caseRanges, ∀ g ∈ blankRanges,
    (r.last : Int) + r.shift < g.1 ∨ g.2 < (r.first : Int) + r.shift := by
  decide +kernel

/-- Writing a character in lower case does not make it a blank. -/
theorem not_isBlank_of_mem_lowerCase {c d : Char} (hc : isBlank c = false) (hd : d ∈ lowerCase c) :
    isBlank d = false := by
  unfold lowerCase at hd
  split at hd
  · obtain rfl := List.mem_singleton.1 hd
    unfold Char.toLower
    split
    · next h =>
      have hshift : (c.val + ('a'.val - 'A'.val)).toNat = c.toNat + 32 := by
        have hc : c.val.toNat ≤ 90 := UInt32.le_iff_toNat_le.1 h.2
        rw [UInt32.toNat_add]
        show (c.val.toNat + 32) % 2 ^ 32 = c.val.toNat + 32
        omega
      have hlow : 65 ≤ c.toNat := UInt32.le_iff_toNat_le.1 h.1
      have hhigh : c.toNat ≤ 90 := UInt32.le_iff_toNat_le.1 h.2
      refine not_isBlank_of_isLetter (isLetter_iff.2 (Or.inr ?_))
      show 97 ≤ (c.val + ('a'.val - 'A'.val)).toNat ∧ (c.val + ('a'.val - 'A'.val)).toNat ≤ 122
      omega
    · exact hc
  split at hd
  · simp only [List.mem_cons, List.not_mem_nil, or_false] at hd
    rcases hd with rfl | rfl <;> rfl
  split at hd
  · next r hr =>
    obtain rfl := List.mem_singleton.1 hd
    have hcovers : r.covers c.toNat = true :=
      List.find?_some (p := fun r : CaseRange => r.covers c.toNat) hr
    rw [Bool.eq_false_iff, Ne, isBlank_iff]
    rintro ⟨g, hg, hlow, hhigh⟩
    have havoid := caseRanges_avoid_blanks r (List.mem_of_find?_eq_some hr) g hg
    simp only [CaseRange.covers, Bool.and_eq_true, decide_eq_true_eq] at hcovers
    have hpos : ∀ g ∈ blankRanges, 0 < g.1 := by decide
    have := hpos g hg
    rcases toNat_ofNat (c.toNat + r.shift).toNat with h | h <;> rw [h] at hlow hhigh <;> omega
  · obtain rfl := List.mem_singleton.1 hd
    exact hc

theorem not_isBlank_of_mem_cleanFrom {t : Text} {d : Char} :
    ∀ {prev : Option Char}, d ∈ cleanFrom prev t → isBlank d = false := by
  induction t with
  | nil => intro prev h; exact absurd h List.not_mem_nil
  | cons c r ih =>
    intro prev h
    rw [cleanFrom] at h
    split at h
    · rcases List.mem_cons.1 h with rfl | h
      · decide
      · exact ih h
    split at h
    · exact ih h
    · next hc =>
      rcases List.mem_append.1 h with h | h
      · exact not_isBlank_of_mem_lowerCase (Bool.eq_false_iff.2 hc) h
      · exact ih h

/-- Canonical text has no operands side by side. -/
theorem separated_canonical (t : Text) : Separated .other (canonical t) :=
  separated_pieces (clean t) (fun _ h => not_isBlank_of_mem_cleanFrom h) .other
    (fun h => PieceKind.noConfusion h) (fun h => PieceKind.noConfusion h)

/-- Canonical text writes powers with stars. -/
theorem caret_not_mem_canonical (t : Text) : '^' ∉ canonical t := by
  intro h
  obtain ⟨c, _, hc⟩ := List.mem_flatMap.1 h
  split at hc
  · exact absurd hc (by decide)
  · next hne => exact hne (List.mem_singleton.1 hc).symm

end SignChart
