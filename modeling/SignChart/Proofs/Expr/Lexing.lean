/-
  Lexing what a tree derives.

  1. **Regular rows.**  A sign is told from a binary operator by the token before it, and two words in a row
     would run together.  Neither goes wrong in a row of terminals where operands stand exactly where they
     are due (`Regular`), and the terminals of every tree are such a row (`Tree.phrase`).

  2. **Step.**  At a spelling of a terminal that may follow, and that what comes next does not continue, the
     lexer gives that token and stops behind it (`next?_of_spelling`).

  3. **Run.**  So lexing a text that spells a regular row, with blanks anywhere between, gives the row back
     (`tokens_of_spaced`).  Conversely a text that lexes without error consists of the texts of its tokens and
     blanks (`spaced_of_tokens`).
-/
import SignChart.Proofs.Expr.Grammar

namespace SignChart

/-! ## Regular rows of terminals -/

/-- A token of this kind begins an operand. -/
def TokenKind.startsOperand : TokenKind → Bool
  | .ident | .number | .openParen | .op .neg | .op .pos => true
  | _ => false

/-- A token of kind `k` may stand behind one of kind `prev`: it begins an operand exactly where one is due, or
it opens the arguments of a function. -/
def Follows (prev : Option TokenKind) (k : TokenKind) : Prop :=
  k.startsOperand = expectsOperand prev ∨ prev = some .ident ∧ k = .openParen

/-- A name: a letter, then letters and digits. -/
def isName : Text → Bool
  | [] => false
  | c :: r => isLetter c && r.all isLetterOrDigit

/-- A terminal that the lexer knows. -/
inductive Terminal.Proper : Terminal → Prop where
  | number {t : Text} (hne : t ≠ []) (hn : ∀ c ∈ t, isNumeric c) : Proper (.number t)
  | name {t : Text} (ht : isName t) : Proper (.name t)
  | op (o : Operator) : Proper (.op o)
  | comma : Proper .comma
  | opening : Proper .opening
  | closing : Proper .closing

/-- A row of proper terminals behind a token of kind `prev`, each of which may stand where it does. -/
def Regular (prev : Option TokenKind) : List Terminal → Prop
  | [] => True
  | t :: ts => t.Proper ∧ Follows prev t.kind ∧ Regular (some t.kind) ts

/-- The kind of the last token when terminals follow one of kind `prev`. -/
def kindAfter (prev : Option TokenKind) (ts : List Terminal) : Option TokenKind :=
  ts.foldl (fun _ t => some t.kind) prev

/-- A row is regular behind a token if its first part is, and its second behind the last token of the first. -/
theorem regular_append {prev : Option TokenKind} {ss ts : List Terminal} :
    Regular prev (ss ++ ts) ↔ Regular prev ss ∧ Regular (kindAfter prev ss) ts := by
  induction ss generalizing prev with
  | nil => exact ⟨fun h => ⟨trivial, h⟩, And.right⟩
  | cons s rest ih =>
    show s.Proper ∧ Follows prev s.kind ∧ Regular (some s.kind) (rest ++ ts) ↔
      (s.Proper ∧ Follows prev s.kind ∧ Regular (some s.kind) rest) ∧ Regular (kindAfter (some s.kind) rest) ts
    rw [ih, and_assoc, and_assoc]

theorem kindAfter_append (prev : Option TokenKind) (ss ts : List Terminal) :
    kindAfter prev (ss ++ ts) = kindAfter (kindAfter prev ss) ts :=
  List.foldl_append

/-- A row that reads as an operand: regular where one is due, and complete at its end. -/
def Phrase (ts : List Terminal) : Prop :=
  ∀ prev, expectsOperand prev = true →
    Regular prev ts ∧ expectsOperand (kindAfter prev ts) = false

namespace Phrase
variable {ss ts : List Terminal} {t : Terminal}

/-- A number or a value is an operand by itself. -/
theorem single (ht : t.Proper) (hk : t.kind = .number ∨ t.kind = .ident) : Phrase [t] := by
  intro prev h
  refine ⟨⟨ht, Or.inl ?_, trivial⟩, ?_⟩
  · rw [h]; rcases hk with hk | hk <;> rw [hk] <;> rfl
  · show expectsOperand (some t.kind) = false
    rcases hk with hk | hk <;> rw [hk] <;> rfl

/-- Two operands with a binary operator between them, or a comma, read as one. -/
theorem binary (hs : Phrase ss) (ht : t.Proper) (hk : t.kind.startsOperand = false)
    (hd : expectsOperand (some t.kind) = true) (hts : Phrase ts) : Phrase (ss ++ t :: ts) := by
  intro prev h
  obtain ⟨hss, hend⟩ := hs prev h
  obtain ⟨hreg, hend'⟩ := hts _ hd
  rw [regular_append, kindAfter_append]
  exact ⟨⟨hss, ht, Or.inl (by rw [hk, hend]), hreg⟩, hend'⟩

/-- An operand may have a sign in front of it. -/
theorem sign (ht : t.Proper) (hk : t.kind.startsOperand = true)
    (hd : expectsOperand (some t.kind) = true) (hts : Phrase ts) : Phrase (t :: ts) := by
  intro prev h
  obtain ⟨hreg, hend⟩ := hts _ hd
  exact ⟨⟨ht, Or.inl (by rw [hk, h]), hreg⟩, hend⟩

/-- Inside parentheses an operand is due and is there. -/
theorem enclosed (hts : Phrase ts) :
    Regular (some .openParen) (ts ++ [.closing]) ∧
      kindAfter (some .openParen) (ts ++ [.closing]) = some .closeParen := by
  obtain ⟨hreg, hend⟩ := hts (some .openParen) rfl
  rw [regular_append, kindAfter_append]
  exact ⟨⟨hreg, .closing, Or.inl (by rw [hend]; rfl), trivial⟩, rfl⟩

/-- A group is an operand. -/
theorem group (hts : Phrase ts) : Phrase (.opening :: (ts ++ [.closing])) := by
  intro prev h
  obtain ⟨hreg, hend⟩ := hts.enclosed
  refine ⟨⟨.opening, Or.inl (by rw [h]; rfl), hreg⟩, ?_⟩
  show expectsOperand (kindAfter (some .openParen) (ts ++ [.closing])) = false
  rw [hend]; rfl

/-- A call is an operand; its parenthesis is the one that may stand behind a name. -/
theorem call {g : Text} (hg : isName g) (hts : Phrase ts) :
    Phrase (.name g :: .opening :: (ts ++ [.closing])) := by
  intro prev h
  obtain ⟨hreg, hend⟩ := hts.enclosed
  refine ⟨⟨.name hg, Or.inl (by rw [h]; rfl), .opening, Or.inr ⟨rfl, rfl⟩, hreg⟩, ?_⟩
  show expectsOperand (kindAfter (some .openParen) (ts ++ [.closing])) = false
  rw [hend]; rfl

end Phrase

/-- What is looked up is an entry of the table. -/
theorem mem_of_lookup {table : Table} {t : Text} {m : Meaning} (h : table.lookup t = some m) :
    (t, m) ∈ table := by
  obtain ⟨before, behind, rfl, _⟩ := List.lookup_eq_some_iff.1 h
  exact List.mem_append_right _ List.mem_cons_self

/-- The names of the table are names. -/
theorem isName_of_lookup {t : Text} {m : Meaning} (h : standardTable.lookup t = some m) : isName t := by
  have hall : ∀ name ∈ standardTable.map Prod.fst, isName name := by decide
  exact hall t (List.mem_map_of_mem (mem_of_lookup h))

/-- The empty text is no number. -/
theorem ne_nil_of_readFloat {t : Text} {x : Float} (h : readFloat t = .ok x) : t ≠ [] := by
  rintro rfl
  simp [readFloat] at h

/-- **The terminals of a tree** read as an operand. -/
theorem Tree.phrase {c : Category} (e : Tree c) : Phrase e.terminals := by
  induction e with
  | term a ih | factor a ih | power a ih | atom a ih | last a ih => exact ih
  | sum o ho a b iha ihb =>
    rcases ho with rfl | rfl <;> exact iha.binary (.op _) rfl rfl ihb
  | product o ho a b iha ihb =>
    rcases ho with rfl | rfl <;> exact iha.binary (.op _) rfl rfl ihb
  | raise a b iha ihb => exact iha.binary (.op _) rfl rfl ihb
  | more a as iha ihas => exact iha.binary .comma rfl rfl ihas
  | sign o ho a ih => rcases ho with rfl | rfl <;> exact Phrase.sign (.op _) rfl rfl ih
  | number t value hn hv => exact Phrase.single (.number (ne_nil_of_readFloat hv) hn) (Or.inl rfl)
  | input t _ ht | constant t _ ht => exact Phrase.single (.name (isName_of_lookup ht)) (Or.inr rfl)
  | call g f hg as ih => exact ih.call (isName_of_lookup hg)
  | group a ih => exact ih.group

/-! ## Characters by their numbers -/

/-- The numbers of the letters. -/
theorem isLetter_iff {c : Char} :
    isLetter c = true ↔ 65 ≤ c.toNat ∧ c.toNat ≤ 90 ∨ 97 ≤ c.toNat ∧ c.toNat ≤ 122 := by
  simp only [isLetter, Char.isAlpha, Char.isUpper, Char.isLower, Bool.or_eq_true, Bool.and_eq_true,
    decide_eq_true_eq, ge_iff_le, UInt32.le_iff_toNat_le, Char.toNat_val]
  exact Iff.rfl

theorem isLetterOrDigit_iff {c : Char} :
    isLetterOrDigit c = true ↔ isLetter c = true ∨ 48 ≤ c.toNat ∧ c.toNat ≤ 57 := by
  rw [isLetterOrDigit, Char.isAlphanum, Bool.or_eq_true, Char.isDigit_iff_toNat]
  exact Iff.rfl

/-- The numbers of the digits and the point. -/
theorem isNumeric_iff {c : Char} :
    isNumeric c = true ↔ 48 ≤ c.toNat ∧ c.toNat ≤ 57 ∨ c.toNat = 46 := by
  rw [isNumeric, Bool.or_eq_true, Char.isDigit_iff_toNat, decide_eq_true_eq, ← Char.toNat_inj]
  exact Iff.rfl

theorem not_isLetter_of_isNumeric {c : Char} (h : isNumeric c = true) : isLetter c = false := by
  rw [isNumeric_iff] at h
  rw [Bool.eq_false_iff, Ne, isLetter_iff]
  omega

theorem not_isNumeric_of_isLetter {c : Char} (h : isLetter c = true) : ¬ isNumeric c = true := fun hn =>
  absurd ((not_isLetter_of_isNumeric hn).symm.trans h) Bool.false_ne_true

/-- A character that a token of this kind would take in if it came right behind it. -/
def TokenKind.continuedBy : TokenKind → Char → Bool
  | .number, c => isNumeric c
  | .ident, c => isLetterOrDigit c
  | .op .mul, c => c = '*'
  | _, _ => false

/-- A blank ends every token. -/
theorem not_continuedBy_of_isBlank (k : TokenKind) {c : Char} (h : isBlank c = true) :
    k.continuedBy c = false := by
  have hc : isNumeric c = false ∧ isLetterOrDigit c = false ∧ c ≠ '*' := by
    rw [Bool.eq_false_iff, Bool.eq_false_iff, Ne, Ne, isNumeric_iff, isLetterOrDigit_iff, isLetter_iff, Ne,
      ← Char.toNat_inj]
    simp only [isBlank, Bool.or_eq_true, Bool.and_eq_true, decide_eq_true_eq, beq_iff_eq] at h
    have hstar : '*'.toNat = 42 := rfl
    omega
  cases k with
  | number => exact hc.1
  | ident => exact hc.2.1
  | op o => cases o <;> first | rfl | exact decide_eq_false hc.2.2
  | comma | openParen | closeParen | foreign f => rfl

/-! ## One token -/

/-- A digit, a point or a letter begins no symbol. -/
theorem symbolAt_eq_none {prev : Option TokenKind} {c : Char} (r : Text)
    (h : isNumeric c = true ∨ isLetter c = true) : Lexer.symbolAt prev (c :: r) = none := by
  unfold Lexer.symbolAt
  split
  all_goals first
    | rfl
    | next heq => obtain ⟨rfl, _⟩ := List.cons.inj heq; exact absurd h (by decide)

/-- A run of characters ends where the next one is not of its kind. -/
theorem takeWhile_append_of_stop {α : Type} {p : α → Bool} {w r : List α} (hw : ∀ c ∈ w, p c = true)
    (hr : ∀ c ∈ r.head?, p c = false) : (w ++ r).takeWhile p = w ∧ (w ++ r).dropWhile p = r := by
  rw [List.takeWhile_append_of_pos hw, List.dropWhile_append_of_pos hw]
  cases r with
  | nil => simp
  | cons c r =>
    have hc : ¬ p c = true := by rw [hr c rfl]; decide
    rw [List.takeWhile_cons_of_neg hc, List.dropWhile_cons_of_neg hc, List.append_nil]
    exact ⟨rfl, rfl⟩

/-- A run of characters is read up to where it stops. -/
theorem run?_of_stop {l : Lexer} {kind : TokenKind} {first more : Char → Bool} {c : Char} {w r : Text}
    (hl : l.rest = c :: w ++ r) (hc : first c = true) (hw : ∀ d ∈ w, more d = true)
    (hr : ∀ d ∈ r.head?, more d = false) :
    l.run? kind first more = some (⟨kind, l.pos, c :: w⟩, l.drop (c :: w).length) := by
  have hlength : Lexer.runLength first more l.rest = w.length + 1 := by
    rw [hl, List.cons_append, Lexer.runLength, if_pos hc, (takeWhile_append_of_stop hw hr).1]
  unfold Lexer.run?
  rw [hlength]
  simp only [Lexer.take, hl, List.length_cons, List.cons_append, List.take_succ_cons, List.take_left]

/-- A plus or minus between operands is an operator, elsewhere a sign. -/
def SignsDue (prev : Option TokenKind) (k : TokenKind) : Prop :=
  ∀ o, k = .op o → (o.isSign = true → expectsOperand prev = true) ∧
    (o = .add ∨ o = .sub → expectsOperand prev = false)

theorem Follows.signsDue {prev : Option TokenKind} {k : TokenKind} (h : Follows prev k) : SignsDue prev k := by
  rintro o rfl
  rcases h with h | ⟨_, h⟩
  · cases o <;> simp [← h, TokenKind.startsOperand, Operator.isSign]
  · exact absurd h (by simp)

/-- A symbol is read as the operator that may stand here. -/
theorem symbolAt_of_op {prev : Option TokenKind} {o : Operator} {w r : Text} (hw : w ∈ o.spellings)
    (hs : SignsDue prev (.op o)) (hr : ∀ c ∈ r.head?, TokenKind.continuedBy (.op o) c = false) :
    Lexer.symbolAt prev (w ++ r) = some (.op o, w.length) := by
  obtain ⟨hsign, hbinary⟩ := hs o rfl
  cases o with
  | neg | pos =>
    obtain rfl := List.mem_singleton.1 hw
    simp [Lexer.symbolAt, hsign rfl]
  | add | sub =>
    obtain rfl := List.mem_singleton.1 hw
    simp [Lexer.symbolAt, hbinary (by decide)]
  | mul =>
    obtain rfl := List.mem_singleton.1 hw
    match r, hr with
    | [], _ => rfl
    | c :: r, hr =>
      have hc : c ≠ '*' := of_decide_eq_false (hr c rfl)
      simp [Lexer.symbolAt, hc]
  | div =>
    obtain rfl := List.mem_singleton.1 hw
    rfl
  | pow =>
    rcases List.mem_cons.1 hw with rfl | hw
    · rfl
    · obtain rfl := List.mem_singleton.1 hw
      rfl

/-- The token of a symbol is given, and the lexer stands behind it. -/
theorem symbol?_eq {l : Lexer} {k : TokenKind} {w r : Text} (hl : l.rest = w ++ r)
    (h : Lexer.symbolAt l.prev (w ++ r) = some (k, w.length)) :
    l.token? = some (⟨k, l.pos, w⟩, l.drop w.length) := by
  have hsymbol : l.symbol? = some (⟨k, l.pos, w⟩, l.drop w.length) := by
    rw [Lexer.symbol?, hl, h]
    simp only [Option.map_some, Lexer.take, hl, List.take_left]
  rw [Lexer.token?, hsymbol]

/-- At a spelling of a terminal that may stand here, the lexer reads that token. -/
theorem token?_of_spelling {l : Lexer} {t : Terminal} {w r : Text} (ht : t.Proper)
    (hw : w ∈ t.spellings) (hs : SignsDue l.prev t.kind) (hl : l.rest = w ++ r)
    (hr : ∀ c ∈ r.head?, t.kind.continuedBy c = false) :
    l.token? = some (⟨t.kind, l.pos, w⟩, l.drop w.length) := by
  cases ht with
  | op o => exact symbol?_eq hl (symbolAt_of_op hw hs hr)
  | comma | opening | closing =>
    obtain rfl := List.mem_singleton.1 hw
    exact symbol?_eq hl rfl
  | @number t hne hn =>
    obtain rfl := List.mem_singleton.1 hw
    obtain ⟨c, w', rfl⟩ := List.exists_cons_of_ne_nil hne
    have hc : isNumeric c = true := hn c List.mem_cons_self
    have hsymbol : l.symbol? = none := by
      rw [Lexer.symbol?, hl, List.cons_append, symbolAt_eq_none _ (Or.inl hc)]; rfl
    have hident : l.ident? = none := by
      have hletter : isLetter c ≠ true := by rw [not_isLetter_of_isNumeric hc]; decide
      rw [Lexer.ident?, Lexer.run?, hl, List.cons_append, Lexer.runLength, if_neg hletter]
    rw [Lexer.token?, hsymbol, hident]
    exact run?_of_stop hl hc (fun d hd => hn d (List.mem_cons_of_mem _ hd)) hr
  | @name t ht =>
    obtain rfl := List.mem_singleton.1 hw
    cases w with
    | nil => exact absurd ht (by simp [isName])
    | cons c w' =>
      simp only [isName, Bool.and_eq_true, List.all_eq_true] at ht
      have hsymbol : l.symbol? = none := by
        rw [Lexer.symbol?, hl, List.cons_append, symbolAt_eq_none _ (Or.inr ht.1)]; rfl
      have hident : l.ident? = some (⟨.ident, l.pos, c :: w'⟩, l.drop (c :: w').length) :=
        run?_of_stop hl ht.1 ht.2 hr
      rw [Lexer.token?, hsymbol, hident]
      rfl

/-- Only numbers, names and a single star can go on. -/
theorem continuedBy_iff {k : TokenKind} {c : Char} :
    k.continuedBy c = true ↔
      k = .number ∧ isNumeric c = true ∨ k = .ident ∧ isLetterOrDigit c = true ∨ k = .op .mul ∧ c = '*' := by
  cases k with
  | op o => cases o <;> simp [TokenKind.continuedBy]
  | _ => simp [TokenKind.continuedBy]

/-- Operators are written with symbols. -/
theorem Operator.symbol_of_mem_spellings (o : Operator) {c : Char} (h : c ∈ o.spellings.flatten) :
    isNumeric c = false ∧ isLetterOrDigit c = false ∧ isBlank c = false := by
  have hall : o.spellings.flatten.all
      (fun c => !isNumeric c && !isLetterOrDigit c && !isBlank c) = true := by cases o <;> rfl
  have hc := List.all_eq_true.1 hall c h
  simp only [Bool.and_eq_true, Bool.not_eq_true'] at hc
  exact ⟨hc.1.1, hc.1.2, hc.2⟩

/-- A spelling of a terminal that may follow a token does not continue it. -/
theorem not_continuedBy_of_follows {k : TokenKind} {t : Terminal} {w : Text} {c : Char} (ht : t.Proper)
    (hw : w ∈ t.spellings) (hf : Follows (some k) t.kind) (hc : c ∈ w.head?) :
    k.continuedBy c = false := by
  have hmem : c ∈ w := List.mem_of_mem_head? hc
  rw [Bool.eq_false_iff, Ne, continuedBy_iff]
  cases ht with
  | number hne hn =>
    obtain rfl := List.mem_singleton.1 hw
    rintro (⟨rfl, _⟩ | ⟨rfl, _⟩ | ⟨rfl, rfl⟩)
    · exact absurd hf (by simp [Follows, Terminal.number, TokenKind.startsOperand, expectsOperand])
    · exact absurd hf (by simp [Follows, Terminal.number, TokenKind.startsOperand, expectsOperand])
    · exact absurd (hn _ hmem) (by decide)
  | name hname =>
    obtain rfl := List.mem_singleton.1 hw
    rintro (⟨rfl, _⟩ | ⟨rfl, _⟩ | ⟨rfl, rfl⟩)
    · exact absurd hf (by simp [Follows, Terminal.name, TokenKind.startsOperand, expectsOperand])
    · exact absurd hf (by simp [Follows, Terminal.name, TokenKind.startsOperand, expectsOperand])
    · cases w with
      | nil => exact absurd hc (by simp)
      | cons d w =>
        obtain rfl : d = '*' := by simpa using hc
        exact absurd hname (by simp [isName, show isLetter '*' = false by decide])
  | op o =>
    have hsymbol : c ∈ o.spellings.flatten := List.mem_flatten.2 ⟨w, hw, hmem⟩
    obtain ⟨hnumeric, hletter, _⟩ := Operator.symbol_of_mem_spellings o hsymbol
    rintro (⟨rfl, hn⟩ | ⟨rfl, hn⟩ | ⟨rfl, rfl⟩)
    · exact absurd (hnumeric.symm.trans hn) (by decide)
    · exact absurd (hletter.symm.trans hn) (by decide)
    · -- behind a star only a sign may stand, and no sign is written with a star
      cases o <;> first
        | exact absurd hsymbol (by decide)
        | exact absurd hf (by simp [Follows, Terminal.op, TokenKind.startsOperand, expectsOperand])
  | comma | opening | closing =>
    obtain rfl := List.mem_singleton.1 hw
    obtain rfl := List.mem_singleton.1 hmem
    rintro (⟨_, h⟩ | ⟨_, h⟩ | ⟨_, h⟩) <;> exact absurd h (by decide)

/-- A spelling has a first character, and it is no blank. -/
theorem Terminal.Proper.head {t : Terminal} {w : Text} (ht : t.Proper) (hw : w ∈ t.spellings) :
    ∃ c r, w = c :: r ∧ isBlank c = false := by
  cases ht with
  | @number t hne hn =>
    obtain rfl := List.mem_singleton.1 hw
    obtain ⟨c, r, rfl⟩ := List.exists_cons_of_ne_nil hne
    refine ⟨c, r, rfl, Bool.eq_false_iff.2 fun h => ?_⟩
    have := not_continuedBy_of_isBlank .number h
    rw [TokenKind.continuedBy, hn c List.mem_cons_self] at this
    exact absurd this (by decide)
  | name hname =>
    obtain rfl := List.mem_singleton.1 hw
    cases w with
    | nil => exact absurd hname (by simp [isName])
    | cons c r =>
      refine ⟨c, r, rfl, Bool.eq_false_iff.2 fun h => ?_⟩
      have := not_continuedBy_of_isBlank .ident h
      simp only [isName, Bool.and_eq_true] at hname
      rw [TokenKind.continuedBy, isLetterOrDigit_iff.2 (Or.inl hname.1)] at this
      exact absurd this (by decide)
  | op o =>
    have hall : ∀ o : Operator, ∀ w ∈ o.spellings, w ≠ [] := by
      intro o; cases o <;> decide
    obtain ⟨c, r, rfl⟩ := List.exists_cons_of_ne_nil (hall o w hw)
    have hsymbol : c ∈ o.spellings.flatten := List.mem_flatten.2 ⟨c :: r, hw, List.mem_cons_self⟩
    exact ⟨c, r, rfl, (Operator.symbol_of_mem_spellings o hsymbol).2.2⟩
  | comma | opening | closing =>
    obtain rfl := List.mem_singleton.1 hw
    exact ⟨_, _, rfl, by decide⟩

theorem Terminal.Proper.kind_ne {t : Terminal} (ht : t.Proper) (f : Foreign) : t.kind ≠ .foreign f := by
  cases ht <;> exact fun h => TokenKind.noConfusion h

/-- A token that the lexer knows is handed on, and remembered by its kind. -/
theorem next?_of_token? {l m : Lexer} {tok : Token} {c : Char} {r : Text} (hl : l.failed = false)
    (hrest : l.trim.rest = c :: r) (h : l.trim.token? = some (tok, m))
    (hk : ∀ f, tok.kind ≠ .foreign f) :
    l.next? = (some (.ok tok), { m with prev := some tok.kind }) := by
  rw [Lexer.next?, if_neg (by simp [hl])]
  dsimp only
  rw [hrest]
  dsimp only
  rw [h]
  dsimp only
  split
  · next f hf => exact absurd hf (hk f)
  · rfl

/-- **Step.**  At a spelling of a terminal, with blanks before it, the next token is that terminal. -/
theorem next?_of_spelling {l : Lexer} {t : Terminal} {blanks w r : Text} (hl : l.failed = false)
    (hrest : l.rest = blanks ++ w ++ r) (hb : ∀ c ∈ blanks, isBlank c) (ht : t.Proper)
    (hw : w ∈ t.spellings) (hs : SignsDue l.prev t.kind)
    (hr : ∀ c ∈ r.head?, t.kind.continuedBy c = false) :
    ∃ start pos, l.next? = (some (.ok ⟨t.kind, start, w⟩), ⟨r, pos, some t.kind, false⟩) := by
  obtain ⟨c, w', rfl, hc⟩ := ht.head hw
  have htrim : l.rest.takeWhile isBlank = blanks := by
    rw [hrest, List.append_assoc]
    exact (takeWhile_append_of_stop hb (by simpa using hc)).1
  have hrest' : l.trim.rest = (c :: w') ++ r := by
    rw [Lexer.trim, Lexer.drop, htrim, hrest, List.append_assoc, List.drop_left]
  have htoken : l.trim.token? = some (⟨t.kind, l.trim.pos, c :: w'⟩, l.trim.drop (c :: w').length) :=
    token?_of_spelling ht hw hs hrest' hr
  have hdrop : (l.trim.drop (c :: w').length).rest = r := by
    rw [Lexer.drop, hrest', List.drop_left]
  have hfailed : (l.trim.drop (c :: w').length).failed = false := hl
  refine ⟨l.trim.pos, (l.trim.drop (c :: w').length).pos, ?_⟩
  rw [next?_of_token? hl hrest' htoken ht.kind_ne, hdrop, hfailed]

/-! ## All tokens -/

/-- The terminal that a token is a spelling of. -/
def Token.terminal (tok : Token) : Terminal :=
  match tok.kind with
  | .op o => .op o
  | k => ⟨k, [tok.source.text]⟩

theorem kind_of_terminal {tok : Token} {t : Terminal} (h : tok.terminal = t) : tok.kind = t.kind := by
  rw [← h, Token.terminal]
  split <;> simp_all [Terminal.op]

/-- Apart from operators a terminal has one spelling, the text of its token. -/
theorem text_of_terminal {tok : Token} {k : TokenKind} {t : Text} (h : tok.terminal = ⟨k, [t]⟩)
    (hk : ∀ o, k ≠ .op o) : tok.source.text = t := by
  have hkind : tok.kind = k := kind_of_terminal h
  unfold Token.terminal at h
  split at h
  · next o ho => exact absurd (hkind.symm.trans ho) (hk o)
  · injection h with _ ht
    exact (List.cons.inj ht).1

theorem terminal_of_spelling {t : Terminal} {w : Text} (ht : t.Proper) (hw : w ∈ t.spellings)
    (start : Nat) : Token.terminal ⟨t.kind, start, w⟩ = t := by
  cases ht with
  | op o => rfl
  | number | name | comma | opening | closing => obtain rfl := List.mem_singleton.1 hw; rfl

/-- Blanks give no token. -/
theorem tokens_of_blank {l : Lexer} (h : ∀ c ∈ l.rest, isBlank c) : l.tokens = [] := by
  have htrim : l.trim.rest = [] := by
    have htake := (takeWhile_append_of_stop (r := []) h (by simp)).1
    rw [List.append_nil] at htake
    rw [Lexer.trim, Lexer.drop, htake, List.drop_length]
  have hnext : l.next?.1 = none := by
    rw [Lexer.next?]
    split
    · rfl
    · dsimp only; rw [htrim]
  rw [Lexer.tokens]
  split
  · rfl
  · next h => rw [h] at hnext; exact absurd hnext (by simp)
  · next h => rw [h] at hnext; exact absurd hnext (by simp)

/-- The tokens of a text are its first one and those of the rest. -/
theorem tokens_of_next? {l m : Lexer} {tok : Token} (h : l.next? = (some (.ok tok), m)) :
    l.tokens = .ok tok :: m.tokens := by
  rw [Lexer.tokens]
  split
  · next h' => rw [h] at h'; exact absurd h' (by simp)
  · next h' => rw [h] at h'; exact absurd h' (by simp)
  · next h' => rw [h] at h'; cases h'; rfl

/-- What comes behind a token in the text of a regular row does not continue it. -/
theorem not_continuedBy_of_spaced {k : TokenKind} {ws : List Text} {ts : List Terminal} {text : Text}
    {c : Char} (hw : Spells ws ts) (hs : Spaced ws text) (hreg : Regular (some k) ts)
    (hc : c ∈ text.head?) : k.continuedBy c = false := by
  cases hs with
  | nil hb => exact not_continuedBy_of_isBlank k (hb c (List.mem_of_mem_head? hc))
  | @cons blanks w rest ws hb _ =>
    cases blanks with
    | cons b blanks =>
      obtain rfl : b = c := by simpa using hc
      exact not_continuedBy_of_isBlank k (hb b List.mem_cons_self)
    | nil =>
      -- no blank between: the next spelling itself must not go on with the token
      cases ts with
      | nil => exact absurd hw (by simp [Spells])
      | cons t ts =>
        obtain ⟨ht, hf, _⟩ := hreg
        obtain ⟨d, w', rfl, _⟩ := ht.head hw.1
        exact not_continuedBy_of_follows ht hw.1 hf (by simpa using hc)

/-- **Run.**  Texts that spell a regular row of terminals, with blanks anywhere between, are lexed into
that row. -/
theorem tokens_of_spaced {ts : List Terminal} :
    ∀ {l : Lexer} {ws : List Text} {text : Text}, Spells ws ts → Spaced ws text → l.rest = text →
      l.failed = false → Regular l.prev ts →
        ∃ toks : List Token, l.tokens = toks.map .ok ∧ toks.map Token.terminal = ts := by
  induction ts with
  | nil =>
    intro l ws text hw hs hl _ _
    cases hs with
    | nil hb => exact ⟨[], tokens_of_blank (by rw [hl]; exact hb), rfl⟩
    | cons => exact absurd hw (by simp [Spells])
  | cons t ts ih =>
    intro l ws text hw hs hl hfailed hreg
    cases hs with
    | nil => exact absurd hw (by simp [Spells])
    | @cons blanks w rest ws hb hs =>
      obtain ⟨ht, hf, hreg⟩ := hreg
      obtain ⟨start, pos, hnext⟩ := next?_of_spelling hfailed hl hb ht hw.1 hf.signsDue
        fun c hc => not_continuedBy_of_spaced hw.2 hs hreg hc
      obtain ⟨toks, htoks, hts⟩ := ih (l := ⟨rest, pos, some t.kind, false⟩) hw.2 hs rfl rfl hreg
      refine ⟨⟨t.kind, start, w⟩ :: toks, ?_, ?_⟩
      · rw [tokens_of_next? hnext, htoks]; rfl
      · rw [List.map_cons, terminal_of_spelling ht hw.1, hts]

/-! ## What lexing gives -/

/-- Tokens as the lexer gives them behind a token of kind `prev`. -/
def Lexed (prev : Option TokenKind) : List Token → Prop
  | [] => True
  | tok :: rest => tok.terminal.Proper ∧ tok.source.text ∈ tok.terminal.spellings ∧
      SignsDue prev tok.kind ∧ Lexed (some tok.kind) rest

theorem signsDue_of_ne {prev : Option TokenKind} {k : TokenKind}
    (h : ∀ o, k = .op o → o ∉ [.neg, .pos, .add, .sub]) : SignsDue prev k := by
  intro o ho
  have ho := h o ho
  cases o <;> first
    | exact absurd (by decide) ho
    | exact ⟨fun h => absurd h (by decide), fun h => absurd h (by decide)⟩

/-- Operators are proper terminals in every spelling. -/
theorem of_operator {prev : Option TokenKind} {o : Operator} {start : Nat} {w : Text}
    (hw : w ∈ o.spellings) (hs : SignsDue prev (.op o)) :
    (Token.terminal ⟨.op o, start, w⟩).Proper ∧
      w ∈ (Token.terminal ⟨.op o, start, w⟩).spellings ∧ SignsDue prev (.op o) :=
  ⟨.op o, hw, hs⟩

/-- What is read as a symbol spells a terminal, with a sign where one is due. -/
theorem of_symbolAt {prev : Option TokenKind} {t : Text} {k : TokenKind} {n : Nat} (start : Nat)
    (h : Lexer.symbolAt prev t = some (k, n)) (hk : ∀ f, k ≠ .foreign f) :
    (Token.terminal ⟨k, start, t.take n⟩).Proper ∧
      t.take n ∈ (Token.terminal ⟨k, start, t.take n⟩).spellings ∧ SignsDue prev k := by
  unfold Lexer.symbolAt at h
  split at h
  all_goals
    first
      | obtain ⟨rfl, rfl⟩ := Prod.mk.inj (Option.some.inj h)
      | exact absurd h.symm (Option.some_ne_none _)
  -- `**`, `*`
  · exact of_operator (by simp [Operator.spellings]) (signsDue_of_ne (by rintro o ⟨⟩; decide))
  · exact of_operator (by simp [Operator.spellings]) (signsDue_of_ne (by rintro o ⟨⟩; decide))
  -- `-`, `+`
  · refine of_operator ?_ ?_
    · cases expectsOperand prev <;> simp [Operator.spellings]
    · rintro o ho
      cases hp : expectsOperand prev <;> rw [hp] at ho <;> cases ho <;> simp [Operator.isSign]
  · refine of_operator ?_ ?_
    · cases expectsOperand prev <;> simp [Operator.spellings]
    · rintro o ho
      cases hp : expectsOperand prev <;> rw [hp] at ho <;> cases ho <;> simp [Operator.isSign]
  -- `/`, `^`
  · exact of_operator (by simp [Operator.spellings]) (signsDue_of_ne (by rintro o ⟨⟩; decide))
  · exact of_operator (by simp [Operator.spellings]) (signsDue_of_ne (by rintro o ⟨⟩; decide))
  -- `,`, `(`, `)`
  · exact ⟨.comma, List.mem_singleton_self _, signsDue_of_ne (by rintro o ⟨⟩)⟩
  · exact ⟨.opening, List.mem_singleton_self _, signsDue_of_ne (by rintro o ⟨⟩)⟩
  · exact ⟨.closing, List.mem_singleton_self _, signsDue_of_ne (by rintro o ⟨⟩)⟩
  -- symbols of other notations
  all_goals exact absurd rfl (hk _)

/-- A run is a first character and all that go on with it. -/
theorem of_run? {l m : Lexer} {kind : TokenKind} {first more : Char → Bool} {tok : Token}
    (h : l.run? kind first more = some (tok, m)) :
    ∃ c w, tok = ⟨kind, l.pos, c :: w⟩ ∧ m = l.drop (c :: w).length ∧ l.rest = c :: w ++ m.rest ∧
      first c = true ∧ ∀ d ∈ w, more d = true := by
  unfold Lexer.run? at h
  split at h
  · exact absurd h (by simp)
  · next n hn =>
    cases hl : l.rest with
    | nil => rw [hl] at hn; exact absurd hn (by simp [Lexer.runLength])
    | cons c r =>
      rw [hl, Lexer.runLength] at hn
      by_cases hc : first c = true
      · rw [if_pos hc] at hn
        obtain rfl : (r.takeWhile more).length = n := Nat.succ.inj hn
        have htake : (r.takeWhile more ++ r.dropWhile more).take (r.takeWhile more).length = _ :=
          List.take_left
        have hdrop : (r.takeWhile more ++ r.dropWhile more).drop (r.takeWhile more).length = _ :=
          List.drop_left
        rw [List.takeWhile_append_dropWhile] at htake hdrop
        cases h
        refine ⟨c, r.takeWhile more, ?_, rfl, ?_, hc, List.all_eq_true.1 List.all_takeWhile⟩
        · rw [hl, List.take_succ_cons, htake]
        · rw [Lexer.drop, hl, List.drop_succ_cons, hdrop, List.cons_append,
            List.takeWhile_append_dropWhile]
      · rw [if_neg hc] at hn
        exact absurd hn (by simp)

/-- What the lexer reads as a token is a spelling of its terminal. -/
theorem of_token? {l m : Lexer} {tok : Token} (h : l.token? = some (tok, m))
    (hk : ∀ f, tok.kind ≠ .foreign f) :
    l.rest = tok.source.text ++ m.rest ∧ m.failed = l.failed ∧ tok.terminal.Proper ∧
      tok.source.text ∈ tok.terminal.spellings ∧ SignsDue l.prev tok.kind := by
  unfold Lexer.token? at h
  -- a symbol, a name, a number, in the order in which the lexer tries them
  split at h
  · next r hr =>
    obtain rfl := Option.some.inj h
    obtain ⟨⟨k, n⟩, hsymbol, he⟩ := Option.map_eq_some_iff.1 hr
    obtain ⟨rfl, rfl⟩ := Prod.mk.inj he
    exact ⟨(List.take_append_drop n l.rest).symm, rfl, of_symbolAt l.pos hsymbol hk⟩
  · split at h
    · next r hr =>
      obtain rfl := Option.some.inj h
      obtain ⟨c, w, rfl, rfl, hrest, hc, hw⟩ := of_run? hr
      refine ⟨hrest, rfl, .name ?_, List.mem_singleton_self _, signsDue_of_ne (by rintro o ⟨⟩)⟩
      simp only [isName, Bool.and_eq_true, List.all_eq_true]
      exact ⟨hc, hw⟩
    · obtain ⟨c, w, rfl, rfl, hrest, hc, hw⟩ := of_run? h
      refine ⟨hrest, rfl, .number (List.cons_ne_nil c w) ?_, List.mem_singleton_self _,
        signsDue_of_ne (by rintro o ⟨⟩)⟩
      intro d hd
      rcases List.mem_cons.1 hd with rfl | hd
      · exact hc
      · exact hw d hd

/-- The lexer drops blanks and nothing else in front of a token. -/
theorem blanks_append_trim (l : Lexer) : l.rest.takeWhile isBlank ++ l.trim.rest = l.rest := by
  have hdrop : (l.rest.takeWhile isBlank ++ l.rest.dropWhile isBlank).drop
      (l.rest.takeWhile isBlank).length = _ := List.drop_left
  rw [List.takeWhile_append_dropWhile] at hdrop
  rw [Lexer.trim, Lexer.drop, hdrop, List.takeWhile_append_dropWhile]

/-- What comes next, when it is a token: blanks, and a spelling of its terminal. -/
theorem of_next? {l m : Lexer} {tok : Token} (h : l.next? = (some (.ok tok), m)) :
    ∃ blanks, (∀ c ∈ blanks, isBlank c) ∧ l.rest = blanks ++ tok.source.text ++ m.rest ∧
      m.failed = false ∧ m.prev = some tok.kind ∧ tok.terminal.Proper ∧
      tok.source.text ∈ tok.terminal.spellings ∧ SignsDue l.prev tok.kind := by
  unfold Lexer.next? at h
  split at h
  · exact absurd h (by simp)
  · next hfailed =>
    dsimp only at h
    split at h
    · exact absurd h (by simp)
    · split at h
      · exact absurd h (by simp)
      · next tok' m' htoken =>
        split at h
        · exact absurd h (by simp)
        · next k hk =>
          cases h
          obtain ⟨hrest, hm, hproper, hspell, hdue⟩ := of_token? htoken hk
          refine ⟨l.rest.takeWhile isBlank, List.all_eq_true.1 List.all_takeWhile, ?_, ?_, rfl, hproper,
            hspell, hdue⟩
          · rw [List.append_assoc, ← hrest, blanks_append_trim]
          · exact hm.trans (Bool.eq_false_iff.2 hfailed)

/-- The first token of a list is the one that the lexer gives next. -/
theorem of_tokens_eq_cons {l : Lexer} {tok : Token} {rest : List (Except LexError Token)}
    (h : l.tokens = .ok tok :: rest) : ∃ m, l.next? = (some (.ok tok), m) ∧ m.tokens = rest := by
  rw [Lexer.tokens] at h
  split at h
  · exact absurd h (by simp)
  · exact absurd h (by simp)
  · next tok' m hnext =>
    obtain ⟨htok, hrest⟩ := List.cons.inj h
    obtain rfl := Except.ok.inj htok
    exact ⟨m, hnext, hrest⟩

/-- A text without tokens and errors is blank. -/
theorem isBlank_of_tokens_eq_nil {l : Lexer} (hl : l.failed = false) (h : l.tokens = []) :
    ∀ c ∈ l.rest, isBlank c := by
  have hnext : ∃ m, l.next? = (none, m) := by
    rw [Lexer.tokens] at h
    split at h
    · next m hnext => exact ⟨m, hnext⟩
    · exact absurd h (by simp)
    · exact absurd h (by simp)
  obtain ⟨m, hnext⟩ := hnext
  have hrest : l.trim.rest = [] := by
    unfold Lexer.next? at hnext
    rw [if_neg (Bool.eq_false_iff.1 hl)] at hnext
    dsimp only at hnext
    split at hnext
    · next hrest => exact hrest
    · split at hnext
      · exact absurd hnext (by simp)
      · split at hnext <;> exact absurd hnext (by simp)
  rw [← blanks_append_trim, hrest, List.append_nil]
  exact List.all_eq_true.1 List.all_takeWhile

/-- A text that lexes without error consists of the texts of its tokens, and blanks. -/
theorem spaced_of_tokens (toks : List Token) :
    ∀ l : Lexer, l.failed = false → l.tokens = toks.map .ok →
      Spaced (toks.map fun tok => tok.source.text) l.rest ∧ Lexed l.prev toks := by
  induction toks with
  | nil => exact fun l hl h => ⟨.nil (isBlank_of_tokens_eq_nil hl h), trivial⟩
  | cons tok rest ih =>
    intro l hl h
    obtain ⟨m, hnext, hrest⟩ := of_tokens_eq_cons h
    obtain ⟨blanks, hb, htext, hm, hprev, hproper, hspell, hdue⟩ := of_next? hnext
    obtain ⟨hspaced, hlexed⟩ := ih m hm hrest
    rw [hprev] at hlexed
    refine ⟨?_, hproper, hspell, hdue, hlexed⟩
    rw [htext]
    exact .cons hb hspaced

end SignChart
