/-
  Texts that spell a tree with nothing between its terminals.

  Canonical text has no blanks, so a text of a tree is the row of the spellings of its terminals, and the text
  of each part of the tree is a part of that row.

  1. **Rows.**  `Spelling` of a row is cut where the row is cut (`spelling_append`, `spelling_cons`).

  2. **Trees.**  The text of a tree is balanced (`Tree.balanced`), begins and ends with the edge of an operand
     (`Tree.edges`) and holds no blank, and compiles to the postorder of the tree (`compile_of_spelling`).

  3. **Back.**  A canonical text that compiles, with all commas in calls, spells a tree
     (`tree_of_compile`).
-/
import SignChart.Proofs.Expr.Acceptance
import SignChart.Proofs.Text.Nesting

namespace SignChart

/-! ## Rows -/

/-- The text spells the terminals, with nothing between. -/
def Spelling (ts : List Terminal) (t : Text) : Prop := ∃ ws, Spells ws ts ∧ t = ws.flatten

/-- The words of two rows are the words of the first and those of the second. -/
theorem spells_append {ss ts : List Terminal} {ws : List Text} :
    Spells ws (ss ++ ts) ↔ ∃ us vs, ws = us ++ vs ∧ Spells us ss ∧ Spells vs ts := by
  induction ss generalizing ws with
  | nil =>
    refine ⟨fun h => ⟨[], ws, rfl, trivial, h⟩, ?_⟩
    rintro ⟨us, vs, rfl, hu, hv⟩
    cases us with
    | nil => exact hv
    | cons => exact absurd hu (by simp [Spells])
  | cons s rest ih =>
    cases ws with
    | nil =>
      refine ⟨fun h => absurd h (by simp [Spells]), ?_⟩
      rintro ⟨us, vs, h, hu, _⟩
      obtain ⟨rfl, rfl⟩ := List.append_eq_nil_iff.1 h.symm
      exact absurd hu (by simp [Spells])
    | cons w ws =>
      constructor
      · rintro ⟨hw, h⟩
        obtain ⟨us, vs, rfl, hu, hv⟩ := ih.1 h
        exact ⟨w :: us, vs, rfl, ⟨hw, hu⟩, hv⟩
      · rintro ⟨us, vs, h, hu, hv⟩
        cases us with
        | nil => exact absurd hu (by simp [Spells])
        | cons u us =>
          obtain ⟨rfl, rfl⟩ := List.cons.inj h
          exact ⟨hu.1, ih.2 ⟨us, vs, rfl, hu.2, hv⟩⟩

/-- A spelling of two rows is one of the first and one of the second. -/
theorem spelling_append {ss ts : List Terminal} {t : Text} :
    Spelling (ss ++ ts) t ↔ ∃ u v, t = u ++ v ∧ Spelling ss u ∧ Spelling ts v := by
  constructor
  · rintro ⟨ws, h, rfl⟩
    obtain ⟨us, vs, rfl, hu, hv⟩ := spells_append.1 h
    exact ⟨_, _, List.flatten_append, ⟨us, hu, rfl⟩, ⟨vs, hv, rfl⟩⟩
  · rintro ⟨_, _, rfl, ⟨us, hu, rfl⟩, ⟨vs, hv, rfl⟩⟩
    exact ⟨us ++ vs, spells_append.2 ⟨us, vs, rfl, hu, hv⟩, List.flatten_append.symm⟩

theorem spelling_cons {s : Terminal} {ts : List Terminal} {t : Text} :
    Spelling (s :: ts) t ↔ ∃ w v, t = w ++ v ∧ w ∈ s.spellings ∧ Spelling ts v := by
  constructor
  · rintro ⟨ws, h, rfl⟩
    cases ws with
    | nil => exact absurd h (by simp [Spells])
    | cons w ws => exact ⟨w, _, rfl, h.1, ws, h.2, rfl⟩
  · rintro ⟨w, _, rfl, hw, ws, hws, rfl⟩
    exact ⟨w :: ws, ⟨hw, hws⟩, rfl⟩

theorem spelling_nil {t : Text} : Spelling [] t ↔ t = [] := by
  constructor
  · rintro ⟨ws, h, rfl⟩
    cases ws with
    | nil => rfl
    | cons => exact absurd h (by simp [Spells])
  · rintro rfl
    exact ⟨[], trivial, rfl⟩

/-- The spellings of one terminal are its words. -/
theorem spelling_single {s : Terminal} {t : Text} : Spelling [s] t ↔ t ∈ s.spellings := by
  rw [spelling_cons]
  constructor
  · rintro ⟨w, v, rfl, hw, hv⟩
    rw [spelling_nil.1 hv, List.append_nil]
    exact hw
  · exact fun h => ⟨t, [], (List.append_nil t).symm, h, spelling_nil.2 rfl⟩

/-- Operands with an operator between. -/
theorem spelling_binary {ss ts : List Terminal} {o : Operator} {t : Text} :
    Spelling (ss ++ .op o :: ts) t ↔
      ∃ u w v, t = u ++ (w ++ v) ∧ w ∈ o.spellings ∧ Spelling ss u ∧ Spelling ts v := by
  rw [spelling_append]
  constructor
  · rintro ⟨u, _, rfl, hu, h⟩
    obtain ⟨w, v, rfl, hw, hv⟩ := spelling_cons.1 h
    exact ⟨u, w, v, rfl, hw, hu, hv⟩
  · rintro ⟨u, w, v, rfl, hw, hu, hv⟩
    exact ⟨u, _, rfl, hu, spelling_cons.2 ⟨w, v, rfl, hw, hv⟩⟩

/-- What stands in parentheses. -/
theorem spelling_group {ts : List Terminal} {t : Text} :
    Spelling (.opening :: (ts ++ [.closing])) t ↔ ∃ u, t = '(' :: (u ++ [')']) ∧ Spelling ts u := by
  rw [spelling_cons]
  constructor
  · rintro ⟨w, _, rfl, hw, h⟩
    obtain ⟨u, v, rfl, hu, hv⟩ := spelling_append.1 h
    obtain rfl := List.mem_singleton.1 hw
    obtain rfl := List.mem_singleton.1 (spelling_single.1 hv)
    exact ⟨u, rfl, hu⟩
  · rintro ⟨u, rfl, hu⟩
    exact ⟨['('], _, rfl, List.mem_singleton_self _,
      spelling_append.2 ⟨u, _, rfl, hu, spelling_single.2 (List.mem_singleton_self _)⟩⟩

/-- A function with its arguments. -/
theorem spelling_call {g : Text} {ts : List Terminal} {t : Text} :
    Spelling (.name g :: .opening :: (ts ++ [.closing])) t ↔
      ∃ u, t = g ++ '(' :: (u ++ [')']) ∧ Spelling ts u := by
  rw [spelling_cons]
  constructor
  · rintro ⟨w, _, rfl, hw, h⟩
    obtain ⟨u, rfl, hu⟩ := spelling_group.1 h
    obtain rfl := List.mem_singleton.1 hw
    exact ⟨u, rfl, hu⟩
  · rintro ⟨u, rfl, hu⟩
    exact ⟨g, _, rfl, List.mem_singleton_self _, spelling_group.2 ⟨u, rfl, hu⟩⟩

/-! ## Characters -/

/-- A character of a name or a number. -/
def isWordChar (c : Char) : Bool := isLetterOrDigit c || c = '.'

theorem isNumeric_of_isDigit {c : Char} (h : c.isDigit = true) : isNumeric c = true := by
  rw [isNumeric, h]
  rfl

theorem isWordChar_of_isNumeric {c : Char} (h : isNumeric c = true) : isWordChar c = true := by
  rw [isNumeric, Bool.or_eq_true] at h
  rw [isWordChar, Bool.or_eq_true]
  exact h.imp (fun h => by simp [isLetterOrDigit, Char.isAlphanum, h]) id

/-- A character of a name or a number is neither blank nor a symbol. -/
theorem not_symbol_of_isWordChar {c : Char} (h : isWordChar c = true) :
    isBlank c = false ∧ c ∉ ['(', ')', ',', '*', '/', '^', '+', '-'] := by
  constructor
  · rw [Bool.eq_false_iff]
    intro hb
    have hnumber := not_continuedBy_of_isBlank .number hb
    have hname := not_continuedBy_of_isBlank .ident hb
    rw [isWordChar, Bool.or_eq_true, decide_eq_true_eq] at h
    rcases h with h | rfl
    · exact absurd (hname.symm.trans h) (by decide)
    · exact absurd hnumber (by decide)
  · intro hm
    have hall : ['(', ')', ',', '*', '/', '^', '+', '-'].all (fun c => !isWordChar c) = true := by decide
    have := List.all_eq_true.1 hall c hm
    rw [h] at this
    exact absurd this (by decide)

/-- A name is made of letters and digits. -/
theorem isWordChar_of_isName {t : Text} (h : isName t) : ∀ c ∈ t, isWordChar c = true := by
  cases t with
  | nil => exact fun c hc => absurd hc List.not_mem_nil
  | cons d r =>
    simp only [isName, Bool.and_eq_true, List.all_eq_true] at h
    intro c hc
    rw [isWordChar, Bool.or_eq_true]
    rcases List.mem_cons.1 hc with rfl | hc
    · exact Or.inl (isLetterOrDigit_iff.2 (Or.inl h.1))
    · exact Or.inl (h.2 c hc)

/-! ## Trees -/

/-- A word has no parentheses in it. -/
theorem balanced_of_words {t : Text} (h : ∀ c ∈ t, isWordChar c = true) : Balanced t := by
  refine balanced_of_forall_ne fun c hc => ?_
  have := (not_symbol_of_isWordChar (h c hc)).2
  simp only [List.mem_cons, not_or] at this
  exact ⟨this.1, this.2.1⟩

/-- No operator has parentheses in it. -/
theorem Operator.balanced (o : Operator) {w : Text} (h : w ∈ o.spellings) : Balanced w := by
  have hall : ∀ w ∈ o.spellings, Balanced w := by cases o <;> decide
  exact hall w h

section
variable {c : Category} {t : Text}

/-- In the text of a tree every parenthesis has a partner. -/
theorem Tree.balanced (e : Tree c) (h : Spelling e.terminals t) : Balanced t := by
  induction e generalizing t with
  | term a ih | factor a ih | power a ih | atom a ih | last a ih => exact ih h
  | sum o _ a b iha ihb | product o _ a b iha ihb =>
    obtain ⟨u, w, v, rfl, hw, hu, hv⟩ := spelling_binary.1 h
    exact (iha hu).append ((o.balanced hw).append (ihb hv))
  | raise a b iha ihb =>
    obtain ⟨u, w, v, rfl, hw, hu, hv⟩ := spelling_binary.1 h
    exact (iha hu).append ((Operator.balanced .pow hw).append (ihb hv))
  | sign o _ a ih =>
    obtain ⟨w, v, rfl, hw, hv⟩ := spelling_cons.1 h
    exact (o.balanced hw).append (ih hv)
  | number n value hn hv =>
    obtain rfl := List.mem_singleton.1 (spelling_single.1 h)
    exact balanced_of_words fun c hc => isWordChar_of_isNumeric (hn c hc)
  | input n _ hn | constant n _ hn =>
    obtain rfl := List.mem_singleton.1 (spelling_single.1 h)
    exact balanced_of_words (isWordChar_of_isName (isName_of_lookup hn))
  | call g f hg as ih =>
    obtain ⟨u, rfl, hu⟩ := spelling_call.1 h
    exact (balanced_of_words (isWordChar_of_isName (isName_of_lookup hg))).append (ih hu).group
  | group a ih =>
    obtain ⟨u, rfl, hu⟩ := spelling_group.1 h
    exact (ih hu).group
  | more a as iha ihas =>
    obtain ⟨u, _, rfl, hu, hr⟩ := spelling_append.1 h
    obtain ⟨w, v, rfl, hw, hv⟩ := spelling_cons.1 hr
    obtain rfl := List.mem_singleton.1 hw
    exact (iha hu).append (Balanced.append (s := [',']) (by decide) (ihas hv))

/-- A text begins with a character that begins an operand and ends with one that ends an operand. -/
def Edged (t : Text) : Prop :=
  (∃ a ∈ t.head?, isWordChar a = true ∨ a ∈ ['(', '+', '-']) ∧
    ∃ b ∈ t.getLast?, isWordChar b = true ∨ b = ')'

/-- The ends of a text put together are those of its first and last part. -/
theorem Edged.between {u v : Text} (m : Text) (hu : Edged u) (hv : Edged v) : Edged (u ++ (m ++ v)) := by
  obtain ⟨⟨a, ha, ha'⟩, _⟩ := hu
  obtain ⟨_, ⟨b, hb, hb'⟩⟩ := hv
  refine ⟨⟨a, ?_, ha'⟩, ⟨b, ?_, hb'⟩⟩
  · rw [List.head?_append, Option.mem_def.1 ha]; rfl
  · rw [List.getLast?_append, List.getLast?_append, Option.mem_def.1 hb]; rfl

theorem edged_of_words (hne : t ≠ []) (h : ∀ c ∈ t, isWordChar c = true) : Edged t :=
  ⟨⟨_, List.head?_eq_some_head hne, Or.inl (h _ (List.head_mem hne))⟩,
    ⟨_, List.getLast?_eq_some_getLast hne, Or.inl (h _ (List.getLast_mem hne))⟩⟩

/-- A closing parenthesis ends an operand, whatever is in front of it. -/
theorem edged_of_closing {u : Text} {a : Char} (ha : isWordChar a = true ∨ a ∈ ['(', '+', '-']) :
    Edged (a :: (u ++ [')'])) :=
  ⟨⟨a, rfl, ha⟩, ⟨')', by rw [← List.cons_append, List.getLast?_concat]; rfl, Or.inr rfl⟩⟩

theorem ne_nil_of_isName (h : isName t) : t ≠ [] := by
  rintro rfl
  exact absurd h (by decide)

/-- The text of a tree has the edges of an operand. -/
theorem Tree.edges (e : Tree c) (h : Spelling e.terminals t) : Edged t := by
  induction e generalizing t with
  | term a ih | factor a ih | power a ih | atom a ih | last a ih => exact ih h
  | sum o _ a b iha ihb | product o _ a b iha ihb | raise a b iha ihb =>
    obtain ⟨u, w, v, rfl, _, hu, hv⟩ := spelling_binary.1 h
    exact (iha hu).between w (ihb hv)
  | sign o ho a ih =>
    obtain ⟨w, v, rfl, hw, hv⟩ := spelling_cons.1 h
    obtain ⟨_, ⟨b, hb, hb'⟩⟩ := ih hv
    obtain ⟨a, ha, ha'⟩ : ∃ a ∈ w.head?, a ∈ ['(', '+', '-'] := by
      rcases ho with rfl | rfl <;> obtain rfl := List.mem_singleton.1 hw <;> exact ⟨_, rfl, by decide⟩
    refine ⟨⟨a, ?_, Or.inr ha'⟩, ⟨b, ?_, hb'⟩⟩
    · rw [List.head?_append, Option.mem_def.1 ha]; rfl
    · rw [List.getLast?_append, Option.mem_def.1 hb]; rfl
  | number n value hn hv =>
    obtain rfl := List.mem_singleton.1 (spelling_single.1 h)
    exact edged_of_words (ne_nil_of_readFloat hv) fun c hc => isWordChar_of_isNumeric (hn c hc)
  | input n _ hn | constant n _ hn =>
    obtain rfl := List.mem_singleton.1 (spelling_single.1 h)
    exact edged_of_words (ne_nil_of_isName (isName_of_lookup hn)) (isWordChar_of_isName (isName_of_lookup hn))
  | call g f hg as ih =>
    obtain ⟨u, rfl, _⟩ := spelling_call.1 h
    obtain ⟨d, r, rfl, hd⟩ := cons_of_isName (isName_of_lookup hg)
    have hword : isWordChar d = true := isWordChar_of_isName (isName_of_lookup hg) d List.mem_cons_self
    have := edged_of_closing (u := r ++ '(' :: u) (Or.inl hword)
    rwa [List.append_assoc] at this
  | group a ih =>
    obtain ⟨u, rfl, _⟩ := spelling_group.1 h
    exact edged_of_closing (Or.inr (by decide))
  | more a as iha ihas =>
    obtain ⟨u, _, rfl, hu, hr⟩ := spelling_append.1 h
    obtain ⟨w, v, rfl, _, hv⟩ := spelling_cons.1 hr
    exact (iha hu).between w (ihas hv)

/-- No spelling has a blank in it. -/
theorem Terminal.Proper.not_blank {s : Terminal} {w : Text} (hs : s.Proper) (hw : w ∈ s.spellings) :
    ∀ c ∈ w, isBlank c = false := by
  cases hs with
  | number _ hn =>
    obtain rfl := List.mem_singleton.1 hw
    exact fun c hc => (not_symbol_of_isWordChar (isWordChar_of_isNumeric (hn c hc))).1
  | name hname =>
    obtain rfl := List.mem_singleton.1 hw
    exact fun c hc => (not_symbol_of_isWordChar (isWordChar_of_isName hname c hc)).1
  | op o => exact fun c hc => (o.symbol_of_mem_spellings (List.mem_flatten.2 ⟨w, hw, hc⟩)).2.2
  | comma | opening | closing =>
    obtain rfl := List.mem_singleton.1 hw
    intro c hc
    obtain rfl := List.mem_singleton.1 hc
    decide

/-- In the text of a tree nothing is blank. -/
theorem Tree.not_blank (e : Tree c) (h : Spelling e.terminals t) : ∀ c ∈ t, isBlank c = false := by
  have hrow : ∀ {ts : List Terminal} {prev : Option TokenKind} {t : Text}, Regular prev ts → Spelling ts t →
      ∀ c ∈ t, isBlank c = false := by
    intro ts
    induction ts with
    | nil =>
      intro prev t _ h
      rw [spelling_nil.1 h]
      exact fun c hc => absurd hc List.not_mem_nil
    | cons s ts ih =>
      intro prev t hreg h
      obtain ⟨w, v, rfl, hw, hv⟩ := spelling_cons.1 h
      intro c hc
      rcases List.mem_append.1 hc with hc | hc
      · exact hreg.1.not_blank hw c hc
      · exact ih hreg.2.2 hv c hc
  exact hrow (e.phrase none rfl).1 h

theorem dropWhile_of_forall_not {p : Char → Bool} (h : ∀ c ∈ t, p c = false) : t.dropWhile p = t := by
  cases t with
  | nil => rfl
  | cons c r => rw [List.dropWhile_cons_of_neg (by rw [h c List.mem_cons_self]; decide)]

theorem trim_of_not_blank (h : ∀ c ∈ t, isBlank c = false) : t.trim = t := by
  have hrev : t.reverse.dropWhile isBlank = t.reverse :=
    dropWhile_of_forall_not fun c hc => h c (List.mem_reverse.1 hc)
  rw [Text.trim, Text.trimStart, dropWhile_of_forall_not h, Text.trimEnd, hrev, List.reverse_reverse]

/-! ## Compiling -/

/-- Words put together without blanks are one way to space them. -/
theorem spaced_flatten : ∀ ws : List Text, Spaced ws ws.flatten
  | [] => .nil (by simp)
  | w :: ws => @Spaced.cons [] w _ ws (by simp) (spaced_flatten ws)

/-- Where nothing is blank, nothing stands between. -/
theorem eq_flatten_of_spaced {ws : List Text} (h : Spaced ws t) (hb : ∀ c ∈ t, isBlank c = false) :
    t = ws.flatten := by
  have hnil : ∀ {blanks : Text}, (∀ c ∈ blanks, isBlank c = true) → (∀ c ∈ blanks, isBlank c = false) →
      blanks = [] := by
    intro blanks h h'
    cases blanks with
    | nil => rfl
    | cons b _ =>
      exact absurd ((h' b List.mem_cons_self).symm.trans (h b List.mem_cons_self)) (by decide)
  induction h with
  | nil hblanks => exact hnil hblanks hb
  | cons hblanks _ ih =>
    obtain rfl := hnil hblanks fun c hc => hb c (List.mem_append_left _ (List.mem_append_left _ hc))
    rw [ih fun c hc => hb c (List.mem_append_right _ hc)]
    rfl

/-- The text of a tree whose calls fit compiles to the postorder of the tree, and has its values. -/
theorem compile_of_spelling (e : Tree .sum) (h : Spelling e.terminals t) (hf : e.Fits) :
    ∃ f, compile t = .ok f ∧ f.program.instrs = e.postorder ∧ ∀ x, f.eval x = .ok (e.value x) := by
  obtain ⟨ws, hws, rfl⟩ := h
  obtain ⟨program, hparse, hp⟩ := parse_of_writes ⟨ws, hws, spaced_flatten ws⟩
  refine ⟨_, compile_of_parse hparse (eval_of_instrs hp hf 0.0), ?_, eval_of_instrs hp hf⟩
  have hprogram : (standardTable.link program).map Prod.fst = program := by
    rw [Table.link, List.map_map]
    exact List.map_id program
  show Program.instrs ((standardTable.link program).map Prod.fst) = _
  rw [hprogram, hp]

/-- A text whose operands are apart is made of symbols and words, so it has no blanks. -/
theorem Separated.not_blank {k : PieceKind} (h : Separated k t) : ∀ c ∈ t, isBlank c = false := by
  have hwords : ∀ {w r : Text}, (∀ c ∈ w, isWordChar c = true) → (∀ c ∈ r, isBlank c = false) →
      ∀ c ∈ w ++ r, isBlank c = false := by
    intro w r hw hr c hc
    rcases List.mem_append.1 hc with hc | hc
    · exact (not_symbol_of_isWordChar (hw c hc)).1
    · exact hr c hc
  induction h with
  | nil => exact fun c hc => absurd hc List.not_mem_nil
  | symbol hs _ ih => exact List.forall_mem_cons.2 ⟨hs.2.2.1, ih⟩
  | opening _ _ ih | closing _ ih => exact List.forall_mem_cons.2 ⟨by decide, ih⟩
  | number _ _ hw _ ih => exact hwords (fun c hc => isWordChar_of_isNumeric (hw c hc)) ih
  | value _ hw _ ih => exact hwords (isWordChar_of_isName (isName_of_mem_valueWords hw)) ih
  | function _ hw _ _ _ ih => exact hwords (isWordChar_of_isName hw) ih

/-- A text without operands side by side that compiles, with all commas in calls, spells a tree. -/
theorem tree_of_compile {k : PieceKind} {f : Evaluator} (hs : Separated k t)
    (hf : compile t = .ok f)
    (hcommas : ∀ toks : List Token, (Lexer.ofText t).tokens = toks.map .ok → CommasInCalls false [] toks) :
    ∃ e : Tree .sum, Spelling e.terminals t ∧ e.Fits ∧ f.program.instrs = e.postorder := by
  obtain ⟨program, y, hparse, hrun⟩ := of_compile hf
  obtain ⟨toks, htokens⟩ := tokens_of_readAll _ hparse
  obtain ⟨hspaced, hlexed⟩ := spaced_of_tokens toks (Lexer.ofText t) rfl htokens
  have hapart : Apart false toks :=
    (Separated.apart toks (l := Lexer.ofText t) hs rfl htokens).mono fun h => absurd h (by decide)
  have hread : Parser.start.readAll standardTable (toks.map .ok) = .ok program := by
    rw [← htokens]; exact hparse
  obtain ⟨e, he⟩ := tree_of_run hlexed hapart (hcommas toks htokens) hread hrun
  have hspelling : Spelling e.terminals t :=
    ⟨_, he ▸ spells_of_lexed toks hlexed, eq_flatten_of_spaced hspaced hs.not_blank⟩
  -- the program that ran is the postorder of the tree, so its calls are those of the tree
  obtain ⟨program', hread', hpostorder⟩ := readAll_tree e he.symm
  obtain rfl : program' = program := Except.ok.inj (hread'.symm.trans hread)
  have hfits : e.Fits := fits_of_calls e (by rw [← hpostorder]; exact (length_of_performAll _ hrun).2)
  obtain ⟨g, hg, hinstrs, _⟩ := compile_of_spelling e hspelling hfits
  obtain rfl : g = f := Except.ok.inj (hg.symm.trans hf)
  exact ⟨e, hspelling, hfits, hinstrs⟩

end

end SignChart
