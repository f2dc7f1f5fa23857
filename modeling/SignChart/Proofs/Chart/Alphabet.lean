/-
  Charts are made of arithmetic in `x`.

  What is not written in the alphabet of charts is refused before it is compiled.  What is left has a program of
  pushed values, operators and `x` alone, and few ways to fail: no lexer error, no name that is not known, no call
  with a wrong number of arguments is among them (`ofInput_arithmetic`).

  1. **Text.**  In canonical text over the alphabet every `x` is a word of its own (`Separated.loneInputs`): a run
     of them is written as a product, and so is an `x` next to a digit.

  2. **Tokens.**  By induction on what is left to read, lexing such a text gives numbers, operators, parentheses
     and `x`, and no error (`tokens_arithmetic`).

  3. **Steps and runs.**  Reading such a token adds such instructions or fails for one of two causes
     (`arithmetic_of_read`), and so does reading all of them (`arithmetic_of_readAll`).  Running the
     instructions fails only for want of operands (`arithmetic_of_run`).

  4. **Charts.**  Canonical text is not empty unless all of it was blank (`canonical_ne_nil`), so that no text
     is refused without a cause.
-/
import SignChart.Proofs.Expr.Ordering
import SignChart.Proofs.Input.Composition
import SignChart.Chart.Basic

namespace SignChart

/-! ## Arithmetic -/

/-- A token of arithmetic in `x`. -/
def Token.IsArithmetic (tok : Token) : Prop :=
  tok.kind = .number ∨ (∃ o, tok.kind = .op o) ∨ tok.kind = .openParen ∨ tok.kind = .closeParen ∨
    tok.kind = .ident ∧ tok.source.text = ['x']

/-- An instruction of arithmetic in `x`. -/
def Instr.IsArithmetic : Instr → Prop
  | .push _ | .operate _ => True
  | .load name => name = ['x']
  | .call _ _ => False

/-- The causes for which arithmetic in `x` cannot be put in order. -/
def ParseCause.IsArithmetic : ParseCause → Prop
  | .number _ | .parenMismatch => True
  | .lex _ | .unknownName | .missingArguments | .strayComma => False

/-- The causes for which arithmetic in `x` cannot be run. -/
def EvalCause.IsArithmetic : EvalCause → Prop
  | .empty | .stackCount _ _ => True
  | .argumentCount _ _ _ | .undefinedName _ | .unboundVariable _ => False

/-- The errors of arithmetic in `x`. -/
def CompileError.IsArithmetic : CompileError → Prop
  | .parse e => e.cause.IsArithmetic
  | .eval e => e.cause.IsArithmetic

/-! ## Text -/

/-- Every `x` ends the word that it stands in. -/
def LoneInputs : Text → Prop
  | [] => True
  | c :: r => (c = 'x' → ∀ d ∈ r.head?, isLetterOrDigit d = false) ∧ LoneInputs r

theorem LoneInputs.of_append {s t : Text} (h : LoneInputs (s ++ t)) : LoneInputs t := by
  induction s with
  | nil => exact h
  | cons c r ih => exact ih h.2

theorem loneInputs_append {s t : Text} (hs : 'x' ∉ s) (ht : LoneInputs t) : LoneInputs (s ++ t) := by
  induction s with
  | nil => exact ht
  | cons c r ih =>
    rw [List.mem_cons, not_or] at hs
    exact ⟨fun hc => absurd hc.symm hs.1, ih hs.2⟩

/-- The characters of the alphabet. -/
theorem isChartable_iff {c : Char} :
    isChartable c = true ↔ isNumeric c = true ∨ c = 'x' ∨ c ∈ ['+', '-', '*', '/', '(', ')'] := by
  simp only [isChartable, isNumeric, Bool.or_eq_true, decide_eq_true_eq, List.mem_cons, List.not_mem_nil, or_false]
  tauto

/-- The only letter of the alphabet. -/
theorem eq_x_of_isLetter {c : Char} (hc : isChartable c = true) (hl : isLetter c = true) : c = 'x' := by
  rcases isChartable_iff.1 hc with hn | rfl | hs
  · exact absurd hl (by rw [not_isLetter_of_isNumeric hn]; decide)
  · rfl
  · simp only [List.mem_cons, List.not_mem_nil, or_false] at hs
    rcases hs with rfl | rfl | rfl | rfl | rfl | rfl <;> exact absurd hl (by decide)

theorem valueRun?_inputs {t : Text} (h : ∀ c ∈ t, c = 'x') : (valueRun? t).isSome = true := by
  induction t with
  | nil => rw [valueRun?]; rfl
  | cons c r ih =>
    obtain rfl := h c List.mem_cons_self
    have hword : valueWords.find? (fun w => w.isPrefixOf ('x' :: r)) = some ['x'] := rfl
    have hrest := ih fun d hd => h d (List.mem_cons_of_mem _ hd)
    rw [valueRun?, if_neg (List.cons_ne_nil _ _)]
    split
    · next word hw =>
      obtain rfl : ['x'] = word := Option.some.inj (hword.symm.trans hw)
      rw [Option.isSome_map]
      exact hrest
    · next hw => exact nomatch hword.symm.trans hw

/-- In canonical text over the alphabet, every `x` is a word of its own. -/
theorem Separated.loneInputs {k : PieceKind} {t : Text} (h : Separated k t)
    (ht : ∀ c ∈ t, isChartable c = true) : LoneInputs t := by
  induction h with
  | nil => trivial
  | symbol hc _ ih =>
    refine ⟨fun hx => ?_, ih fun d hd => ht d (List.mem_cons_of_mem _ hd)⟩
    subst hx
    exact absurd hc.2.1 (by decide)
  | opening _ _ ih | closing _ ih =>
    exact ⟨fun hx => absurd hx (by decide), ih fun d hd => ht d (List.mem_cons_of_mem _ hd)⟩
  | number _ _ hw _ ih =>
    exact loneInputs_append (fun hx => absurd (hw 'x' hx) (by decide))
      (ih fun d hd => ht d (List.mem_append_right _ hd))
  | @value _ w t _ hw h ih =>
    have hw' : w = ['x'] := by
      obtain ⟨c, r, rfl, hc⟩ := cons_of_isName (isName_of_mem_valueWords hw)
      obtain rfl := eq_x_of_isLetter (ht c List.mem_cons_self) hc
      have hall : ∀ w ∈ valueWords, w.head? = some 'x' → w = ['x'] := by decide
      exact hall _ hw rfl
    subst hw'
    exact ⟨fun _ d hd => (h.stop rfl d hd).1, ih fun d hd => ht d (List.mem_append_right _ hd)⟩
  | @function _ w t _ _ hv _ _ _ =>
    -- the letters of a name over the alphabet are a run of inputs, and so no name of a function
    have hletters : ∀ c ∈ w.takeWhile isLetter, c = 'x' := fun c hc =>
      eq_x_of_isLetter (ht c (List.mem_append_left _ ((List.takeWhile_sublist _).subset hc)))
        (List.all_eq_true.1 List.all_takeWhile c hc)
    have hsome := valueRun?_inputs hletters
    rw [hv] at hsome
    exact absurd hsome (by decide)

/-! ## Tokens -/

/-- A text that is left to a lexer, over the alphabet and with every `x` a word of its own. -/
structure Lexer.Charted (l : Lexer) : Prop where
  open_ : l.failed = false
  chartable : ∀ c ∈ l.rest, isChartable c = true
  lone : LoneInputs l.rest

theorem exists_symbolAt (prev : Option TokenKind) {c : Char} (hc : c ∈ ['+', '-', '*', '/', '(', ')'])
    (r : Text) : ∃ k n, Lexer.symbolAt prev (c :: r) = some (k, n) ∧ ∀ f, k ≠ .foreign f := by
  simp only [List.mem_cons, List.not_mem_nil, or_false] at hc
  rcases hc with rfl | rfl | rfl | rfl | rfl | rfl
  case inr.inr.inl =>
    -- of two stars both are read
    match r with
    | [] => exact ⟨_, _, rfl, fun f => TokenKind.noConfusion⟩
    | d :: r =>
      by_cases hd : d = '*'
      · exact ⟨.op .pow, 2, by rw [hd, Lexer.symbolAt], fun f => TokenKind.noConfusion⟩
      · exact ⟨.op .mul, 1, by simp [Lexer.symbolAt, hd], fun f => TokenKind.noConfusion⟩
  all_goals exact ⟨_, _, rfl, fun f => TokenKind.noConfusion⟩

/-- Every character of the alphabet begins a token. -/
theorem exists_token? {l : Lexer} {c : Char} {r : Text} (hl : l.rest = c :: r) (hc : isChartable c = true) :
    ∃ tok m, l.token? = some (tok, m) ∧ ∀ f, tok.kind ≠ .foreign f := by
  rcases isChartable_iff.1 hc with hn | rfl | hs
  · have hsymbol : l.symbol? = none := by rw [Lexer.symbol?, hl, symbolAt_eq_none _ (Or.inl hn)]; rfl
    have hident : l.ident? = none := by
      rw [Lexer.ident?, Lexer.run?, hl, Lexer.runLength, if_neg (by rw [not_isLetter_of_isNumeric hn]; decide)]
    have hnumber : l.number? = some (l.take .number ((r.takeWhile isNumeric).length + 1)) := by
      show l.run? .number isNumeric isNumeric = _
      rw [Lexer.run?, hl, Lexer.runLength, if_pos hn]
    exact ⟨_, _, by rw [Lexer.token?, hsymbol, hident]; exact hnumber, fun f h => TokenKind.noConfusion h⟩
  · have hsymbol : l.symbol? = none := by
      rw [Lexer.symbol?, hl, symbolAt_eq_none _ (Or.inr (by decide))]; rfl
    have hident : l.ident? = some (l.take .ident ((r.takeWhile isLetterOrDigit).length + 1)) := by
      rw [Lexer.ident?, Lexer.run?, hl, Lexer.runLength, if_pos (by decide)]
    exact ⟨_, _, by rw [Lexer.token?, hsymbol, hident], fun f h => TokenKind.noConfusion h⟩
  · obtain ⟨k, n, hk, hforeign⟩ := exists_symbolAt l.prev hs r
    exact ⟨_, _, by rw [Lexer.token?, Lexer.symbol?, hl, hk]; rfl, hforeign⟩

/-- Lexing does not fail on the alphabet. -/
theorem next?_ne_error {l m : Lexer} {e : LexError} (hl : ∀ c ∈ l.rest, isChartable c = true) :
    l.next? ≠ (some (.error e), m) := by
  intro h
  unfold Lexer.next? at h
  split at h
  · cases (Prod.mk.inj h).1
  dsimp only at h
  split at h
  · cases (Prod.mk.inj h).1
  · next c r hrest =>
    have hc : isChartable c = true := by
      have hsuffix : l.trim.rest <:+ l.rest := List.drop_suffix _ _
      exact hl c (hsuffix.subset (hrest ▸ List.mem_cons_self))
    obtain ⟨tok, l', htoken, hforeign⟩ := exists_token? hrest hc
    rw [htoken] at h
    dsimp only at h
    split at h
    · next f hf => exact hforeign f hf
    · cases Option.some.inj (Prod.mk.inj h).1

/-- **Step.**  A token of such a text is one of arithmetic, and leaves such a text. -/
theorem Lexer.Charted.step {l m : Lexer} {tok : Token} (hl : l.Charted)
    (h : l.next? = (some (.ok tok), m)) : tok.IsArithmetic ∧ m.Charted := by
  obtain ⟨blanks, _, hrest, hm, _, hproper, hspell, _⟩ := of_next? h
  have hchartable : ∀ c ∈ tok.source.text, isChartable c = true := fun c hc =>
    hl.chartable c (hrest ▸ List.mem_append_left _ (List.mem_append_right _ hc))
  have hlone : LoneInputs (tok.source.text ++ m.rest) := by
    have hall := hl.lone
    rw [hrest, List.append_assoc] at hall
    exact hall.of_append
  refine ⟨?_, hm, fun c hc => hl.chartable c (hrest ▸ List.mem_append_right _ hc), hlone.of_append⟩
  generalize ht : tok.terminal = t at hproper hspell
  have hkind := kind_of_terminal ht
  cases hproper with
  | number => exact Or.inl hkind
  | op o => exact Or.inr (Or.inl ⟨o, hkind⟩)
  | opening => exact Or.inr (Or.inr (Or.inl hkind))
  | closing => exact Or.inr (Or.inr (Or.inr (Or.inl hkind)))
  | comma =>
    rw [List.mem_singleton.1 hspell] at hchartable
    exact absurd (hchartable ',' List.mem_cons_self) (by decide)
  | @name w hname =>
    refine Or.inr (Or.inr (Or.inr (Or.inr ⟨hkind, ?_⟩)))
    rw [List.mem_singleton.1 hspell] at hchartable hlone ⊢
    obtain ⟨c, r, rfl, hc⟩ := cons_of_isName hname
    obtain rfl := eq_x_of_isLetter (hchartable c List.mem_cons_self) hc
    -- a second character would be a letter or a digit right behind the `x`
    cases r with
    | nil => rfl
    | cons d r =>
      rw [isName, Bool.and_eq_true, List.all_eq_true] at hname
      exact absurd (hname.2 d List.mem_cons_self) (by rw [hlone.1 rfl d rfl]; decide)

/-- **Run.**  Such a text lexes without error into tokens of arithmetic. -/
theorem tokens_arithmetic (l : Lexer) : l.Charted →
    ∃ toks : List Token, l.tokens = toks.map .ok ∧ ∀ tok ∈ toks, tok.IsArithmetic := by
  fun_induction Lexer.tokens l with
  | case1 l m h => exact fun _ => ⟨[], rfl, fun tok htok => absurd htok List.not_mem_nil⟩
  | case2 l e m h => exact fun hl => absurd h (next?_ne_error hl.chartable)
  | case3 l tok m h ih =>
    intro hl
    obtain ⟨htok, hm⟩ := hl.step h
    obtain ⟨toks, htokens, hall⟩ := ih hm
    exact ⟨tok :: toks, congrArg (Except.ok tok :: ·) htokens, List.forall_mem_cons.2 ⟨htok, hall⟩⟩

/-! ## Order -/

/-- A result that is as `good` says, or an error that is as `bad` says. -/
def Yields {ε α : Type} (good : α → Prop) (bad : ε → Prop) : Except ε α → Prop
  | .ok a => good a
  | .error e => bad e

/-- What was read into a parser is arithmetic. -/
structure Parser.Charted (p : Parser) : Prop where
  instrs : ∀ i ∈ p.instrs, i.IsArithmetic
  callee : p.callee = none
  frames : ∀ f ∈ p.frames, f.callee = none

theorem arithmetic_operations (ws : List Waiting) : ∀ i ∈ Parser.operations ws, i.IsArithmetic := by
  intro i hi
  obtain ⟨w, _, rfl⟩ := List.mem_map.1 hi
  trivial

namespace Parser.Charted
variable {p : Parser}

theorem occupy (h : p.Charted) : p.occupy.Charted := by
  refine ⟨h.instrs, h.callee, fun f hf => ?_⟩
  change f ∈ p.frames.modifyHead _ at hf
  cases hframes : p.frames with
  | nil => rw [hframes] at hf; exact absurd hf List.not_mem_nil
  | cons g rest =>
    rw [hframes, List.modifyHead_cons] at hf
    rcases List.mem_cons.1 hf with rfl | hf
    · exact h.frames g (hframes ▸ List.mem_cons_self)
    · exact h.frames f (hframes ▸ List.mem_cons_of_mem _ hf)

theorem emit (h : p.Charted) {i : Instr} (hi : i.IsArithmetic) (source : Excerpt) :
    (p.emit i source).Charted := by
  refine ⟨?_, h.callee, h.frames⟩
  rw [instrs_emit]
  exact List.forall_mem_append.2 ⟨h.instrs, List.forall_mem_singleton.2 hi⟩

theorem release (h : p.Charted) (leaves : Waiting → Bool) : (p.release leaves).Charted := by
  refine ⟨?_, h.callee, h.frames⟩
  rw [instrs_release]
  exact List.forall_mem_append.2 ⟨h.instrs, arithmetic_operations _⟩

theorem start : Parser.start.Charted :=
  ⟨fun _ hi => absurd hi List.not_mem_nil, rfl, fun _ hf => absurd hf List.not_mem_nil⟩

end Parser.Charted

/-- **Step.**  Reading a token of arithmetic keeps all arithmetic, or fails for a cause that arithmetic can have. -/
theorem arithmetic_of_read {p : Parser} {tok : Token} (hp : p.Charted) (htok : tok.IsArithmetic) :
    Yields Parser.Charted (fun e => e.cause.IsArithmetic) (p.read standardTable tok) := by
  rcases htok with hk | ⟨o, hk⟩ | hk | hk | ⟨hk, hx⟩
  · -- a number is pushed if its text is one
    cases hvalue : readFloat tok.source.text with
    | ok value =>
      have hpush : (Instr.push value).IsArithmetic := trivial
      rw [Parser.read_number hp.callee hk hvalue]
      exact hp.occupy.emit hpush tok.source
    | error cause =>
      have hread : p.read standardTable tok = .error ⟨.number cause, tok.source⟩ := by
        simp only [Parser.read, hp.callee, hk, Parser.accept, hvalue]
      rw [hread]
      trivial
  · rw [Parser.read_op hp.callee hk]
    by_cases ho : o.isSign = true
    · rw [if_pos ho]
      exact ⟨hp.occupy.instrs, hp.callee, hp.occupy.frames⟩
    · rw [if_neg ho]
      have hreleased := hp.occupy.release (Parser.bindsBefore o)
      exact ⟨hreleased.instrs, hreleased.callee, hreleased.frames⟩
  · rw [Parser.read_opening hk]
    exact ⟨hp.instrs, rfl, List.forall_mem_cons.2 ⟨hp.callee, hp.occupy.frames⟩⟩
  · -- a parenthesis closes the innermost one that is open
    cases hframes : p.frames with
    | nil =>
      have hread : p.read standardTable tok = .error ⟨.parenMismatch, tok.source⟩ := by
        simp only [Parser.read, hp.callee, hk, Parser.accept, Parser.releaseAll, Parser.release, hframes]
      rw [hread]
      trivial
    | cons f rest =>
      obtain ⟨q, hread, hcallee, hrest, _, hinstrs⟩ := Parser.read_closing hp.callee hk hframes
      have hplain : f.callee = none := hp.frames f (hframes ▸ List.mem_cons_self)
      have hending : Parser.ending f = [] := by rw [Parser.ending, hplain]
      rw [hread]
      refine ⟨?_, hcallee, fun g hg => hp.frames g (hframes ▸ List.mem_cons_of_mem _ (hrest ▸ hg))⟩
      rw [hinstrs, hending, List.append_nil]
      exact List.forall_mem_append.2 ⟨hp.instrs, arithmetic_operations _⟩
  · have hinput : standardTable.lookup tok.source.text = some (.input 0) := by rw [hx]; rfl
    have hload : (Instr.load tok.source.text).IsArithmetic := hx
    rw [Parser.read_value hp.callee hk hinput fun f => Meaning.noConfusion]
    exact hp.occupy.emit hload tok.source

/-- **Run.**  So does reading tokens of arithmetic to the end. -/
theorem arithmetic_of_readAll (toks : List Token) : ∀ {p : Parser}, p.Charted →
    (∀ tok ∈ toks, tok.IsArithmetic) →
      Yields (fun program : Program => ∀ i ∈ program.instrs, i.IsArithmetic) (fun e => e.cause.IsArithmetic)
        (p.readAll standardTable (toks.map .ok)) := by
  induction toks with
  | nil =>
    intro p hp _
    show Yields _ _ p.finish
    unfold Parser.finish
    rw [hp.callee]
    cases p.frames with
    | cons f rest => trivial
    | nil => exact (hp.release _).instrs
  | cons tok rest ih =>
    intro p hp hall
    have hfirst := arithmetic_of_read hp (hall tok List.mem_cons_self)
    rw [List.map_cons, Parser.readAll]
    cases hread : p.read standardTable tok with
    | ok q =>
      rw [hread] at hfirst
      exact ih hfirst fun t ht => hall t (List.mem_cons_of_mem _ ht)
    | error e =>
      rw [hread] at hfirst
      exact hfirst

/-! ## Runs of programs -/

/-- **Step.**  An instruction of arithmetic fails only for want of operands. -/
theorem arithmetic_of_perform {x : Float} {i : Instr} {stack : List Float} {cause : EvalCause}
    (hi : i.IsArithmetic) (h : perform [x] (standardTable.action i) stack = .error cause) :
    cause.IsArithmetic := by
  cases i with
  | push value => cases h
  | call name count => exact hi.elim
  | load name =>
    obtain rfl : name = ['x'] := hi
    cases h
  | operate o =>
    have haccepts : o.function.arity.accepts o.function.arity.min = true := by cases o <;> rfl
    rw [Table.action, perform, haccepts] at h
    rw [if_neg (by decide)] at h
    split at h
    · exact Except.error.inj h ▸ trivial
    · cases h

/-- **Run.**  So does a program of arithmetic, unless it is empty. -/
theorem arithmetic_of_performAll {x : Float} {e : EvalError} (p : Program) : ∀ {stack : List Float},
    (∀ i ∈ p.instrs, i.IsArithmetic) → performAll [x] (standardTable.link p) stack = .error e →
      e.cause.IsArithmetic := by
  induction p with
  | nil => exact fun _ h => nomatch h
  | cons step rest ih =>
    intro stack hall h
    change performAll [x] ((step, standardTable.action step.instr) :: standardTable.link rest) stack = _ at h
    rw [performAll] at h
    cases hperform : perform [x] (standardTable.action step.instr) stack with
    | ok stack' =>
      rw [hperform] at h
      exact ih (fun i hi => hall i (List.mem_cons_of_mem _ hi)) h
    | error cause =>
      rw [hperform] at h
      exact Except.error.inj h ▸ arithmetic_of_perform (hall step.instr List.mem_cons_self) hperform

theorem arithmetic_of_run {x : Float} {e : EvalError} {p : Program} (hall : ∀ i ∈ p.instrs, i.IsArithmetic)
    (h : (standardTable.link p).run [x] = .error e) : e.cause.IsArithmetic := by
  unfold Linked.run Linked.runFrom at h
  split at h
  · exact Except.error.inj h ▸ trivial
  · split at h
    · exact nomatch h
    · exact Except.error.inj h ▸ trivial
    · next hrun => exact Except.error.inj h ▸ arithmetic_of_performAll p hall hrun

/-! ## Charts -/

theorem ne_nil_of_writeFrom {k : PieceKind} {ps : List Piece} (h : ps.flatMap Piece.text ≠ []) :
    writeFrom k ps ≠ [] := by
  induction ps generalizing k with
  | nil => exact absurd rfl h
  | cons p rest ih =>
    intro hwritten
    rw [writeFrom, List.append_eq_nil_iff, List.append_eq_nil_iff] at hwritten
    rw [List.flatMap_cons, hwritten.1.2, List.nil_append] at h
    exact ih h hwritten.2

/-- A text that begins with no blank has a canonical form. -/
theorem canonical_ne_nil {t : Text} (h : t ≠ []) (ht : Unindented t) : canonical t ≠ [] := by
  obtain ⟨c, r, rfl⟩ := List.exists_cons_of_ne_nil h
  have hclean : clean (c :: r) ≠ [] := by
    have hcomma : ¬ (c = ',' ∧ (none : Option Char).any Char.isDigit = true ∧ r.head?.any Char.isDigit = true) :=
      fun hc => absurd hc.2.1 (by decide)
    have hblank : ¬ isBlank c = true := by rw [ht c rfl]; decide
    rw [clean, cleanFrom, if_neg hcomma, if_neg hblank]
    exact List.append_ne_nil_of_left_ne_nil (lowerCase_ne_nil c) _
  rw [← pieces_text (clean (c :: r))] at hclean
  exact spread_ne_nil (ne_nil_of_writeFrom hclean)

theorem firstUnchartable?_eq_none {t : Text} :
    firstUnchartable? t = none ↔ ∀ c ∈ t, isChartable c = true := by
  simp [firstUnchartable?]

/-- What is typed is refused because it is empty, because of a character, or because it does not compile. -/
theorem ofInput_cases (raw : Text) (previous : Option (Domain Float)) :
    (normalize raw = [] ∧ Chart.ofInput raw previous = .error .empty) ∨
      normalize raw ≠ [] ∧
        ((∃ c, firstUnchartable? (canonical (normalize raw)) = some c ∧
            Chart.ofInput raw previous = .error (.disallowed c)) ∨
          firstUnchartable? (canonical (normalize raw)) = none ∧
            ((∃ e, compile (canonical (normalize raw)) = .error e ∧
                Chart.ofInput raw previous = .error (.compile e)) ∨
              ∃ chart, Chart.ofInput raw previous = .ok chart)) := by
  by_cases hnormal : normalize raw = []
  · exact Or.inl ⟨hnormal, by rw [Chart.ofInput, if_pos hnormal]⟩
  refine Or.inr ⟨hnormal, ?_⟩
  have hcanonical := canonical_ne_nil hnormal (normalForm_normalize raw).unindented
  rw [Chart.ofInput]
  dsimp only
  rw [if_neg hnormal, if_neg hcanonical]
  cases hfirst : firstUnchartable? (canonical (normalize raw)) with
  | some c => exact Or.inl ⟨c, rfl, rfl⟩
  | none =>
    refine Or.inr ⟨rfl, ?_⟩
    cases hcompile : compile (canonical (normalize raw)) with
    | error e => exact Or.inl ⟨e, rfl, rfl⟩
    | ok f => exact Or.inr ⟨_, rfl⟩

/-- Putting canonical text over the alphabet in order. -/
theorem arithmetic_of_parse {t : Text} (h : ∀ c ∈ canonical t, isChartable c = true) :
    Yields (fun program : Program => ∀ i ∈ program.instrs, i.IsArithmetic) (fun e => e.cause.IsArithmetic)
      (parse standardTable (canonical t)) := by
  have hcharted : (Lexer.ofText (canonical t)).Charted := ⟨rfl, h, (separated_canonical t).loneInputs h⟩
  obtain ⟨toks, htokens, hall⟩ := tokens_arithmetic _ hcharted
  rw [parse, htokens]
  exact arithmetic_of_readAll toks .start hall

theorem arithmetic_of_compile {t : Text} {e : CompileError} (h : ∀ c ∈ canonical t, isChartable c = true)
    (he : compile (canonical t) = .error e) : e.IsArithmetic := by
  have hparse := arithmetic_of_parse h
  unfold compile at he
  split at he
  · next e' herror =>
    rw [herror] at hparse
    obtain rfl := Except.error.inj he
    exact hparse
  · next program hok =>
    rw [hok] at hparse
    dsimp only at he
    split at he
    · exact nomatch he
    · next e' heval =>
      obtain rfl := Except.error.inj he
      exact arithmetic_of_run hparse heval

/-- **The alphabet of charts.**  What is typed is refused as empty exactly if its normal form is, and for a
character exactly if its canonical form has one outside the alphabet; it is never refused without a cause.  Over
the alphabet a program is one of arithmetic in `x`, and an expression that does not compile has a number that is
none, parentheses that do not match, nothing to run, or not the right number of operands. -/
theorem ofInput_arithmetic (raw : Text) (previous : Option (Domain Float)) :
    Chart.ofInput raw previous ≠ .error .unparseable ∧
      (Chart.ofInput raw previous = .error .empty ↔ normalize raw = []) ∧
      ((∃ c, Chart.ofInput raw previous = .error (.disallowed c)) ↔
        ∃ c ∈ canonical (normalize raw), isChartable c = false) ∧
      ((∀ c ∈ canonical (normalize raw), isChartable c = true) →
        ∀ program, parse standardTable (canonical (normalize raw)) = .ok program →
          ∀ i ∈ program.instrs, i.IsArithmetic) ∧
      ∀ e, Chart.ofInput raw previous = .error (.compile e) → e.IsArithmetic := by
  have hparse : (∀ c ∈ canonical (normalize raw), isChartable c = true) →
      ∀ program, parse standardTable (canonical (normalize raw)) = .ok program →
        ∀ i ∈ program.instrs, i.IsArithmetic := by
    intro hall program hok
    have hyields := arithmetic_of_parse hall
    rw [hok] at hyields
    exact hyields
  rcases ofInput_cases raw previous with ⟨hnormal, hinput⟩ | ⟨hnormal, ⟨c, hc, hinput⟩ | ⟨hall, h⟩⟩
  · have hcanonical : canonical (normalize raw) = [] := by rw [hnormal]; cbv
    rw [hinput]
    refine ⟨by simp, by simp [hnormal], ?_, hparse, by simp⟩
    simp [hcanonical]
  · have hfound : ∃ c ∈ canonical (normalize raw), isChartable c = false :=
      ⟨c, List.mem_of_find?_eq_some hc, by simpa using List.find?_some hc⟩
    rw [hinput]
    exact ⟨by simp, by simp [hnormal], ⟨fun _ => hfound, fun _ => ⟨c, rfl⟩⟩, hparse, by simp⟩
  · have hchartable := firstUnchartable?_eq_none.1 hall
    have hnone : ¬ ∃ c ∈ canonical (normalize raw), isChartable c = false := by
      rintro ⟨c, hc, hfalse⟩
      rw [hchartable c hc] at hfalse
      exact absurd hfalse (by decide)
    rcases h with ⟨e, he, hinput⟩ | ⟨chart, hinput⟩
    · rw [hinput]
      refine ⟨by simp, by simp [hnormal], ⟨by simp, fun h => absurd h hnone⟩, hparse, fun e' he' => ?_⟩
      obtain rfl : e = e' := by simpa using he'
      exact arithmetic_of_compile hchartable he
    · rw [hinput]
      exact ⟨by simp, by simp [hnormal], ⟨by simp, fun h => absurd h hnone⟩, hparse, by simp⟩

/-- A difference without its second operand, as a program. -/
def unfinished : Program :=
  [⟨.push 2.0, 0, ['2']⟩, ⟨.load ['x'], 2, ['x']⟩, ⟨.operate .mul, 1, ['*']⟩, ⟨.operate .sub, 3, ['-']⟩]

theorem parse_unfinished : parse standardTable ['2', '*', 'x', '-'] = .ok unfinished := by
  have htokens : (Lexer.ofText ['2', '*', 'x', '-']).tokens =
      [.ok ⟨.number, 0, ['2']⟩, .ok ⟨.op .mul, 1, ['*']⟩, .ok ⟨.ident, 2, ['x']⟩,
        .ok ⟨.op .sub, 3, ['-']⟩] := by cbv
  rw [parse, htokens]
  rfl

theorem compile_unfinished : ∃ e, compile ['2', '*', 'x', '-'] = .error e :=
  ⟨_, by rw [compile, parse_unfinished]; rfl⟩

/-- `ofInput_arithmetic` for a difference without its second operand. -/
theorem ofInput_arithmetic_unfinished :
    (∀ c ∈ canonical (normalize ['2', 'x', '-']), isChartable c = true) ∧
      (∃ program, parse standardTable (canonical (normalize ['2', 'x', '-'])) = .ok program ∧
        ∀ i ∈ program.instrs, i.IsArithmetic) ∧
      ∃ e, Chart.ofInput ['2', 'x', '-'] none = .error (.compile e) ∧ e.IsArithmetic := by
  have hnormal : normalize ['2', 'x', '-'] = ['2', 'x', '-'] := by cbv
  have hcanonical : canonical (normalize ['2', 'x', '-']) = ['2', '*', 'x', '-'] := by cbv
  have hchartable : ∀ c ∈ canonical (normalize ['2', 'x', '-']), isChartable c = true :=
    firstUnchartable?_eq_none.1 (by rw [hcanonical]; decide)
  have hparse : parse standardTable (canonical (normalize ['2', 'x', '-'])) = .ok unfinished := by
    rw [hcanonical]; exact parse_unfinished
  obtain ⟨e, he⟩ := compile_unfinished
  have hinput : Chart.ofInput ['2', 'x', '-'] none = .error (.compile e) := by
    rw [Chart.ofInput]
    dsimp only
    rw [if_neg (by rw [hnormal]; simp), firstUnchartable?_eq_none.2 hchartable, hcanonical, he]
    rfl
  obtain ⟨_, _, _, hprograms, herrors⟩ := ofInput_arithmetic ['2', 'x', '-'] none
  exact ⟨hchartable, ⟨unfinished, hparse, hprograms hchartable unfinished hparse⟩, e, hinput, herrors e hinput⟩

end SignChart
