/-
  A word in parentheses.

  Behind a star, a number or a name in parentheses compiles to the same operations as without them
  (`compile_of_enclosed`).

  1. **Places.**  What the parser does depends on the kinds and the texts of tokens and not on the places they
     stand at (`Parser.Matches.read`), so that it makes the same instructions of tokens that were moved
     (`Parser.Matches.readAll`).

  2. **Parentheses.**  An opening parenthesis, a word and a closing one leave the parser exactly as the word
     alone does, unless the name of a function stands in front of them (`readAll_of_enclosed`).  Behind an
     operator none does.

  3. **Tokens.**  A text that ends with a star is lexed by itself, whatever follows it (`behind_of_star`), and
     what follows is lexed alike behind all tokens that want the same signs (`tokens_of_rest_eq`).
-/
import SignChart.Proofs.Expr.Spelling

namespace SignChart

/-! ## Places -/

/-- The token stands at another place. -/
def Token.Moved (tok tok' : Token) : Prop := tok.kind = tok'.kind ∧ tok.source.text = tok'.source.text

/-- What of a frame does not depend on places. -/
def Frame.contents (f : Frame) : Option Text × Nat × Bool × List Operator :=
  (f.callee.map Excerpt.text, f.commas, f.empty, f.outer.map Waiting.op)

namespace Parser

/-- The states differ in places only. -/
structure Matches (p q : Parser) : Prop where
  output : p.output.map Step.instr = q.output.map Step.instr
  waiting : p.waiting.map Waiting.op = q.waiting.map Waiting.op
  frames : p.frames.map Frame.contents = q.frames.map Frame.contents
  callee : p.callee.map Excerpt.text = q.callee.map Excerpt.text

namespace Matches
variable {table : Table} {p q p' : Parser} {tok tok' : Token}

theorem refl (p : Parser) : Matches p p := ⟨rfl, rfl, rfl, rfl⟩

theorem emit (h : Matches p q) (i : Instr) (e e' : Excerpt) : Matches (p.emit i e) (q.emit i e') :=
  { h with output := congrArg (i :: ·) h.output }

/-- The frames of matching states. -/
theorem frames_cons {f : Frame} {fs : List Frame} (h : Matches p q) (hp : p.frames = f :: fs) :
    ∃ g gs, q.frames = g :: gs ∧ f.contents = g.contents ∧ fs.map Frame.contents = gs.map Frame.contents := by
  have hq := h.frames
  rw [hp, List.map_cons, eq_comm, List.map_eq_cons_iff] at hq
  obtain ⟨g, gs, hq, hg, hgs⟩ := hq
  exact ⟨g, gs, hq, hg.symm, hgs.symm⟩

theorem occupy (h : Matches p q) : Matches p.occupy q.occupy := by
  refine { h with frames := ?_ }
  show (p.frames.modifyHead _).map _ = (q.frames.modifyHead _).map _
  cases hp : p.frames with
  | nil =>
    have hq := h.frames
    rw [hp, List.map_nil, eq_comm, List.map_eq_nil_iff] at hq
    rw [hq]
  | cons f fs =>
    obtain ⟨g, gs, hq, hg, hgs⟩ := h.frames_cons hp
    simp only [Frame.contents, Prod.mk.injEq] at hg
    rw [hq]
    simp only [List.modifyHead_cons, List.map_cons, Frame.contents, hg.1, hg.2.1, hg.2.2.2, hgs]

/-- Which operators are released does not depend on places. -/
theorem release (h : Matches p q) (leaves : Operator → Bool) :
    Matches (p.release fun w => leaves w.op) (q.release fun w => leaves w.op) := by
  have hinstr : ∀ ws : List Waiting, (steps ws).map Step.instr = (ws.map Waiting.op).map Instr.operate := by
    intro ws
    rw [steps, List.map_map, List.map_map]
    rfl
  have htake : ∀ ws : List Waiting, (ws.takeWhile fun w => leaves w.op).map Waiting.op =
      (ws.map Waiting.op).takeWhile leaves := fun ws => by rw [List.takeWhile_map]; rfl
  have hdrop : ∀ ws : List Waiting, (ws.dropWhile fun w => leaves w.op).map Waiting.op =
      (ws.map Waiting.op).dropWhile leaves := fun ws => by rw [List.dropWhile_map]; rfl
  refine { h with output := ?_, waiting := ?_ }
  · show List.map _ (_ ++ p.output) = List.map _ (_ ++ q.output)
    rw [List.map_append, List.map_append, List.map_reverse, List.map_reverse, hinstr, hinstr, htake, htake,
      h.waiting, h.output]
  · show List.map _ (p.waiting.dropWhile _) = List.map _ (q.waiting.dropWhile _)
    rw [hdrop, hdrop, h.waiting]

theorem releaseAll (h : Matches p q) : Matches p.releaseAll q.releaseAll := h.release fun _ => true

theorem wait (h : Matches p q) (o : Operator) (e e' : Excerpt) : Matches (p.wait ⟨o, e⟩) (q.wait ⟨o, e'⟩) :=
  { h with waiting := congrArg (o :: ·) h.waiting }

/-- A comma makes the argument that follows it one more. -/
theorem comma {f : Frame} {fs : List Frame} (h : Matches p q) (hf : p.frames = f :: fs) :
    ∃ g gs, q.frames = g :: gs ∧ Matches { p with frames := { f with commas := f.commas + 1 } :: fs }
      { q with frames := { g with commas := g.commas + 1 } :: gs } := by
  obtain ⟨g, gs, hg, hfg, hfs⟩ := h.frames_cons hf
  simp only [Frame.contents, Prod.mk.injEq] at hfg
  refine ⟨g, gs, hg, { h with frames := ?_ }⟩
  simp only [List.map_cons, Frame.contents, hfg.1, hfg.2.1, hfg.2.2.1, hfg.2.2.2, hfs]

/-- Outside the innermost parenthesis the same operators wait, and inside it are as many arguments of the same
function. -/
theorem leave {f : Frame} {fs : List Frame} (h : Matches p q) (hf : p.frames = f :: fs) :
    ∃ g gs, q.frames = g :: gs ∧ f.callee.map Excerpt.text = g.callee.map Excerpt.text ∧ f.count = g.count ∧
      Matches { p with waiting := f.outer, frames := fs } { q with waiting := g.outer, frames := gs } := by
  obtain ⟨g, gs, hg, hfg, hfs⟩ := h.frames_cons hf
  simp only [Frame.contents, Prod.mk.injEq] at hfg
  obtain ⟨hcallee, hcommas, hempty, houter⟩ := hfg
  exact ⟨g, gs, hg, hcallee, by rw [Frame.count, Frame.count, hcommas, hempty],
    { h with waiting := houter, frames := hfs }⟩

/-- **Step.**  Matching states accept a token at two places alike. -/
theorem accept (h : Matches p q) (ht : tok.Moved tok') (hp : p.accept table tok = .ok p') :
    ∃ q', q.accept table tok' = .ok q' ∧ Matches p' q' := by
  obtain ⟨hk, htext⟩ := ht
  unfold Parser.accept at hp ⊢
  rw [← hk, ← htext]
  cases hkind : tok.kind <;> rw [hkind] at hp <;> dsimp only at hp ⊢
  case number =>
    cases hx : readFloat tok.source.text with
    | error e => rw [hx] at hp; exact absurd hp (by simp)
    | ok x =>
      rw [hx] at hp
      obtain rfl := Except.ok.inj hp
      exact ⟨_, rfl, h.emit _ _ _⟩
  case ident =>
    cases hm : table.lookup tok.source.text with
    | none => rw [hm] at hp; exact absurd hp (by simp)
    | some m =>
      rw [hm] at hp
      cases m with
      | function f =>
        obtain rfl := Except.ok.inj hp
        exact ⟨_, rfl, { h with callee := congrArg some htext }⟩
      | constant | input =>
        obtain rfl := Except.ok.inj hp
        exact ⟨_, rfl, h.emit _ _ _⟩
  case op o =>
    obtain rfl := Except.ok.inj hp
    refine ⟨_, rfl, ?_⟩
    cases o.isSign with
    | true => exact h.wait o _ _
    | false => exact (h.release fun o' => o.rank < o'.rank || (o.rank = o'.rank && o.groupsLeft)).wait o _ _
  case comma =>
    cases hf : p.releaseAll.frames with
    | nil => rw [hf] at hp; exact absurd hp (by simp)
    | cons f fs =>
      rw [hf] at hp
      obtain rfl := Except.ok.inj hp
      obtain ⟨g, gs, hg, hmatches⟩ := h.releaseAll.comma hf
      rw [hg]
      exact ⟨_, rfl, hmatches⟩
  case openParen =>
    obtain rfl := Except.ok.inj hp
    refine ⟨_, rfl, ⟨h.output, rfl, ?_, rfl⟩⟩
    simp only [List.map_cons, Frame.contents, h.callee, h.waiting, h.frames]
  case closeParen =>
    cases hf : p.releaseAll.frames with
    | nil => rw [hf] at hp; exact absurd hp (by simp)
    | cons f fs =>
      rw [hf] at hp
      obtain ⟨g, gs, hg, hcallee, hcount, hmatches⟩ := h.releaseAll.leave hf
      rw [hg]
      dsimp only at hp ⊢
      cases hc : f.callee with
      | none =>
        rw [hc] at hp hcallee
        obtain rfl := Except.ok.inj hp
        rw [Option.map_eq_none_iff.1 hcallee.symm]
        exact ⟨_, rfl, hmatches⟩
      | some name =>
        rw [hc] at hp hcallee
        obtain rfl := Except.ok.inj hp
        obtain ⟨name', hname, hname'⟩ := Option.map_eq_some_iff.1 hcallee.symm
        rw [hname]
        dsimp only
        rw [← hcount, hname']
        exact ⟨_, rfl, hmatches.emit _ _ _⟩
  case foreign => exact absurd hp (by simp)

theorem read (h : Matches p q) (ht : tok.Moved tok') (hp : p.read table tok = .ok p') :
    ∃ q', q.read table tok' = .ok q' ∧ Matches p' q' := by
  unfold Parser.read at hp ⊢
  rw [← ht.1]
  have hcallee := h.callee
  cases hc : p.callee with
  | some name =>
    rw [hc] at hcallee hp
    obtain ⟨name', hname, _⟩ := Option.map_eq_some_iff.1 hcallee.symm
    rw [hname]
    cases hkind : tok.kind with
    | openParen =>
      rw [hkind] at hp
      exact h.occupy.accept ht hp
    | _ => rw [hkind] at hp; exact absurd hp (by simp)
  | none =>
    rw [hc] at hcallee hp
    rw [Option.map_eq_none_iff.1 hcallee.symm]
    cases hkind : tok.kind with
    | closeParen =>
      rw [hkind] at hp
      exact h.accept ht hp
    | _ =>
      rw [hkind] at hp
      exact h.occupy.accept ht hp

/-- **Run.**  Tokens that were moved give the same instructions. -/
theorem readAll {toks toks' : List Token} (ht : List.Forall₂ Token.Moved toks toks') :
    ∀ {p q : Parser}, Matches p q → ∀ {program : Program}, p.readAll table (toks.map .ok) = .ok program →
      ∃ program', q.readAll table (toks'.map .ok) = .ok program' ∧ program'.instrs = program.instrs := by
  induction ht with
  | nil =>
    intro p q h program hp
    have hcallee := h.callee
    have hframes := h.frames
    rw [List.map_nil, Parser.readAll, finish] at hp ⊢
    cases hc : p.callee with
    | some name => rw [hc] at hp; exact absurd hp (by simp)
    | none =>
      cases hf : p.frames with
      | cons f fs => rw [hc, hf] at hp; exact absurd hp (by simp)
      | nil =>
        rw [hc, hf] at hp
        rw [hc, eq_comm, Option.map_none, Option.map_eq_none_iff] at hcallee
        rw [hf, eq_comm, List.map_nil, List.map_eq_nil_iff] at hframes
        obtain rfl := Except.ok.inj hp
        rw [hcallee, hframes]
        refine ⟨_, rfl, ?_⟩
        rw [Program.instrs, Program.instrs, List.map_reverse, List.map_reverse, h.releaseAll.output]
  | cons ht _ ih =>
    intro p q h program hp
    rw [List.map_cons, Parser.readAll] at hp ⊢
    split at hp
    · next p' hread =>
      obtain ⟨q', hq', h'⟩ := h.read ht hread
      rw [hq']
      exact ih h' hp
    · exact absurd hp (by simp)

end Matches

/-! ## Parentheses -/

variable {p : Parser} {op opening word closing : Token} {rest : List (Except LexError Token)} {program : Program}

theorem readAll_cons {tok : Token} (h : p.readAll standardTable (.ok tok :: rest) = .ok program) :
    ∃ q, p.read standardTable tok = .ok q ∧ q.readAll standardTable rest = .ok program := by
  rw [readAll] at h
  split at h
  · next q hq => exact ⟨q, hq, h⟩
  · exact absurd h (by simp)

theorem readAll_cons_of_read {tok : Token} {q : Parser} (hq : p.read standardTable tok = .ok q) :
    p.readAll standardTable (.ok tok :: rest) = q.readAll standardTable rest := by
  rw [readAll, hq]

/-- No function waits for its arguments behind an operator. -/
theorem callee_of_read_op {o : Operator} {q : Parser} (hk : op.kind = .op o)
    (h : p.read standardTable op = .ok q) : q.callee = none := by
  cases hp : p.callee with
  | some name => simp [read, hp, hk] at h
  | none =>
    rw [read_op hp hk] at h
    obtain rfl := Except.ok.inj h
    show (if o.isSign then p.occupy else p.occupy.release (bindsBefore o)).callee = none
    split <;> exact hp

/-- Behind an opening parenthesis a word that pushes a value, and a closing one, leave the parser as the word
alone does. -/
theorem read_closing_entered {i : Instr} {e : Excerpt} (hp : p.callee = none) (hc : closing.kind = .closeParen) :
    ((p.entered opening.source).occupy.emit i e).read standardTable closing = .ok (p.occupy.emit i e) := by
  simp only [read, entered, occupy, emit, accept, hc, hp, releaseAll, release, List.modifyHead_cons,
    List.takeWhile_nil, List.dropWhile_nil, steps, List.map_nil, List.reverse_nil, List.nil_append]

/-- **Step.**  A word in parentheses is read as the word alone. -/
theorem readAll_of_enclosed (hp : p.callee = none) (ho : opening.kind = .openParen)
    (hw : word.kind = .number ∨ word.kind = .ident) (hc : closing.kind = .closeParen)
    (h : p.readAll standardTable (.ok opening :: .ok word :: .ok closing :: rest) = .ok program) :
    p.readAll standardTable (.ok word :: rest) = .ok program := by
  rw [readAll_cons_of_read (read_opening ho)] at h
  obtain ⟨q, hword, h⟩ := readAll_cons h
  -- the word must push a value: behind the name of a function no parenthesis closes
  have hpush : ∃ i, q = (p.entered opening.source).occupy.emit i word.source ∧
      p.read standardTable word = .ok (p.occupy.emit i word.source) := by
    rcases hw with hk | hk
    · cases hx : readFloat word.source.text with
      | error e => simp [read, entered, hk, accept, hx] at hword
      | ok x =>
        rw [read_number rfl hk hx] at hword
        exact ⟨_, (Except.ok.inj hword).symm, read_number hp hk hx⟩
    · cases hm : standardTable.lookup word.source.text with
      | none => simp [read, entered, hk, accept, hm] at hword
      | some m =>
        by_cases hv : ∀ f, m ≠ .function f
        · rw [read_value rfl hk hm hv] at hword
          exact ⟨_, (Except.ok.inj hword).symm, read_value hp hk hm hv⟩
        · obtain ⟨f, hf⟩ := not_forall_not.1 hv
          rw [read_function rfl hk (hf ▸ hm)] at hword
          obtain rfl := Except.ok.inj hword
          simp [readAll, read, named, hc] at h
  obtain ⟨i, rfl, hread⟩ := hpush
  rw [readAll_cons_of_read (read_closing_entered hp hc)] at h
  rw [readAll_cons_of_read hread, h]

/-- **Run.**  So it is behind an operator, wherever that stands. -/
theorem readAll_of_enclosed_behind {o : Operator} (hop : op.kind = .op o) (ho : opening.kind = .openParen)
    (hw : word.kind = .number ∨ word.kind = .ident) (hc : closing.kind = .closeParen) (ks : List Token) :
    ∀ {p : Parser}, p.readAll standardTable
        (ks.map .ok ++ .ok op :: .ok opening :: .ok word :: .ok closing :: rest) = .ok program →
      p.readAll standardTable (ks.map .ok ++ .ok op :: .ok word :: rest) = .ok program := by
  induction ks with
  | nil =>
    intro p h
    obtain ⟨q, hq, h⟩ := readAll_cons h
    exact (readAll_cons_of_read hq).trans (readAll_of_enclosed (callee_of_read_op hop hq) ho hw hc h)
  | cons tok ks ih =>
    intro p h
    obtain ⟨q, hq, h⟩ := readAll_cons h
    exact (readAll_cons_of_read hq).trans (ih h)

end Parser

/-! ## Tokens -/

section
variable {l m l' : Lexer} {tok : Token} {c : Char} {k r w t : Text}

theorem SignsDue.congr {prev prev' : Option TokenKind} {k : TokenKind} (h : SignsDue prev k)
    (he : expectsOperand prev' = expectsOperand prev) : SignsDue prev' k := fun o ho => by
  rw [he]
  exact h o ho

/-- A run of characters ends where it must. -/
theorem head?_of_run? {kind : TokenKind} {first more : Char → Bool} (h : l.run? kind first more = some (tok, m)) :
    ∀ c ∈ m.rest.head?, more c = false := by
  unfold Lexer.run? at h
  split at h
  · exact absurd h (by simp)
  · next n hn =>
    cases hl : l.rest with
    | nil => rw [hl] at hn; exact absurd hn (by simp [Lexer.runLength])
    | cons c r =>
      rw [hl, Lexer.runLength] at hn
      split at hn
      · obtain rfl : (r.takeWhile more).length = n := Nat.succ.inj hn
        have hdrop : (r.takeWhile more ++ r.dropWhile more).drop (r.takeWhile more).length = _ :=
          List.drop_left
        rw [List.takeWhile_append_dropWhile] at hdrop
        obtain rfl := (Prod.mk.inj (Option.some.inj h)).2
        rw [Lexer.drop, hl, List.drop_succ_cons, hdrop]
        exact fun d => head?_dropWhile more r
      · exact absurd hn (by simp)

/-- A symbol is as long as it can be: a star is read alone only if no other follows it. -/
theorem not_continuedBy_of_symbolAt {prev : Option TokenKind} {n : Nat} {kind : TokenKind}
    (h : Lexer.symbolAt prev t = some (kind, n)) : ∀ c ∈ (t.drop n).head?, kind.continuedBy c = false := by
  intro c hc
  unfold Lexer.symbolAt at h
  split at h
  case h_2 r hr =>
    obtain ⟨rfl, rfl⟩ := Prod.mk.inj (Option.some.inj h)
    refine decide_eq_false fun he => ?_
    obtain ⟨u, rfl⟩ := List.head?_eq_some_iff.1 hc
    exact hr u (he ▸ rfl)
  case h_3 | h_4 =>
    obtain ⟨rfl, rfl⟩ := Prod.mk.inj (Option.some.inj h)
    split <;> rfl
  case h_18 => exact absurd h.symm (Option.some_ne_none _)
  all_goals
    obtain ⟨rfl, rfl⟩ := Prod.mk.inj (Option.some.inj h)
    rfl

/-- A token is as long as it can be. -/
theorem not_continuedBy_of_token? (h : l.token? = some (tok, m)) :
    ∀ c ∈ m.rest.head?, tok.kind.continuedBy c = false := by
  unfold Lexer.token? at h
  split at h
  · next r hr =>
    obtain rfl := Option.some.inj h
    obtain ⟨⟨k, n⟩, hsymbol, he⟩ := Option.map_eq_some_iff.1 hr
    obtain ⟨rfl, rfl⟩ := Prod.mk.inj he
    exact not_continuedBy_of_symbolAt hsymbol
  · split at h
    · next r hr =>
      obtain rfl := Option.some.inj h
      obtain ⟨_, _, rfl, _⟩ := of_run? hr
      exact head?_of_run? hr
    · obtain ⟨_, _, rfl, _⟩ := of_run? h
      exact head?_of_run? h

theorem not_continuedBy_of_next? (h : l.next? = (some (.ok tok), m)) :
    ∀ c ∈ m.rest.head?, tok.kind.continuedBy c = false := by
  unfold Lexer.next? at h
  split at h
  · exact absurd h (by simp)
  · dsimp only at h
    split at h
    · exact absurd h (by simp)
    · split at h
      · exact absurd h (by simp)
      · next tok' m' htoken =>
        split at h
        · exact absurd h (by simp)
        · obtain ⟨htok, rfl⟩ := Prod.mk.inj h
          obtain rfl := Except.ok.inj (Option.some.inj htok)
          have hstop := not_continuedBy_of_token? htoken
          exact hstop

/-- **Step.**  Where the same signs are due, the same token is read, if what follows it does not continue it
either. -/
theorem next?_of_next? (h : l.next? = (some (.ok tok), m)) (hl : l'.failed = false)
    (he : expectsOperand l'.prev = expectsOperand l.prev) {blanks : Text} (hb : ∀ c ∈ blanks, isBlank c)
    (hrest : l'.rest = blanks ++ tok.source.text ++ r) (hr : ∀ c ∈ r.head?, tok.kind.continuedBy c = false) :
    ∃ start pos, l'.next? = (some (.ok ⟨tok.kind, start, tok.source.text⟩), ⟨r, pos, some tok.kind, false⟩) := by
  obtain ⟨_, _, _, _, _, hproper, hspell, hdue⟩ := of_next? h
  have hkind : tok.kind = tok.terminal.kind := kind_of_terminal rfl
  rw [hkind] at hdue hr ⊢
  exact next?_of_spelling hl hrest hb hproper hspell (hdue.congr he) hr

/-- **Run.**  Where the same signs are due, the same text gives the same tokens. -/
theorem tokens_of_rest_eq (toks : List Token) : ∀ {l k : Lexer}, l.failed = false → k.failed = false →
    k.rest = l.rest → expectsOperand k.prev = expectsOperand l.prev → l.tokens = toks.map .ok →
      ∃ toks' : List Token, k.tokens = toks'.map .ok ∧ List.Forall₂ Token.Moved toks toks' := by
  induction toks with
  | nil =>
    intro l k hl _ hrest _ htokens
    have hblank := isBlank_of_tokens_eq_nil hl htokens
    exact ⟨[], tokens_of_blank (by rw [hrest]; exact hblank), .nil⟩
  | cons tok toks ih =>
    intro l k _ hk hrest he htokens
    obtain ⟨m, hnext, hm⟩ := of_tokens_eq_cons htokens
    obtain ⟨blanks, hb, htext, hfailed, hprev, _⟩ := of_next? hnext
    obtain ⟨start, pos, hnext'⟩ :=
      next?_of_next? hnext hk he hb (hrest.trans htext) (not_continuedBy_of_next? hnext)
    obtain ⟨toks', htokens', hmoved⟩ := ih (k := ⟨m.rest, pos, some tok.kind, false⟩) hfailed rfl rfl
      (by rw [hprev]) hm
    exact ⟨⟨tok.kind, start, tok.source.text⟩ :: toks', by rw [tokens_of_next? hnext', htokens']; rfl,
      .cons ⟨rfl, rfl⟩ hmoved⟩

/-- The lexer `m` stands behind the tokens `ks` of `l`, the last of which is an operator, and has `r` still to read. -/
structure Lexer.Behind (l : Lexer) (ks : List Token) (op : Token) (m : Lexer) (r : Text) : Prop where
  tokens : l.tokens = ks.map .ok ++ .ok op :: m.tokens
  operator : ∃ o, op.kind = .op o
  rest : m.rest = r
  prev : m.prev = some op.kind
  failed : m.failed = false

theorem Lexer.Behind.cons {ks : List Token} {op : Token} {n : Lexer} (h : l.next? = (some (.ok tok), m))
    (hm : m.Behind ks op n r) : l.Behind (tok :: ks) op n r :=
  { hm with tokens := by rw [tokens_of_next? h, hm.tokens]; rfl }

/-- A token with a star in it is that or two of them. -/
theorem eq_of_star_mem {t : Terminal} (ht : t.Proper) (hw : w ∈ t.spellings) (hstar : '*' ∈ w) :
    (w = ['*'] ∨ w = ['*', '*']) ∧ ∃ o, t.kind = .op o := by
  cases ht with
  | number _ hn =>
    obtain rfl := List.mem_singleton.1 hw
    exact absurd (hn '*' hstar) (by decide)
  | name hname =>
    obtain rfl := List.mem_singleton.1 hw
    exact absurd (isWordChar_of_isName hname '*' hstar) (by decide)
  | comma | opening | closing =>
    obtain rfl := List.mem_singleton.1 hw
    exact absurd hstar (by decide)
  | op o =>
    have hall : ∀ o : Operator, ∀ w ∈ o.spellings, '*' ∈ w → w = ['*'] ∨ w = ['*', '*'] := by
      intro o; cases o <;> decide
    exact ⟨hall o w hw hstar, o, rfl⟩

/-- A token at the front of a text that ends with a star does not go on behind the star, where no other follows. -/
theorem append_of_star {t : Terminal} {rest : Text} (ht : t.Proper) (hw : w ∈ t.spellings) (hstar : '*' ∈ k.getLast?)
    (hr : ∀ c ∈ r.head?, c ≠ '*') (h : k ++ r = w ++ rest) : ∃ k', k = w ++ k' ∧ rest = k' ++ r := by
  rcases List.append_eq_append_iff.1 h with ⟨u, hu, hru⟩ | ⟨k', hk, hrest⟩
  · cases u with
    | nil => exact ⟨[], by rw [hu, List.append_nil, List.append_nil], hru.symm⟩
    | cons c u =>
      have hwords := (eq_of_star_mem ht hw (hu ▸ List.mem_append_left _ (List.mem_of_mem_getLast? hstar))).1
      have hmem : c ∈ w := hu ▸ List.mem_append_right k List.mem_cons_self
      have hc : c = '*' := by
        rcases hwords with h | h <;> rw [h] at hmem <;> simpa using hmem
      exact absurd hc (hr c (hru ▸ rfl))
  · exact ⟨k', hk, hrest⟩

/-- A text that does not begin with a blank begins with its first token. -/
theorem rest_of_next? (h : l.next? = (some (.ok tok), m)) (hrest : l.rest = k ++ r) (hne : k ≠ [])
    (hk : ∀ c ∈ k, isBlank c = false) : l.rest = tok.source.text ++ m.rest := by
  obtain ⟨blanks, hb, htext, _⟩ := of_next? h
  cases blanks with
  | nil => exact htext
  | cons b blanks =>
    obtain ⟨c, k, rfl⟩ := List.exists_cons_of_ne_nil hne
    obtain rfl : b = c := (List.cons.inj (htext.symm.trans hrest)).1
    exact absurd ((hk b List.mem_cons_self).symm.trans (hb b List.mem_cons_self)) (by decide)

/-- The same tokens, at other places, of a text `k` that is read by another lexer. -/
def Lexer.ReadsAlike (l : Lexer) (k : Text) (ks : List Token) (op : Token) : Prop :=
  ∀ (l' : Lexer) {r' : Text}, l'.failed = false → l'.rest = k ++ r' →
    expectsOperand l'.prev = expectsOperand l.prev → (∀ c ∈ r'.head?, c ≠ '*') →
      ∃ ks' op' m', l'.Behind ks' op' m' r' ∧ List.Forall₂ Token.Moved ks ks' ∧ op.Moved op'

/-- An operator is read alike in front of all that is no star. -/
theorem Lexer.ReadsAlike.single {o : Operator} (h : l.next? = (some (.ok tok), m)) (ho : tok.kind = .op o) :
    l.ReadsAlike tok.source.text [] tok := by
  intro l' r' hl' hrest' he hr'
  have hstop : ∀ c ∈ r'.head?, tok.kind.continuedBy c = false := fun c hc => by
    refine Bool.eq_false_iff.2 fun hcontinued => ?_
    rcases continuedBy_iff.1 hcontinued with ⟨hk, _⟩ | ⟨hk, _⟩ | ⟨_, hk⟩
    · exact absurd (ho.symm.trans hk) (by simp)
    · exact absurd (ho.symm.trans hk) (by simp)
    · exact hr' c hc hk
  obtain ⟨start, pos, hnext'⟩ :=
    next?_of_next? h hl' he (fun _ hc => absurd hc List.not_mem_nil) (hrest'.trans rfl) hstop
  exact ⟨[], _, _, ⟨tokens_of_next? hnext', ⟨o, ho⟩, rfl, rfl, rfl⟩, .nil, rfl, rfl⟩

/-- A token in front of a text that is read alike. -/
theorem Lexer.ReadsAlike.cons {ks : List Token} {op : Token} (h : l.next? = (some (.ok tok), m))
    (hm : m.rest = k ++ r) (hne : k ≠ []) (hread : m.ReadsAlike k ks op) :
    l.ReadsAlike (tok.source.text ++ k) (tok :: ks) op := by
  intro l' r' hl' hrest' he hr'
  obtain ⟨_, _, _, _, hprev, _⟩ := of_next? h
  have hstop : ∀ c ∈ (k ++ r').head?, tok.kind.continuedBy c = false := by
    have hstop := not_continuedBy_of_next? h
    obtain ⟨d, u, rfl⟩ := List.exists_cons_of_ne_nil hne
    rw [hm] at hstop
    exact hstop
  obtain ⟨start, pos, hnext'⟩ := next?_of_next? h hl' he (fun _ hc => absurd hc List.not_mem_nil)
    (hrest'.trans (List.append_assoc ..)) hstop
  obtain ⟨ks', op', m', hbehind', hks, hop⟩ := hread ⟨k ++ r', pos, some tok.kind, false⟩ rfl rfl (by rw [hprev]) hr'
  exact ⟨_ :: ks', op', m', hbehind'.cons hnext', .cons ⟨rfl, rfl⟩ hks, hop⟩

/-- **Run.**  A text that ends with a star is lexed by itself, whatever follows that is no star. -/
theorem behind_of_star (toks : List Token) : ∀ {l : Lexer} {k r : Text}, l.failed = false → l.rest = k ++ r →
    l.tokens = toks.map .ok → (∀ c ∈ k, isBlank c = false) → '*' ∈ k.getLast? → (∀ c ∈ r.head?, c ≠ '*') →
      ∃ ks op m, l.Behind ks op m r ∧ l.ReadsAlike k ks op := by
  induction toks with
  | nil =>
    intro l k r hl hrest htokens hk hstar _
    have hmem : '*' ∈ l.rest := hrest ▸ List.mem_append_left r (List.mem_of_mem_getLast? hstar)
    exact absurd (isBlank_of_tokens_eq_nil hl htokens '*' hmem) (by decide)
  | cons tok toks ih =>
    intro l k r hl hrest htokens hk hstar hr
    obtain ⟨m, hnext, hm⟩ := of_tokens_eq_cons htokens
    obtain ⟨_, _, _, hfailed, hprev, hproper, hspell, _⟩ := of_next? hnext
    have hne : k ≠ [] := by rintro rfl; exact absurd hstar (by simp)
    have htext := rest_of_next? hnext hrest hne hk
    obtain ⟨k', rfl, hm'⟩ := append_of_star hproper hspell hstar hr (hrest.symm.trans htext)
    by_cases hk' : k' = []
    · subst hk'
      rw [List.append_nil] at hstar ⊢
      obtain ⟨o, ho⟩ := (eq_of_star_mem hproper hspell (List.mem_of_mem_getLast? hstar)).2
      have hop : tok.kind = .op o := (kind_of_terminal rfl).trans ho
      exact ⟨[], tok, m, ⟨tokens_of_next? hnext, ⟨o, hop⟩, hm', hprev, hfailed⟩, .single hnext hop⟩
    · have hlast : '*' ∈ k'.getLast? := by rwa [List.getLast?_append_of_ne_nil _ hk'] at hstar
      have hblank : ∀ c ∈ k', isBlank c = false := fun c hc => hk c (List.mem_append_right _ hc)
      obtain ⟨ks, op, n, hbehind, halike⟩ := ih hfailed hm' hm hblank hlast hr
      exact ⟨tok :: ks, op, n, hbehind.cons hnext, .cons hnext hm' hk' halike⟩

end

/-! ## Programs -/

section
variable {k w a : Text} {t : Terminal}

/-- A number or a name is no operator. -/
theorem ne_op_of_word {kind : TokenKind} (h : kind = .number ∨ kind = .ident) (o : Operator) : kind ≠ .op o := by
  rintro rfl
  exact absurd h (by simp)

/-- The lexer behind a word or a parenthesis that nothing continues. -/
theorem tokens_of_word {l : Lexer} (hl : l.failed = false) (ht : t.Proper) (hw : a ∈ t.spellings)
    (ho : ∀ o, t.kind ≠ .op o) (hrest : l.rest = a ++ w) (hstop : ∀ c ∈ w.head?, t.kind.continuedBy c = false) :
    ∃ start pos, l.tokens = .ok ⟨t.kind, start, a⟩ :: (Lexer.mk w pos (some t.kind) false).tokens := by
  obtain ⟨start, pos, h⟩ := next?_of_spelling hl (show l.rest = [] ++ a ++ w from hrest)
    (fun c hc => absurd hc List.not_mem_nil) ht hw (fun o h => absurd h (ho o)) hstop
  exact ⟨start, pos, tokens_of_next? h⟩

theorem tokens_of_enclosed {l : Lexer} (hl : l.failed = false) (ht : t.Proper) (hw : a ∈ t.spellings)
    (hword : t.kind = .number ∨ t.kind = .ident) (hrest : l.rest = '(' :: (a ++ ')' :: w)) :
    ∃ opening word closing pos, l.tokens = .ok opening :: .ok word :: .ok closing ::
        (Lexer.mk w pos (some .closeParen) false).tokens ∧
      opening.kind = .openParen ∧ word.kind = t.kind ∧ word.source.text = a ∧ closing.kind = .closeParen := by
  have hop := ne_op_of_word hword
  have hclose : ∀ c ∈ (')' :: w).head?, t.kind.continuedBy c = false := by
    intro c hc
    obtain rfl := Option.some.inj hc
    rcases hword with h | h <;> rw [h] <;> rfl
  obtain ⟨so, po, hopening⟩ := tokens_of_word (w := a ++ ')' :: w) hl .opening (List.mem_singleton_self _)
    (by simp [Terminal.opening]) hrest fun c _ => rfl
  obtain ⟨sw, pw, hinner⟩ := tokens_of_word (l := ⟨a ++ ')' :: w, po, some .openParen, false⟩) rfl ht hw hop rfl hclose
  obtain ⟨sc, pc, hclosing⟩ := tokens_of_word (l := ⟨')' :: w, pw, some t.kind, false⟩) (w := w) rfl .closing
    (List.mem_singleton_self _) (by simp [Terminal.closing]) rfl fun c _ => rfl
  refine ⟨⟨.openParen, so, ['(']⟩, ⟨t.kind, sw, a⟩, ⟨.closeParen, sc, [')']⟩, pc, ?_, rfl, rfl, rfl, rfl⟩
  rw [hopening]
  exact congrArg (_ :: ·) (hinner.trans (congrArg (_ :: ·) hclosing))

theorem program_link (text : Text) (p : Program) : Evaluator.program ⟨text, standardTable.link p⟩ = p := by
  show (standardTable.link p).map Prod.fst = p
  rw [Table.link, List.map_map]
  exact List.map_id p

/-- A program with the same instructions does the same. -/
theorem performAll_of_instrs_eq {inputs : List Float} (p : Program) : ∀ {q : Program} {stack stack' : List Float},
    q.instrs = p.instrs → performAll inputs (standardTable.link p) stack = .ok stack' →
      performAll inputs (standardTable.link q) stack = .ok stack' := by
  induction p with
  | nil =>
    intro q stack stack' hq h
    obtain rfl := List.map_eq_nil_iff.1 hq
    exact h
  | cons step p ih =>
    intro q stack stack' hq h
    obtain ⟨step', q, rfl, hstep, hq⟩ := List.map_eq_cons_iff.1 hq
    rw [Table.link, List.map_cons, performAll] at h ⊢
    rw [hstep]
    cases hperform : perform inputs (standardTable.action step.instr) stack with
    | error cause => rw [hperform] at h; exact absurd h (by simp)
    | ok stack => rw [hperform] at h; exact ih hq h

/-- Behind a star a word in parentheses is put in order as the word alone. -/
theorem parse_of_enclosed {program : Program} (hk : ∀ c ∈ k, isBlank c = false) (hstar : '*' ∈ k.getLast?)
    (ht : t.Proper) (ha : a ∈ t.spellings) (hword : t.kind = .number ∨ t.kind = .ident)
    (hstop : ∀ c ∈ w.head?, t.kind.continuedBy c = false)
    (h : parse standardTable (k ++ '(' :: (a ++ ')' :: w)) = .ok program) :
    ∃ program', parse standardTable (k ++ (a ++ w)) = .ok program' ∧ program'.instrs = program.instrs := by
  obtain ⟨toks, htokens⟩ := tokens_of_readAll _ h
  have hop := ne_op_of_word hword
  have hhead : ∀ c ∈ (a ++ w).head?, c ≠ '*' := by
    rintro c hc rfl
    obtain ⟨d, u, rfl, _⟩ := ht.head ha
    have hd : '*' ∈ d :: u := List.mem_of_mem_head? hc
    obtain ⟨_, o, ho⟩ := eq_of_star_mem ht ha hd
    exact hop o ho
  -- both texts in tokens, up to the star and from there on
  obtain ⟨ks, op, m, hm, halike⟩ := behind_of_star toks (l := Lexer.ofText (k ++ '(' :: (a ++ ')' :: w))) rfl rfl htokens
    hk hstar (by simp)
  obtain ⟨ks', op', m', hm', hks, hop'⟩ := halike (Lexer.ofText (k ++ (a ++ w))) rfl rfl rfl hhead
  obtain ⟨opening, word, closing, pos, henclosed, ho, hw, htext, hc⟩ :=
    tokens_of_enclosed hm.failed ht ha hword hm.rest
  obtain ⟨start', pos', hbare⟩ := tokens_of_word hm'.failed ht ha hop hm'.rest hstop
  have hall := hm.tokens
  rw [henclosed] at hall
  obtain ⟨ts, hts⟩ : ∃ ts : List Token, (Lexer.mk w pos (some .closeParen) false).tokens = ts.map .ok := by
    have happend : toks.map .ok = (ks.map .ok ++ [.ok op, .ok opening, .ok word, .ok closing]) ++
        (Lexer.mk w pos (some .closeParen) false).tokens := by
      rw [← htokens, hall, List.append_assoc]
      rfl
    obtain ⟨_, ts, _, _, hts⟩ := List.map_eq_append_iff.1 happend
    exact ⟨ts, hts.symm⟩
  have hends : expectsOperand (some t.kind) = expectsOperand (some .closeParen) := by
    rcases hword with h | h <;> rw [h] <;> rfl
  obtain ⟨ts', hts', hmoved⟩ := tokens_of_rest_eq ts (l := ⟨w, pos, some .closeParen, false⟩)
    (k := ⟨w, pos', some t.kind, false⟩) rfl rfl rfl hends hts
  -- the first is put in order without the parentheses, and then at the places of the second
  obtain ⟨o, hoperator⟩ := hm.operator
  rw [parse, hall] at h
  have hdropped := Parser.readAll_of_enclosed_behind hoperator ho (hw ▸ hword) hc ks h
  have htokens' : List.Forall₂ Token.Moved (ks ++ op :: word :: ts) (ks' ++ op' :: ⟨t.kind, start', a⟩ :: ts') :=
    List.rel_append hks (.cons hop' (.cons ⟨hw, htext⟩ hmoved))
  obtain ⟨program', hread', hinstrs⟩ := Parser.Matches.readAll htokens' (.refl .start) (show _ = Except.ok program by
    rw [List.map_append, List.map_cons, List.map_cons, ← hts]
    exact hdropped)
  refine ⟨program', ?_, hinstrs⟩
  rw [parse, hm'.tokens, hbare, hts', ← hread', List.map_append, List.map_cons, List.map_cons]

/-- **A word in parentheses.**  Behind a star a word in parentheses compiles to the same operations as the word
alone, if nothing behind it continues the word. -/
theorem compile_of_enclosed {f : Evaluator} (hk : ∀ c ∈ k, isBlank c = false) (hstar : '*' ∈ k.getLast?)
    (ht : t.Proper) (ha : t.spellings = [a]) (hword : t.kind = .number ∨ t.kind = .ident)
    (hstop : ∀ c ∈ w.head?, t.kind.continuedBy c = false)
    (hf : compile (k ++ '(' :: (a ++ ')' :: w)) = .ok f) :
    ∃ g, compile (k ++ (a ++ w)) = .ok g ∧ g.program.instrs = f.program.instrs := by
  obtain ⟨program, y, hparse, hrun⟩ := of_compile hf
  have hspell : a ∈ t.spellings := ha ▸ List.mem_singleton_self a
  obtain ⟨program', hparse', hinstrs⟩ := parse_of_enclosed hk hstar ht hspell hword hstop hparse
  have hrun' := performAll_of_instrs_eq program hinstrs hrun
  obtain rfl := Except.ok.inj (hf.symm.trans (compile_of_parse hparse (eval_of_run hrun)))
  refine ⟨_, compile_of_parse hparse' (eval_of_run hrun'), ?_⟩
  rw [program_link, program_link, hinstrs]

end

end SignChart
