/-
  The evaluator accepts what the grammar derives, and nothing else.

  The parser does not check the order of tokens, and a run only checks that one value is left.  That this is
  enough is shown by counting: `gap` never falls from one token to the next, and it grows at each token that
  does not stand where the grammar allows it.  A program that leaves one value ends with the gap that it
  began with, so no token of it stood wrong.

  1. **Step.**  Reading a token takes a row of terminals that can still become a sum to another such row,
     or else makes the gap grow (`progress_of_read`).

  2. **Run.**  So, where the gap is at its end what it was at its beginning, all that was read is
     a beginning of a sum (`viable_of_run`); outside all parentheses it is a sum.

  3. **Both ways.**  Canonical text keeps operands apart, as counting requires, so that a canonical text
     compiles exactly if its tokens are those of a tree whose calls fit (`compile_canonical_iff`).
-/
import SignChart.Proofs.Expr.Balance
import SignChart.Proofs.Expr.Compilation
import SignChart.Proofs.Expr.Derivation
import SignChart.Proofs.Input.Separation

namespace SignChart

/-! ## Commas -/

/-- A token that is the name of a function. -/
def Token.isFunction (tok : Token) : Bool :=
  match tok.kind, standardTable.lookup tok.source.text with
  | .ident, some (.function _) => true
  | _, _ => false

/-- The parentheses that are open behind a token, the innermost first: for each whether it directly follows
the name of a function.  `named` says whether such a name stands in front of the token. -/
def opensAfter (named : Bool) (opens : List Bool) (tok : Token) : List Bool :=
  match tok.kind with
  | .openParen => named :: opens
  | .closeParen => opens.tail
  | _ => opens

/-- The innermost open parenthesis of each comma is one that directly follows the name of a function. -/
def CommasInCalls (named : Bool) (opens : List Bool) : List Token → Prop
  | [] => True
  | tok :: rest => (tok.kind = .comma → opens.head? = some true) ∧
      CommasInCalls tok.isFunction (opensAfter named opens tok) rest

instance decidableCommasInCalls : (named : Bool) → (opens : List Bool) → (toks : List Token) →
    Decidable (CommasInCalls named opens toks)
  | _, _, [] => isTrue trivial
  | named, opens, tok :: rest =>
    have := decidableCommasInCalls tok.isFunction (opensAfter named opens tok) rest
    inferInstanceAs (Decidable ((tok.kind = .comma → opens.head? = some true) ∧ _))

/-! ## States -/

/-- For each open parenthesis, the innermost first, the function whose arguments stand in it. -/
def Parser.callees (p : Parser) : List (Option Excerpt) := p.frames.map Frame.callee

/-- For each open parenthesis, the innermost first, whether it is that of a call. -/
def Parser.calls (p : Parser) : List Bool := p.callees.map Option.isSome

/-- The balance, and one more if an operand ends here. -/
def gap (p : Parser) (ended : Bool) : Int := p.balance + if ended then 1 else 0

/-- What a parser has read can still become a sum; `ended` says whether an operand ends here. -/
def Viable (p : Parser) (ended : Bool) (ts : List Terminal) : Prop :=
  match p.callee, ended with
  | some name, _ => ∃ ss, ts = ss ++ [.name name.text] ∧ Due p.calls ss
  | none, true => Complete p.calls ts
  | none, false => Due p.calls ts

/-- A parser behind a token of kind `prev`, where `ended` says whether an operand ends. -/
structure Consistent (p : Parser) (prev : Option TokenKind) (ended : Bool) : Prop where
  pending : ∀ name, p.callee = some name → IsFunction name.text ∧ ended = false
  callees : ∀ name, some name ∈ p.callees → IsFunction name.text
  ended : p.callee = none → ended = !expectsOperand prev

/-- What reading a token does. -/
structure Progress (p q : Parser) (ended : Bool) (tok : Token) : Prop where
  consistent : Consistent q (some tok.kind) tok.endsOperand
  gap_le : gap p ended ≤ gap q tok.endsOperand
  viable : ∀ ts, Viable p ended ts →
    gap p ended < gap q tok.endsOperand ∨ Viable q tok.endsOperand (ts ++ [tok.terminal])
  named : q.callee.isSome = tok.isFunction
  opens : q.calls = opensAfter p.callee.isSome p.calls tok

theorem callees_occupy (p : Parser) : p.occupy.callees = p.callees := by
  show (p.frames.modifyHead (Frame.fill 0)).map Frame.callee = p.frames.map Frame.callee
  cases p.frames <;> rfl

theorem calls_occupy (p : Parser) : p.occupy.calls = p.calls := by
  rw [Parser.calls, callees_occupy]; rfl

section
variable {p q : Parser} {prev : Option TokenKind} {ended : Bool} {tok : Token} {ts : List Terminal}

theorem viable_iff_due (hp : p.callee = none) : Viable p false ts ↔ Due p.calls ts := by
  unfold Viable
  rw [hp]

theorem viable_iff_complete (hp : p.callee = none) : Viable p true ts ↔ Complete p.calls ts := by
  unfold Viable
  rw [hp]

theorem isFunction_of_ne (h : tok.kind ≠ .ident) : tok.isFunction = false := by
  unfold Token.isFunction
  split
  · next hk _ => exact absurd hk h
  · rfl

theorem opensAfter_of_ne {named : Bool} {opens : List Bool} (ho : tok.kind ≠ .openParen)
    (hcl : tok.kind ≠ .closeParen) : opensAfter named opens tok = opens := by
  unfold opensAfter
  split
  · next hk => exact absurd hk ho
  · next hk => exact absurd hk hcl
  · rfl

theorem Consistent.of_callees (hc : Consistent p prev ended) (hq : q.callee = none)
    (hcallees : ∀ name, some name ∈ q.callees → some name ∈ p.callees)
    (hends : tok.endsOperand = !expectsOperand (some tok.kind)) :
    Consistent q (some tok.kind) tok.endsOperand :=
  ⟨fun name h => absurd (hq.symm.trans h) (by simp), fun name h => hc.callees name (hcallees name h),
    fun _ => hends⟩

theorem gap_false (p : Parser) : gap p false = p.balance := Int.add_zero _

/-- What stands right only behind an operand leaves the gap there as it is, and makes it grow elsewhere. -/
theorem gap_of_needed {after : Bool} (h : p.balance + 1 ≤ gap q after) :
    gap p ended ≤ gap q after ∧ (ended = false → gap p ended < gap q after) := by
  constructor
  · have hp : gap p ended ≤ p.balance + 1 := by rw [gap]; split <;> omega
    omega
  · rintro rfl
    rw [gap_false]
    omega

/-! ## Steps -/

/-- A token that completes an atom of its own. -/
theorem progress_atom (hc : Consistent p prev ended) (hp : p.callee = none) (hdue : ended = false)
    {i : Instr} (hi : i.gain = 1) (hk : tok.kind = .number ∨ tok.kind = .ident)
    (hends : tok.endsOperand = true) (hname : tok.isFunction = false) (a : Tree .atom)
    (ha : a.terminals = [tok.terminal]) : Progress p (p.occupy.emit i tok.source) ended tok := by
  have hq : (p.occupy.emit i tok.source).callee = none := hp
  have hcalls : (p.occupy.emit i tok.source).calls = p.calls := calls_occupy p
  subst hdue
  refine ⟨hc.of_callees hq (fun name h => callees_occupy p ▸ h) ?_, ?_, ?_, ?_, ?_⟩
  · rw [hends]
    rcases hk with h | h <;> rw [h] <;> rfl
  · rw [gap, gap, balance_emit, hi, hends]
    have hle := balance_occupy_le p
    show p.balance + 0 ≤ p.occupy.balance - 1 + 1
    omega
  · intro ts h
    right
    rw [hends, viable_iff_complete hq, hcalls, ← ha]
    exact ((viable_iff_due hp).1 h).atom a
  · rw [hname, hq]; rfl
  · rw [hcalls, opensAfter_of_ne] <;> rcases hk with h | h <;> rw [h] <;> decide

/-- The name of a value. -/
theorem progress_value (hc : Consistent p prev ended) (hp : p.callee = none) (hdue : ended = false)
    (hk : tok.kind = .ident) {m : Meaning} (hm : standardTable.lookup tok.source.text = some m)
    (hv : m.isValue = true) (a : Tree .atom) (ha : a.terminals = [.name tok.source.text])
    (hread : p.read standardTable tok = .ok q) : Progress p q ended tok := by
  have hvalue : ∀ f, m ≠ .function f := by
    rintro f rfl
    exact absurd hv Bool.false_ne_true
  have hterminal : tok.terminal = .name tok.source.text := by rw [Token.terminal, hk]; rfl
  have hname : tok.isFunction = false := by
    rw [Token.isFunction, hk, hm]
    cases m with
    | function f => exact absurd rfl (hvalue f)
    | input | constant => rfl
  rw [Parser.read_value hp hk hm hvalue] at hread
  obtain rfl := Except.ok.inj hread
  exact progress_atom hc hp hdue (gain_load hm hvalue) (Or.inr hk)
    (by rw [Token.endsOperand, hk, hm]; exact hv) hname a (by rw [ha, hterminal])

/-- The name of a function, which a parenthesis must follow. -/
theorem progress_function (hc : Consistent p prev ended) (hp : p.callee = none) (hdue : ended = false)
    (hk : tok.kind = .ident) {f : Function} (hf : standardTable.lookup tok.source.text = some (.function f)) :
    Progress p (p.named tok.source) ended tok := by
  have hends : tok.endsOperand = false := by rw [Token.endsOperand, hk, hf]; rfl
  have hcalls : (p.named tok.source).calls = p.calls := calls_occupy p
  subst hdue
  refine ⟨⟨?_, ?_, ?_⟩, ?_, ?_, ?_, ?_⟩
  · intro name h
    obtain rfl := Option.some.inj h
    exact ⟨⟨f, hf⟩, hends⟩
  · intro name h
    exact hc.callees name (callees_occupy p ▸ h)
  · intro h
    exact absurd h (by simp [Parser.named])
  · rw [gap, gap, hends]
    have hle := balance_occupy_le p
    show p.balance + 0 ≤ p.occupy.balance + 0
    omega
  · intro ts h
    right
    refine ⟨ts, ?_, ?_⟩
    · rw [Token.terminal, hk]; rfl
    · rw [hcalls]
      exact (viable_iff_due hp).1 h
  · rw [Token.isFunction, hk, hf]; rfl
  · rw [hcalls, opensAfter_of_ne] <;> rw [hk] <;> decide

theorem endsOperand_of_op {o : Operator} (hk : tok.kind = .op o) : tok.endsOperand = false := by
  rw [Token.endsOperand, hk]

theorem terminal_of_op {o : Operator} (hk : tok.kind = .op o) : tok.terminal = .op o := by
  rw [Token.terminal, hk]

/-- A sign. -/
theorem progress_sign (hc : Consistent p prev ended) (hp : p.callee = none) (hdue : ended = false)
    {o : Operator} (hk : tok.kind = .op o) (ho : o.isSign = true) :
    Progress p (p.occupy.wait ⟨o, tok.source⟩) ended tok := by
  have hsign : o = .neg ∨ o = .pos := by cases o <;> first | decide | exact absurd ho (by decide)
  have hends := endsOperand_of_op hk
  subst hdue
  refine ⟨hc.of_callees hp (fun name h => callees_occupy p ▸ h) ?_, ?_, ?_, ?_, ?_⟩
  · rw [hends, hk]; rfl
  · rw [gap, gap, balance_wait, gain_operate, ho, hends]
    have hle := balance_occupy_le p
    show p.balance + 0 ≤ p.occupy.balance - 0 + 0
    omega
  · intro ts h
    right
    rw [hends, viable_iff_due (by exact hp), terminal_of_op hk]
    have hdue := ((viable_iff_due hp).1 h).sign hsign
    exact calls_occupy p ▸ hdue
  · rw [isFunction_of_ne (by rw [hk]; simp)]
    show p.callee.isSome = false
    rw [hp]; rfl
  · rw [opensAfter_of_ne (by rw [hk]; simp) (by rw [hk]; simp)]
    exact calls_occupy p

/-- A binary operator, which stands right only behind an operand. -/
theorem progress_binary (hc : Consistent p prev ended) (hp : p.callee = none)
    {o : Operator} (hk : tok.kind = .op o) (ho : o.isSign = false) :
    Progress p ((p.occupy.release (Parser.bindsBefore o)).wait ⟨o, tok.source⟩) ended tok := by
  have hends := endsOperand_of_op hk
  -- the operator takes two operands and gives one
  have hgap : p.balance + 1 ≤
      gap ((p.occupy.release (Parser.bindsBefore o)).wait ⟨o, tok.source⟩) false := by
    rw [gap_false, balance_wait, balance_release, gain_operate, ho]
    have hle := balance_occupy_le p
    show p.balance + 1 ≤ p.occupy.balance - -1
    omega
  refine ⟨hc.of_callees hp (fun name h => callees_occupy p ▸ h) ?_, ?_, ?_, ?_, ?_⟩
  · rw [hends, hk]; rfl
  · rw [hends]
    exact (gap_of_needed hgap).1
  · intro ts h
    cases ended with
    | false =>
      left
      rw [hends]
      exact (gap_of_needed hgap).2 rfl
    | true =>
      right
      rw [hends, viable_iff_due (by exact hp), terminal_of_op hk]
      have hcomplete := ((viable_iff_complete hp).1 h).operator ho
      exact calls_occupy p ▸ hcomplete
  · rw [isFunction_of_ne (by rw [hk]; simp)]
    show p.callee.isSome = false
    rw [hp]; rfl
  · rw [opensAfter_of_ne (by rw [hk]; simp) (by rw [hk]; simp)]
    exact calls_occupy p

theorem Terminal.Proper.eq_of_kind {t : Terminal} (ht : t.Proper) :
    (t.kind = .comma → t = .comma) ∧ (t.kind = .openParen → t = .opening) ∧
      (t.kind = .closeParen → t = .closing) := by
  cases ht <;> exact ⟨fun h => by first | rfl | exact TokenKind.noConfusion h,
    fun h => by first | rfl | exact TokenKind.noConfusion h,
    fun h => by first | rfl | exact TokenKind.noConfusion h⟩

/-- A comma, which stands right only behind an argument. -/
theorem progress_comma (hc : Consistent p prev ended) (hp : p.callee = none) (hk : tok.kind = .comma)
    (hproper : tok.terminal.Proper) (hcall : p.calls.head? = some true)
    (hread : p.read standardTable tok = .ok q) : Progress p q ended tok := by
  have hends : tok.endsOperand = false := by rw [Token.endsOperand, hk]
  obtain ⟨f, rest, hf⟩ : ∃ f rest, p.frames = f :: rest := by
    cases hframes : p.frames with
    | nil => rw [Parser.calls, Parser.callees, hframes] at hcall; exact absurd hcall (by simp)
    | cons f rest => exact ⟨f, rest, rfl⟩
  have hcallee : f.callee.isSome = true := by
    rw [Parser.calls, Parser.callees, hf] at hcall
    exact Option.some.inj hcall
  obtain ⟨q', hread', hq, hframes, hwaiting, hinstrs⟩ := Parser.read_comma hp hk hf
  obtain rfl : q' = q := Except.ok.inj (hread'.symm.trans hread)
  have hcallees : q'.callees = p.callees := by
    rw [Parser.callees, Parser.callees, hframes, hf]; rfl
  have hcalls : q'.calls = true :: rest.map fun f => f.callee.isSome := by
    rw [Parser.calls, hcallees, Parser.callees, hf, List.map_cons, List.map_cons, hcallee, List.map_map]
    rfl
  have hgap : p.balance + 1 ≤ gap q' false := by
    rw [gap_false]; exact balance_comma hf hcallee hframes hwaiting hinstrs
  refine ⟨hc.of_callees hq (fun name h => hcallees ▸ h) ?_, ?_, ?_, ?_, ?_⟩
  · rw [hends, hk]; rfl
  · rw [hends]
    exact (gap_of_needed hgap).1
  · intro ts h
    cases ended with
    | false =>
      left
      rw [hends]
      exact (gap_of_needed hgap).2 rfl
    | true =>
      right
      rw [hends, viable_iff_due hq, hcalls, hproper.eq_of_kind.1 ((kind_of_terminal rfl).symm.trans hk)]
      rw [viable_iff_complete hp, Parser.calls, ← hcallees, ← Parser.calls, hcalls] at h
      exact h.comma
  · rw [isFunction_of_ne (by rw [hk]; simp), hq]; rfl
  · rw [opensAfter_of_ne (by rw [hk]; simp) (by rw [hk]; simp), Parser.calls, hcallees]; rfl

/-- An opening parenthesis, of a group or behind the name of a function. -/
theorem progress_opening (hc : Consistent p prev ended) (hdue : ended = false) (hk : tok.kind = .openParen)
    (hproper : tok.terminal.Proper) : Progress p (p.entered tok.source) ended tok := by
  have hends : tok.endsOperand = false := by rw [Token.endsOperand, hk]
  have hopening : tok.terminal = .opening := hproper.eq_of_kind.2.1 ((kind_of_terminal rfl).symm.trans hk)
  have hcallees : (p.entered tok.source).callees = p.callee :: p.callees :=
    congrArg (p.callee :: ·) (callees_occupy p)
  have hcalls : (p.entered tok.source).calls = p.callee.isSome :: p.calls :=
    congrArg (List.map Option.isSome) hcallees
  subst hdue
  refine ⟨⟨?_, ?_, ?_⟩, ?_, ?_, ?_, ?_⟩
  · intro name h
    exact absurd h (by simp [Parser.entered])
  · intro name h
    rw [hcallees] at h
    rcases List.mem_cons.1 h with h | h
    · exact (hc.pending name h.symm).1
    · exact hc.callees name h
  · intro _
    rw [hends, hk]; rfl
  · rw [gap, gap, balance_entered, hends]
    have hle := balance_occupy_le p
    show p.balance + 0 ≤ p.occupy.balance + 0
    omega
  · intro ts h
    right
    rw [hends, viable_iff_due rfl, hcalls, hopening]
    -- a group, or a call whose name was still waiting for its parenthesis
    cases hp : p.callee with
    | none => exact ((viable_iff_due hp).1 h).open opened_group
    | some name =>
      unfold Viable at h
      rw [hp] at h
      obtain ⟨ss, rfl, hdue⟩ := h
      obtain ⟨⟨f, hf⟩, _⟩ := hc.pending name hp
      have hopen := hdue.open (opened_call hf)
      rw [List.append_assoc]
      exact hopen
  · rw [isFunction_of_ne (by rw [hk]; simp)]; rfl
  · rw [hcalls, opensAfter, hk]

/-- A closing parenthesis, which stands right only behind an operand. -/
theorem progress_closing (hc : Consistent p prev ended) (hp : p.callee = none) (hk : tok.kind = .closeParen)
    (hproper : tok.terminal.Proper) (hread : p.read standardTable tok = .ok q) : Progress p q ended tok := by
  have hends : tok.endsOperand = true := by rw [Token.endsOperand, hk]
  have hclosing : tok.terminal = .closing := hproper.eq_of_kind.2.2 ((kind_of_terminal rfl).symm.trans hk)
  obtain ⟨f, rest, hf⟩ : ∃ f rest, p.frames = f :: rest := by
    cases hframes : p.frames with
    | nil =>
      simp only [Parser.read, hp, hk, Parser.accept, Parser.releaseAll, Parser.release, hframes] at hread
      exact absurd hread (by simp)
    | cons f rest => exact ⟨f, rest, rfl⟩
  obtain ⟨q', hread', hq, hframes, hwaiting, hinstrs⟩ := Parser.read_closing hp hk hf
  obtain rfl : q' = q := Except.ok.inj (hread'.symm.trans hread)
  have hcallees : p.callees = f.callee :: q'.callees := by
    rw [Parser.callees, Parser.callees, hframes, hf]; rfl
  have hcalls : p.calls = f.callee.isSome :: q'.calls := congrArg (List.map Option.isSome) hcallees
  have hbalance : q'.balance = p.balance := balance_closed hf
    (fun name h => hc.callees name (by rw [hcallees, h]; exact List.mem_cons_self)) hframes hwaiting hinstrs
  have hgap : p.balance + 1 ≤ gap q' true := by rw [gap, hbalance]; exact Int.le_refl _
  refine ⟨hc.of_callees hq (fun name h => by rw [hcallees]; exact List.mem_cons_of_mem _ h) ?_, ?_, ?_, ?_, ?_⟩
  · rw [hends, hk]; rfl
  · rw [hends]
    exact (gap_of_needed hgap).1
  · intro ts h
    cases ended with
    | false =>
      left
      rw [hends]
      exact (gap_of_needed hgap).2 rfl
    | true =>
      right
      rw [hends, viable_iff_complete hq, hclosing]
      rw [viable_iff_complete hp, hcalls] at h
      exact h.close
  · rw [isFunction_of_ne (by rw [hk]; simp), hq]; rfl
  · rw [opensAfter, hk, hcalls]; rfl

/-- Only a parenthesis may stand behind the name of a function. -/
theorem progress_called (hc : Consistent p prev ended) {name : Excerpt} (hp : p.callee = some name)
    (hproper : tok.terminal.Proper) (hread : p.read standardTable tok = .ok q) : Progress p q ended tok := by
  by_cases hk : tok.kind = .openParen
  · rw [Parser.read_opening hk] at hread
    obtain rfl := Except.ok.inj hread
    exact progress_opening hc (hc.pending name hp).2 hk hproper
  · unfold Parser.read at hread
    rw [hp] at hread
    split at hread
    · next h => exact absurd h hk
    · exact absurd hread (by simp)
    · next h _ => exact absurd h (by simp)
    · next h _ => exact absurd h (by simp)

theorem progress_number (hc : Consistent p prev ended) (hp : p.callee = none) (hdue : ended = false)
    (hk : tok.kind = .number) (hproper : tok.terminal.Proper)
    (hread : p.read standardTable tok = .ok q) : Progress p q ended tok := by
  cases hx : readFloat tok.source.text with
  | error e =>
    simp only [Parser.read, hp, hk, Parser.accept, hx] at hread
    exact absurd hread (by simp)
  | ok x =>
    rw [Parser.read_number hp hk hx] at hread
    obtain rfl := Except.ok.inj hread
    have hnumber : tok.terminal = .number tok.source.text := by rw [Token.terminal, hk]; rfl
    have hn : ∀ c ∈ tok.source.text, isNumeric c := by
      rw [hnumber] at hproper
      cases hproper with
      | number _ hn => exact hn
    exact progress_atom hc hp hdue rfl (Or.inl hk) (by rw [Token.endsOperand, hk])
      (isFunction_of_ne (by rw [hk]; simp)) (.number tok.source.text x hn hx) (by rw [hnumber]; rfl)

theorem progress_ident (hc : Consistent p prev ended) (hp : p.callee = none) (hdue : ended = false)
    (hk : tok.kind = .ident) (hread : p.read standardTable tok = .ok q) : Progress p q ended tok := by
  cases hm : standardTable.lookup tok.source.text with
  | none =>
    simp only [Parser.read, hp, hk, Parser.accept, hm] at hread
    exact absurd hread (by simp)
  | some m =>
    cases m with
    | function f =>
      rw [Parser.read_function hp hk hm] at hread
      obtain rfl := Except.ok.inj hread
      exact progress_function hc hp hdue hk hm
    | input slot => exact progress_value hc hp hdue hk hm rfl (.input tok.source.text slot hm) rfl hread
    | constant value =>
      exact progress_value hc hp hdue hk hm rfl (.constant tok.source.text value hm) rfl hread

theorem progress_op (hc : Consistent p prev ended) (hp : p.callee = none) {o : Operator}
    (hk : tok.kind = .op o) (hsigns : SignsDue prev tok.kind)
    (hread : p.read standardTable tok = .ok q) : Progress p q ended tok := by
  rw [Parser.read_op hp hk] at hread
  obtain rfl := Except.ok.inj hread
  cases ho : o.isSign with
  | true =>
    have hdue : ended = false := by rw [hc.ended hp, (hsigns o hk).1 ho]; rfl
    exact progress_sign hc hp hdue hk ho
  | false => exact progress_binary hc hp hk ho

/-- **Step.**  Reading a token makes progress, if the token is one that the lexer can give, no operand stands
side by side with it, and it is no comma outside a call. -/
theorem progress_of_read (hc : Consistent p prev ended) (hproper : tok.terminal.Proper)
    (hsigns : SignsDue prev tok.kind) (hapart : ¬ (ended = true ∧ tok.beginsOperand = true))
    (hcomma : tok.kind = .comma → p.calls.head? = some true)
    (hread : p.read standardTable tok = .ok q) : Progress p q ended tok := by
  have hdue : tok.beginsOperand = true → ended = false := by
    intro hb
    exact Bool.eq_false_iff.2 fun he => hapart ⟨he, hb⟩
  cases hp : p.callee with
  | some name => exact progress_called hc hp hproper hread
  | none =>
    cases hk : tok.kind with
    | number => exact progress_number hc hp (hdue (by rw [Token.beginsOperand, hk])) hk hproper hread
    | ident => exact progress_ident hc hp (hdue (by rw [Token.beginsOperand, hk])) hk hread
    | op o => exact progress_op hc hp hk hsigns hread
    | comma => exact progress_comma hc hp hk hproper (hcomma hk) hread
    | openParen =>
      rw [Parser.read_opening hk] at hread
      obtain rfl := Except.ok.inj hread
      exact progress_opening hc (hdue (by rw [Token.beginsOperand, hk])) hk hproper
    | closeParen => exact progress_closing hc hp hk hproper hread
    | foreign f => exact absurd ((kind_of_terminal rfl).symm.trans hk) (hproper.kind_ne f)

end

/-- **Run.**  Over a run the gap does not fall, and where it does not grow, what was read can still become a
sum. -/
theorem viable_of_run (toks : List Token) : ∀ {p q : Parser} {prev : Option TokenKind} {ended : Bool},
    Consistent p prev ended → Lexed prev toks → Apart ended toks →
      CommasInCalls p.callee.isSome p.calls toks → toks.foldlM (Parser.read standardTable) p = .ok q →
        ∃ last, gap p ended ≤ gap q last ∧ ∀ ts, Viable p ended ts → gap q last ≤ gap p ended →
          Viable q last (ts ++ toks.map Token.terminal) := by
  induction toks with
  | nil =>
    intro p q prev ended _ _ _ _ hfold
    obtain rfl := Except.ok.inj hfold
    refine ⟨ended, Int.le_refl _, fun ts hv _ => ?_⟩
    rw [List.map_nil, List.append_nil]
    exact hv
  | cons tok rest ih =>
    intro p q prev ended hc hlexed hapart hcommas hfold
    rw [List.foldlM_cons] at hfold
    cases hread : p.read standardTable tok with
    | error e => rw [hread] at hfold; exact absurd hfold (by simp [bind, Except.bind])
    | ok r =>
      rw [hread] at hfold
      obtain ⟨hproper, _, hsigns, hlexed⟩ := hlexed
      have hprogress := progress_of_read hc hproper hsigns hapart.1 hcommas.1 hread
      have hcommas' : CommasInCalls r.callee.isSome r.calls rest := by
        rw [hprogress.named, hprogress.opens]; exact hcommas.2
      obtain ⟨last, hle, hviable⟩ := ih hprogress.consistent hlexed hapart.2 hcommas' hfold
      refine ⟨last, Int.le_trans hprogress.gap_le hle, fun ts hv hback => ?_⟩
      -- the gap did not grow at this token, nor behind it
      rcases hprogress.viable ts hv with hgrow | hv
      · have := hprogress.gap_le
        omega
      · have hrest := hviable (ts ++ [tok.terminal]) hv (by have := hprogress.gap_le; omega)
        rw [List.append_assoc] at hrest
        exact hrest

/-! ## Both ways -/

/-- What compiles was parsed, and leaves one value when it is run. -/
theorem of_compile {text : Text} {f : Evaluator} (h : compile text = .ok f) :
    ∃ program y, parse standardTable text = .ok program ∧
      performAll [0.0] (standardTable.link program) [] = .ok [y] := by
  unfold compile at h
  split at h
  · exact absurd h (by simp)
  · next program hparse =>
    dsimp only at h
    split at h
    · next y heval =>
      refine ⟨program, y, hparse, ?_⟩
      change (standardTable.link program).run [0.0] = .ok y at heval
      unfold Linked.run Linked.runFrom at heval
      split at heval
      · exact absurd heval (by simp)
      · split at heval
        · next hrun => rw [hrun, Except.ok.inj heval]
        · exact absurd heval (by simp)
        · exact absurd heval (by simp)
    · exact absurd h (by simp)

/-- The parser reads no errors. -/
theorem tokens_of_readAll (l : List (Except LexError Token)) : ∀ {p : Parser} {program : Program},
    p.readAll standardTable l = .ok program → ∃ toks : List Token, l = toks.map .ok := by
  induction l with
  | nil => intro _ _ _; exact ⟨[], rfl⟩
  | cons entry rest ih =>
    intro p program h
    cases entry with
    | error e => exact absurd h (by simp [Parser.readAll])
    | ok tok =>
      rw [Parser.readAll] at h
      split at h
      · obtain ⟨toks, rfl⟩ := ih h
        exact ⟨tok :: toks, rfl⟩
      · exact absurd h (by simp)

/-- A tree fits if its postorder calls functions with as many arguments as they take. -/
theorem fits_of_calls {c : Category} (e : Tree c) : (∀ g n f, .call g n ∈ e.postorder →
    standardTable.lookup g = some (.function f) → f.arity.accepts n = true) → e.Fits := by
  induction e with
  | term a ih | factor a ih | power a ih | atom a ih | group a ih | last a ih => exact ih
  | sum o ho a b iha ihb | product o ho a b iha ihb | raise a b iha ihb =>
    intro h
    exact ⟨iha fun g n f hm => h g n f (List.mem_append_left _ (List.mem_append_left _ hm)),
      ihb fun g n f hm => h g n f (List.mem_append_left _ (List.mem_append_right _ hm))⟩
  | sign o ho a ih => exact fun h => ih fun g n f hm => h g n f (List.mem_append_left _ hm)
  | number | input | constant => exact fun _ => trivial
  | call g f hg as ih =>
    intro h
    exact ⟨h g as.count f (List.mem_append_right _ (List.mem_singleton_self _)) hg,
      ih fun g n f hm => h g n f (List.mem_append_left _ hm)⟩
  | more a as iha ihas =>
    intro h
    exact ⟨iha fun g n f hm => h g n f (List.mem_append_left _ hm),
      ihas fun g n f hm => h g n f (List.mem_append_right _ hm)⟩

theorem spells_of_lexed (toks : List Token) : ∀ {prev : Option TokenKind}, Lexed prev toks →
    Spells (toks.map fun tok => tok.source.text) (toks.map Token.terminal) := by
  induction toks with
  | nil => intro _ _; trivial
  | cons tok rest ih => intro prev h; exact ⟨h.2.1, ih h.2.2.2⟩

theorem consistent_start : Consistent Parser.start none false :=
  ⟨fun name h => absurd h (by simp [Parser.start]),
    fun name h => absurd h (by simp [Parser.start, Parser.callees]), fun _ => rfl⟩

/-- Tokens without operands side by side that compile are those of a tree. -/
theorem tree_of_run {toks : List Token} {program : Program} {y : Float} (hlexed : Lexed none toks)
    (hapart : Apart false toks) (hcommas : CommasInCalls false [] toks)
    (hparse : Parser.start.readAll standardTable (toks.map .ok) = .ok program)
    (hrun : performAll [0.0] (standardTable.link program) [] = .ok [y]) :
    ∃ e : Tree .sum, e.terminals = toks.map Token.terminal := by
  rw [Parser.readAll_map_ok] at hparse
  cases hfold : toks.foldlM (Parser.read standardTable) Parser.start with
  | error e => rw [hfold] at hparse; exact absurd hparse (by simp [Except.bind])
  | ok q =>
    rw [hfold] at hparse
    change q.finish = .ok program at hparse
    obtain ⟨last, hle, hviable⟩ := viable_of_run toks consistent_start hlexed hapart hcommas hfold
    -- nothing is open at the end, and the balance is what the one value leaves
    have hq : q.callee = none ∧ q.frames = [] ∧ q.releaseAll.output.reverse = program := by
      unfold Parser.finish at hparse
      split at hparse
      · exact absurd hparse (by simp)
      · exact absurd hparse (by simp)
      · next hcallee hframes => exact ⟨hcallee, hframes, Except.ok.inj hparse⟩
    obtain ⟨hcallee, hframes, rfl⟩ := hq
    have hbalance : q.balance = -1 := by
      obtain ⟨hlength, _⟩ := length_of_performAll _ hrun
      change (1 : Int) = 0 + gain q.releaseAll.instrs at hlength
      rw [(Parser.releaseAll_eq q).1, gain_append] at hlength
      have hsum : (q.frames.map Frame.balance).sum = 0 := by rw [hframes]; rfl
      rw [Parser.balance, hsum]
      omega
    have hstart : gap Parser.start false = 0 := rfl
    cases last with
    | false =>
      have hgap := gap_false q
      omega
    | true =>
      have hgap : gap q true = q.balance + 1 := rfl
      have hend := hviable [] due_start (by omega)
      rw [viable_iff_complete hcallee, Parser.calls, Parser.callees, hframes] at hend
      exact hend.tree

/-- **The evaluator accepts exactly the grammar.**  If in the tokens of a canonical text every comma stands
in a call, the text compiles exactly if it lexes without error into texts that spell the terminals of a
tree all of whose calls fit.  Powers are spelled with two stars there, for no other spelling is left. -/
theorem compile_canonical_iff (s : Text) (hcommas : ∀ toks : List Token,
    (Lexer.ofText (canonical s)).tokens = toks.map .ok → CommasInCalls false [] toks) :
    '^' ∉ canonical s ∧ ((∃ f, compile (canonical s) = .ok f) ↔
      ∃ (toks : List Token) (e : Tree .sum), (Lexer.ofText (canonical s)).tokens = toks.map .ok ∧
        Spells (toks.map fun tok => tok.source.text) e.terminals ∧ e.Fits) := by
  refine ⟨caret_not_mem_canonical s, ?_, ?_⟩
  -- what compiles was counted, token by token
  · rintro ⟨f, hf⟩
    obtain ⟨program, y, hparse, hrun⟩ := of_compile hf
    obtain ⟨toks, htokens⟩ := tokens_of_readAll _ hparse
    obtain ⟨_, hlexed⟩ := spaced_of_tokens toks _ rfl htokens
    have hseparated : Separated .other (Lexer.ofText (canonical s)).rest := separated_canonical s
    have hapart : Apart false toks := hseparated.apart toks rfl htokens
    have hread : Parser.start.readAll standardTable (toks.map .ok) = .ok program := by
      rw [← htokens]; exact hparse
    obtain ⟨e, he⟩ := tree_of_run hlexed hapart (hcommas toks htokens) hread hrun
    refine ⟨toks, e, htokens, he ▸ spells_of_lexed toks hlexed, fits_of_calls e ?_⟩
    -- the program that ran is the postorder of the tree, so its calls are those of the tree
    obtain ⟨program', hread', hpostorder⟩ := readAll_tree e he.symm
    obtain rfl : program' = program := Except.ok.inj (hread'.symm.trans hread)
    rw [← hpostorder]
    exact (length_of_performAll _ hrun).2
  · rintro ⟨toks, e, htokens, hspells, hfits⟩
    obtain ⟨hspaced, _⟩ := spaced_of_tokens toks _ rfl htokens
    obtain ⟨program, hparse, hpostorder⟩ := parse_of_writes ⟨_, hspells, hspaced⟩
    exact ⟨_, compile_of_parse hparse (eval_of_instrs hpostorder hfits 0.0)⟩

/-- The tree of `2*max(x,x)`. -/
def doubledMax : Tree .sum :=
  .term (timesOf (.factor factorTwo) (maxOf (.more sumX (.last sumX))))

/-- `compile_canonical_iff` at a text with an implied product and a comma in a call. -/
theorem compile_canonical_doubledMax :
    (∀ toks : List Token, (Lexer.ofText (canonical "2max(x, x)".toList)).tokens = toks.map .ok →
      CommasInCalls false [] toks) ∧ ∃ f, compile (canonical "2max(x, x)".toList) = .ok f := by
  have htokens : (Lexer.ofText (canonical "2max(x, x)".toList)).tokens =
      ([⟨.number, 0, ['2']⟩, ⟨.op .mul, 1, ['*']⟩, ⟨.ident, 2, "max".toList⟩, ⟨.openParen, 5, ['(']⟩,
        ⟨.ident, 6, ['x']⟩, ⟨.comma, 7, [',']⟩, ⟨.ident, 8, ['x']⟩, ⟨.closeParen, 9, [')']⟩] :
          List Token).map .ok := by cbv
  have hcommas : ∀ toks : List Token, (Lexer.ofText (canonical "2max(x, x)".toList)).tokens = toks.map .ok →
      CommasInCalls false [] toks := by
    intro toks h
    obtain rfl := (List.map_inj_right fun _ _ h => Except.ok.inj h).1 (htokens.symm.trans h)
    decide
  refine ⟨hcommas, (compile_canonical_iff _ hcommas).2.2 ⟨_, doubledMax, htokens, ?_, ?_⟩⟩
  · simp [doubledMax, timesOf, maxOf, sumX, atomX, factorTwo, Tree.terminals, Spells, Terminal.op,
      Terminal.name, Terminal.number, Terminal.opening, Terminal.closing, Terminal.comma, Operator.spellings]
  · simp [doubledMax, timesOf, maxOf, sumX, atomX, factorTwo, Tree.Fits, Tree.count, Arity.accepts,
      Arity.atLeast]

end SignChart
