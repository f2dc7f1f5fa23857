/-
  Where commas stand in a text that compiles.

  A comma outside all parentheses is an error of the parser.  In a parenthesis that is not one of a call it is
  none: the comma is counted, the count is not used, and all that it does is to complete the operand before it.
  Two operands in a row are then two values, and only the machine, which wants one value at the end, can object.  It
  does not where an operand is missing somewhere else: `(1,2)+` is compiled to 1, 2 and a sum (`comma_in_group`).

  So a comma outside a call, an operand that begins right behind another one, and an operand that is missing are
  one and the same thing to the machine, with different signs:

  1. **Step.**  `Move` says what reading a token can do.  From it, what reading does to the gap of `Acceptance` is
     not only bounded but equal to a count: an operand that is missing in front of the token makes the gap grow by one,
     a stray comma and an operand that stands behind another make it fall (`Move.account`).

  2. **Run.**  Over all tokens the counts add up (`account_of_run`).

  3. **Texts.**  A text that compiles ends with the gap it begins with, but for an operand that is missing at its very
     end.  Hence it has as many stray commas and crowded operands as missing ones (`commas_of_compile`).
-/
import SignChart.Proofs.Expr.Acceptance

namespace SignChart

/-! ## Counts -/

/-- A token that stands right only behind the end of an operand. -/
def Token.needsOperand (tok : Token) : Bool :=
  match tok.kind with
  | .op o => !o.isSign
  | .comma | .closeParen => true
  | _ => false

/-- One for a comma whose innermost open parenthesis does not directly follow the name of a function. -/
def strayAt (opens : List Bool) (tok : Token) : Nat :=
  if tok.kind = .comma ∧ opens.head? ≠ some true then 1 else 0

/-- One for an operand that begins right behind the end of another. -/
def crowdedAt (ended : Bool) (tok : Token) : Nat := (ended && tok.beginsOperand).toNat

/-- One for a token that needs an operand in front of it where none ends. -/
def missingAt (ended : Bool) (tok : Token) : Nat := (!ended && tok.needsOperand).toNat

/-- The commas outside calls. `named` and `opens` are those of `CommasInCalls`. -/
def strayCommas (named : Bool) (opens : List Bool) : List Token → Nat
  | [] => 0
  | tok :: rest => strayAt opens tok + strayCommas tok.isFunction (opensAfter named opens tok) rest

/-- The operands that begin right behind another. `ended` says whether one ends in front of the tokens. -/
def crowdedOperands (ended : Bool) : List Token → Nat
  | [] => 0
  | tok :: rest => crowdedAt ended tok + crowdedOperands tok.endsOperand rest

/-- The operands that are missing: in front of tokens that need one, and at the end. -/
def missingOperands (ended : Bool) : List Token → Nat
  | [] => (!ended).toNat
  | tok :: rest => missingAt ended tok + missingOperands tok.endsOperand rest

/-- Every comma stands inside a parenthesis. -/
def CommasEnclosed (named : Bool) (opens : List Bool) : List Token → Prop
  | [] => True
  | tok :: rest => (tok.kind = .comma → opens ≠ []) ∧
      CommasEnclosed tok.isFunction (opensAfter named opens tok) rest

theorem commasInCalls_iff (toks : List Token) : ∀ {named : Bool} {opens : List Bool},
    CommasInCalls named opens toks ↔ strayCommas named opens toks = 0 := by
  induction toks with
  | nil => exact ⟨fun _ => rfl, fun _ => trivial⟩
  | cons tok rest ih =>
    intro named opens
    have hfirst : strayAt opens tok = 0 ↔ (tok.kind = .comma → opens.head? = some true) := by
      unfold strayAt
      split
      · next h => exact ⟨fun h' => absurd h' (by decide), fun h' => absurd (h' h.1) h.2⟩
      · next h => exact ⟨fun _ hk => Decidable.byContradiction fun hne => h ⟨hk, hne⟩, fun _ => rfl⟩
    rw [CommasInCalls, strayCommas, Nat.add_eq_zero_iff, hfirst, ih]

/-! ## Frames -/

/-- A parenthesis in which nothing was read so far has no commas. -/
def Frame.Tidy (f : Frame) : Prop := f.empty = true → f.commas = 0

/-- A call owes one more argument for each of its commas; a group owes nothing. -/
theorem owed_fill {f : Frame} (h : f.Tidy) (n : Nat) :
    (f.fill n).owed = f.owed + if f.callee.isSome then (n : Int) else 0 := by
  have hcount : (f.fill n).count - 1 = f.count - 1 + n := by
    rw [Frame.count, Frame.count]
    show f.commas + n + 1 - 1 = (if f.empty = true then 0 else f.commas + 1) - 1 + n
    split
    · next hempty =>
      have := h hempty
      omega
    · omega
  show (if f.callee.isSome then (((f.fill n).count - 1 : Nat) : Int) else 0) =
    (if f.callee.isSome then ((f.count - 1 : Nat) : Int) else 0) + _
  rw [hcount]
  split <;> omega

def Parser.Tidy (p : Parser) : Prop := ∀ f ∈ p.frames, f.Tidy

theorem Parser.Tidy.occupy {p : Parser} (h : p.Tidy) : p.occupy.Tidy := by
  show ∀ f ∈ p.frames.modifyHead (Frame.fill 0), f.Tidy
  unfold Parser.Tidy at h
  cases hframes : p.frames with
  | nil => exact fun f hf => absurd hf List.not_mem_nil
  | cons f rest =>
    rw [hframes] at h
    intro g hg
    rcases List.mem_cons.1 hg with rfl | hg
    · exact fun hempty => absurd hempty Bool.false_ne_true
    · exact h g (List.mem_cons_of_mem _ hg)

/-- What the innermost parenthesis holds does not change what is owed in it. -/
theorem balance_occupy {p : Parser} (h : p.Tidy) : p.occupy.balance = p.balance := by
  have hframes : ((p.frames.modifyHead (Frame.fill 0)).map Frame.balance).sum = (p.frames.map Frame.balance).sum := by
    unfold Parser.Tidy at h
    cases hframes : p.frames with
    | nil => rfl
    | cons f rest =>
      rw [hframes] at h
      have howed := owed_fill (h f List.mem_cons_self) 0
      rw [Int.ofNat_zero, ite_self, Int.add_zero] at howed
      rw [List.modifyHead_cons, List.map_cons, List.map_cons, List.sum_cons, List.sum_cons]
      show (f.fill 0).owed - gain (Parser.operations f.outer) + _ = f.owed - gain (Parser.operations f.outer) + _
      rw [howed]
  show ((p.frames.modifyHead (Frame.fill 0)).map Frame.balance).sum - gain p.instrs -
      gain (Parser.operations p.waiting) = _
  rw [hframes]
  rfl

/-- A comma asks for one more argument in a call, and for nothing in a group. -/
theorem balance_of_comma {p q : Parser} {f : Frame} {rest : List Frame} (h : f.Tidy) (hf : p.frames = f :: rest)
    (hframes : q.frames = f.fill 1 :: rest) (hwaiting : q.waiting = [])
    (hinstrs : q.instrs = p.instrs ++ Parser.operations p.waiting) :
    q.balance = p.balance + if f.callee.isSome then 1 else 0 := by
  have howed := owed_fill h 1
  have hframe : f.balance = f.owed - gain (Parser.operations f.outer) := rfl
  have hfill : (f.fill 1).balance = (f.fill 1).owed - gain (Parser.operations f.outer) := rfl
  have hnil : gain (Parser.operations []) = 0 := rfl
  rw [Parser.balance, Parser.balance, hframes, hwaiting, hinstrs, hf, gain_append, hnil, List.map_cons,
    List.map_cons, List.sum_cons, List.sum_cons, hframe, hfill, howed, Nat.cast_one]
  omega

/-! ## Steps -/

/-- What reading a token can do, in whatever order the tokens stand. -/
inductive Move (p : Parser) (tok : Token) : Parser → Prop where
  | value {i : Instr} (hp : p.callee = none) (hk : tok.kind = .number ∨ tok.kind = .ident) (hi : i.gain = 1)
      (hends : tok.endsOperand = true) (hname : tok.isFunction = false) : Move p tok (p.occupy.emit i tok.source)
  | function (hp : p.callee = none) (hk : tok.kind = .ident) (hf : IsFunction tok.source.text) :
      Move p tok (p.named tok.source)
  | sign {o : Operator} (hp : p.callee = none) (hk : tok.kind = .op o) (ho : o.isSign = true) :
      Move p tok (p.occupy.wait ⟨o, tok.source⟩)
  | binary {o : Operator} (hp : p.callee = none) (hk : tok.kind = .op o) (ho : o.isSign = false) :
      Move p tok ((p.occupy.release (Parser.bindsBefore o)).wait ⟨o, tok.source⟩)
  | comma {q : Parser} {f : Frame} {rest : List Frame} (hp : p.callee = none) (hk : tok.kind = .comma)
      (hf : p.frames = f :: rest) (hq : q.callee = none) (hframes : q.frames = f.fill 1 :: rest)
      (hwaiting : q.waiting = []) (hinstrs : q.instrs = p.instrs ++ Parser.operations p.waiting) : Move p tok q
  | opening (hk : tok.kind = .openParen) : Move p tok (p.entered tok.source)
  | closing {q : Parser} {f : Frame} {rest : List Frame} (hp : p.callee = none) (hk : tok.kind = .closeParen)
      (hf : p.frames = f :: rest) (hq : q.callee = none) (hframes : q.frames = rest) (hwaiting : q.waiting = f.outer)
      (hinstrs : q.instrs = p.instrs ++ Parser.operations p.waiting ++ Parser.ending f) : Move p tok q

section
variable {p q : Parser} {tok : Token}

theorem move_number (hp : p.callee = none) (hk : tok.kind = .number)
    (hread : p.read standardTable tok = .ok q) : Move p tok q := by
  cases hx : readFloat tok.source.text with
  | error e =>
    simp only [Parser.read, hp, hk, Parser.accept, hx] at hread
    exact absurd hread (by simp)
  | ok x =>
    rw [Parser.read_number hp hk hx] at hread
    obtain rfl := Except.ok.inj hread
    exact .value hp (.inl hk) rfl (by rw [Token.endsOperand, hk]) (isFunction_of_ne (by rw [hk]; simp))

theorem move_ident (hp : p.callee = none) (hk : tok.kind = .ident)
    (hread : p.read standardTable tok = .ok q) : Move p tok q := by
  cases hm : standardTable.lookup tok.source.text with
  | none =>
    simp only [Parser.read, hp, hk, Parser.accept, hm] at hread
    exact absurd hread (by simp)
  | some m =>
    cases m with
    | function f =>
      rw [Parser.read_function hp hk hm] at hread
      obtain rfl := Except.ok.inj hread
      exact .function hp hk ⟨f, hm⟩
    | input | constant =>
      rw [Parser.read_value hp hk hm (by simp)] at hread
      obtain rfl := Except.ok.inj hread
      exact .value hp (.inr hk) (gain_load hm (by simp)) (by rw [Token.endsOperand, hk, hm]; rfl)
        (by rw [Token.isFunction, hk, hm])

theorem move_comma (hp : p.callee = none) (hk : tok.kind = .comma)
    (hread : p.read standardTable tok = .ok q) : Move p tok q := by
  cases hf : p.frames with
  | nil =>
    simp only [Parser.read, hp, hk, Parser.accept, Parser.releaseAll, Parser.release, Parser.occupy, hf,
      List.modifyHead_nil] at hread
    exact absurd hread (by simp)
  | cons f rest =>
    obtain ⟨q', hread', hq, hframes, hwaiting, hinstrs⟩ := Parser.read_comma hp hk hf
    obtain rfl : q' = q := Except.ok.inj (hread'.symm.trans hread)
    exact .comma hp hk hf hq hframes hwaiting hinstrs

theorem move_closing (hp : p.callee = none) (hk : tok.kind = .closeParen)
    (hread : p.read standardTable tok = .ok q) : Move p tok q := by
  cases hf : p.frames with
  | nil =>
    simp only [Parser.read, hp, hk, Parser.accept, Parser.releaseAll, Parser.release, hf] at hread
    exact absurd hread (by simp)
  | cons f rest =>
    obtain ⟨q', hread', hq, hframes, hwaiting, hinstrs⟩ := Parser.read_closing hp hk hf
    obtain rfl : q' = q := Except.ok.inj (hread'.symm.trans hread)
    exact .closing hp hk hf hq hframes hwaiting hinstrs

theorem move_of_read (hread : p.read standardTable tok = .ok q) : Move p tok q := by
  by_cases hopen : tok.kind = .openParen
  · rw [Parser.read_opening hopen] at hread
    obtain rfl := Except.ok.inj hread
    exact .opening hopen
  cases hp : p.callee with
  | some name =>
    unfold Parser.read at hread
    rw [hp] at hread
    split at hread
    · next h => exact absurd h hopen
    · exact absurd hread (by simp)
    · next h _ => exact absurd h (by simp)
    · next h _ => exact absurd h (by simp)
  | none =>
    cases hk : tok.kind with
    | number => exact move_number hp hk hread
    | ident => exact move_ident hp hk hread
    | comma => exact move_comma hp hk hread
    | openParen => exact absurd hk hopen
    | closeParen => exact move_closing hp hk hread
    | foreign k =>
      simp only [Parser.read, hp, hk, Parser.accept] at hread
      exact absurd hread (by simp)
    | op o =>
      rw [Parser.read_op hp hk] at hread
      obtain rfl := Except.ok.inj hread
      cases ho : o.isSign with
      | true => exact .sign hp hk ho
      | false => exact .binary hp hk ho

end

/-- What reading a token does to the counts. -/
structure Account (p q : Parser) (ended : Bool) (tok : Token) : Prop where
  consistent : Consistent q (some tok.kind) tok.endsOperand
  tidy : q.Tidy
  named : q.callee.isSome = tok.isFunction
  opens : q.calls = opensAfter p.callee.isSome p.calls tok
  enclosed : tok.kind = .comma → p.calls ≠ []
  gap_eq : gap q tok.endsOperand + strayAt p.calls tok + crowdedAt ended tok = gap p ended + missingAt ended tok

section
variable {p q : Parser} {prev : Option TokenKind} {ended : Bool} {tok : Token}

theorem strayAt_of_ne {opens : List Bool} (h : tok.kind ≠ .comma) : strayAt opens tok = 0 := if_neg fun h' => h h'.1

/-- A token that begins an operand uses up what ended in front of it. -/
theorem gap_eq_of_begins (hbegins : tok.beginsOperand = true) (hneeds : tok.needsOperand = false)
    (hk : tok.kind ≠ .comma) (h : gap q tok.endsOperand = p.balance) :
    gap q tok.endsOperand + strayAt p.calls tok + crowdedAt ended tok = gap p ended + missingAt ended tok := by
  rw [h, strayAt_of_ne hk, crowdedAt, missingAt, hbegins, hneeds, gap]
  cases ended <;> simp

/-- A token that needs an operand finds it in front of it, or makes up for it. -/
theorem gap_eq_of_needs (hbegins : tok.beginsOperand = false) (hneeds : tok.needsOperand = true)
    (h : gap q tok.endsOperand + strayAt p.calls tok = p.balance + 1) :
    gap q tok.endsOperand + strayAt p.calls tok + crowdedAt ended tok = gap p ended + missingAt ended tok := by
  rw [h, crowdedAt, missingAt, hbegins, hneeds, gap]
  cases ended <;> simp

theorem account_value (hc : Consistent p prev ended) (ht : p.Tidy) {i : Instr} (hp : p.callee = none)
    (hk : tok.kind = .number ∨ tok.kind = .ident) (hi : i.gain = 1) (hends : tok.endsOperand = true)
    (hname : tok.isFunction = false) : Account p (p.occupy.emit i tok.source) ended tok := by
  have hq : (p.occupy.emit i tok.source).callee = none := hp
  have hcalls : (p.occupy.emit i tok.source).calls = p.calls := calls_occupy p
  have hcomma : tok.kind ≠ .comma := by rcases hk with h | h <;> rw [h] <;> simp
  refine ⟨hc.of_callees hq (fun name h => callees_occupy p ▸ h) ?_, ht.occupy, by rw [hname, hq]; rfl, ?_,
    fun h => absurd h hcomma, gap_eq_of_begins ?_ ?_ hcomma ?_⟩
  · rw [hends]
    rcases hk with h | h <;> rw [h] <;> rfl
  · rw [hcalls, opensAfter_of_ne] <;> rcases hk with h | h <;> rw [h] <;> decide
  · rcases hk with h | h <;> rw [Token.beginsOperand, h]
  · rcases hk with h | h <;> rw [Token.needsOperand, h]
  · rw [hends, gap, balance_emit, hi, balance_occupy ht]
    exact Int.sub_add_cancel ..

theorem account_function (hc : Consistent p prev ended) (ht : p.Tidy) (hk : tok.kind = .ident)
    (hf : IsFunction tok.source.text) : Account p (p.named tok.source) ended tok := by
  obtain ⟨f, hf⟩ := hf
  have hends : tok.endsOperand = false := by rw [Token.endsOperand, hk, hf]; rfl
  have hcalls : (p.named tok.source).calls = p.calls := calls_occupy p
  have hcomma : tok.kind ≠ .comma := by rw [hk]; simp
  refine ⟨⟨?_, ?_, ?_⟩, ht.occupy, ?_, ?_, fun h => absurd h hcomma, gap_eq_of_begins ?_ ?_ hcomma ?_⟩
  · intro name h
    obtain rfl := Option.some.inj h
    exact ⟨⟨f, hf⟩, hends⟩
  · exact fun name h => hc.callees name (callees_occupy p ▸ h)
  · exact fun h => absurd h (by simp [Parser.named])
  · rw [Token.isFunction, hk, hf]; rfl
  · rw [hcalls, opensAfter_of_ne] <;> rw [hk] <;> decide
  · rw [Token.beginsOperand, hk]
  · rw [Token.needsOperand, hk]
  · rw [hends, gap_false]
    exact balance_occupy ht

theorem account_sign (hc : Consistent p prev ended) (ht : p.Tidy) (hsigns : SignsDue prev tok.kind) {o : Operator}
    (hp : p.callee = none) (hk : tok.kind = .op o) (ho : o.isSign = true) :
    Account p (p.occupy.wait ⟨o, tok.source⟩) ended tok := by
  have hends := endsOperand_of_op hk
  have hcomma : tok.kind ≠ .comma := by rw [hk]; simp
  -- a sign is lexed only where no operand ends
  obtain rfl : ended = false := by rw [hc.ended hp, (hsigns o hk).1 ho]; rfl
  refine ⟨hc.of_callees hp (fun name h => callees_occupy p ▸ h) ?_, ht.occupy, ?_, ?_, fun h => absurd h hcomma, ?_⟩
  · rw [hends, hk]; rfl
  · rw [isFunction_of_ne (by rw [hk]; simp)]
    show p.callee.isSome = false
    rw [hp]; rfl
  · rw [opensAfter_of_ne (by rw [hk]; simp) (by rw [hk]; simp)]
    exact calls_occupy p
  · have hneeds : tok.needsOperand = false := by rw [Token.needsOperand, hk]; simp [ho]
    rw [hends, strayAt_of_ne hcomma, crowdedAt, missingAt, hneeds, gap_false, gap_false, balance_wait, gain_operate, ho,
      balance_occupy ht]
    simp

theorem account_binary (hc : Consistent p prev ended) (ht : p.Tidy) {o : Operator} (hp : p.callee = none)
    (hk : tok.kind = .op o) (ho : o.isSign = false) :
    Account p ((p.occupy.release (Parser.bindsBefore o)).wait ⟨o, tok.source⟩) ended tok := by
  have hends := endsOperand_of_op hk
  have hcomma : tok.kind ≠ .comma := by rw [hk]; simp
  refine ⟨hc.of_callees hp (fun name h => callees_occupy p ▸ h) ?_, ht.occupy, ?_, ?_, fun h => absurd h hcomma,
    gap_eq_of_needs ?_ ?_ ?_⟩
  · rw [hends, hk]; rfl
  · rw [isFunction_of_ne (by rw [hk]; simp)]
    show p.callee.isSome = false
    rw [hp]; rfl
  · rw [opensAfter_of_ne (by rw [hk]; simp) (by rw [hk]; simp)]
    exact calls_occupy p
  · rw [Token.beginsOperand, hk]
  · rw [Token.needsOperand, hk]; simp [ho]
  · rw [hends, strayAt_of_ne hcomma, gap_false, balance_wait, balance_release, gain_operate, ho, balance_occupy ht]
    simp

theorem account_comma (hc : Consistent p prev ended) (ht : p.Tidy) {f : Frame} {rest : List Frame}
    (hk : tok.kind = .comma) (hf : p.frames = f :: rest) (hq : q.callee = none) (hframes : q.frames = f.fill 1 :: rest)
    (hwaiting : q.waiting = []) (hinstrs : q.instrs = p.instrs ++ Parser.operations p.waiting) :
    Account p q ended tok := by
  have hends : tok.endsOperand = false := by rw [Token.endsOperand, hk]
  have hcallees : q.callees = p.callees := by rw [Parser.callees, Parser.callees, hframes, hf]; rfl
  have hcalls : p.calls = f.callee.isSome :: rest.map fun f => f.callee.isSome := by
    rw [Parser.calls, Parser.callees, hf, List.map_map]; rfl
  have htidy : ∀ g ∈ f :: rest, g.Tidy := hf ▸ ht
  have hbalance := balance_of_comma (htidy f List.mem_cons_self) hf hframes hwaiting hinstrs
  refine ⟨hc.of_callees hq (fun name h => hcallees ▸ h) ?_, ?_, ?_, ?_, fun _ => by rw [hcalls]; simp,
    gap_eq_of_needs ?_ ?_ ?_⟩
  · rw [hends, hk]; rfl
  · intro g hg
    rw [hframes] at hg
    rcases List.mem_cons.1 hg with rfl | hg
    · exact fun hempty => absurd hempty Bool.false_ne_true
    · exact htidy g (List.mem_cons_of_mem _ hg)
  · rw [isFunction_of_ne (by rw [hk]; simp), hq]; rfl
  · rw [opensAfter_of_ne (by rw [hk]; simp) (by rw [hk]; simp), Parser.calls, hcallees]; rfl
  · rw [Token.beginsOperand, hk]
  · rw [Token.needsOperand, hk]
  · -- the comma asks for an argument, or it is a stray one
    rw [hends, gap_false, hbalance, strayAt, hcalls, hk]
    cases f.callee <;> simp

theorem account_opening (hc : Consistent p prev ended) (ht : p.Tidy) (hk : tok.kind = .openParen) :
    Account p (p.entered tok.source) ended tok := by
  have hends : tok.endsOperand = false := by rw [Token.endsOperand, hk]
  have hcomma : tok.kind ≠ .comma := by rw [hk]; simp
  have hcallees : (p.entered tok.source).callees = p.callee :: p.callees :=
    congrArg (p.callee :: ·) (callees_occupy p)
  have hcalls : (p.entered tok.source).calls = p.callee.isSome :: p.calls :=
    congrArg (List.map Option.isSome) hcallees
  refine ⟨⟨?_, ?_, ?_⟩, ?_, ?_, ?_, fun h => absurd h hcomma, gap_eq_of_begins ?_ ?_ hcomma ?_⟩
  · exact fun name h => absurd h (by simp [Parser.entered])
  · intro name h
    rw [hcallees] at h
    rcases List.mem_cons.1 h with h | h
    · exact (hc.pending name h.symm).1
    · exact hc.callees name h
  · intro _
    rw [hends, hk]; rfl
  · intro g hg
    rcases List.mem_cons.1 hg with rfl | hg
    · exact fun _ => rfl
    · exact ht.occupy g hg
  · rw [isFunction_of_ne (by rw [hk]; simp)]; rfl
  · rw [hcalls, opensAfter, hk]
  · rw [Token.beginsOperand, hk]
  · rw [Token.needsOperand, hk]
  · rw [hends, gap_false, balance_entered, balance_occupy ht]

theorem account_closing (hc : Consistent p prev ended) (ht : p.Tidy) {f : Frame} {rest : List Frame}
    (hk : tok.kind = .closeParen) (hf : p.frames = f :: rest) (hq : q.callee = none) (hframes : q.frames = rest)
    (hwaiting : q.waiting = f.outer)
    (hinstrs : q.instrs = p.instrs ++ Parser.operations p.waiting ++ Parser.ending f) : Account p q ended tok := by
  have hends : tok.endsOperand = true := by rw [Token.endsOperand, hk]
  have hcomma : tok.kind ≠ .comma := by rw [hk]; simp
  have hcallees : p.callees = f.callee :: q.callees := by
    rw [Parser.callees, Parser.callees, hframes, hf]; rfl
  have hcalls : p.calls = f.callee.isSome :: q.calls := congrArg (List.map Option.isSome) hcallees
  have htidy : ∀ g ∈ f :: rest, g.Tidy := hf ▸ ht
  have hbalance : q.balance = p.balance := balance_closed hf
    (fun name h => hc.callees name (by rw [hcallees, h]; exact List.mem_cons_self)) hframes hwaiting hinstrs
  refine ⟨hc.of_callees hq (fun name h => by rw [hcallees]; exact List.mem_cons_of_mem _ h) ?_,
    fun g hg => htidy g (List.mem_cons_of_mem _ (hframes ▸ hg)), ?_, ?_, fun h => absurd h hcomma,
    gap_eq_of_needs ?_ ?_ ?_⟩
  · rw [hends, hk]; rfl
  · rw [isFunction_of_ne (by rw [hk]; simp), hq]; rfl
  · rw [opensAfter, hk, hcalls]; rfl
  · rw [Token.beginsOperand, hk]
  · rw [Token.needsOperand, hk]
  · rw [hends, strayAt_of_ne hcomma, gap, hbalance]
    simp

/-- **Step.**  Whatever a token is and wherever it stands, the gap changes by what the counts say. -/
theorem Move.account (h : Move p tok q) (hc : Consistent p prev ended) (ht : p.Tidy)
    (hsigns : SignsDue prev tok.kind) : Account p q ended tok := by
  cases h with
  | value hp hk hi hends hname => exact account_value hc ht hp hk hi hends hname
  | function hp hk hf => exact account_function hc ht hk hf
  | sign hp hk ho => exact account_sign hc ht hsigns hp hk ho
  | binary hp hk ho => exact account_binary hc ht hp hk ho
  | comma hp hk hf hq hframes hwaiting hinstrs => exact account_comma hc ht hk hf hq hframes hwaiting hinstrs
  | opening hk => exact account_opening hc ht hk
  | closing hp hk hf hq hframes hwaiting hinstrs => exact account_closing hc ht hk hf hq hframes hwaiting hinstrs

end

/-! ## Runs -/

/-- **Run.**  Over a run the counts add up, and no comma stands outside all parentheses. -/
theorem account_of_run (toks : List Token) : ∀ {p q : Parser} {prev : Option TokenKind} {ended : Bool},
    Consistent p prev ended → p.Tidy → Lexed prev toks → toks.foldlM (Parser.read standardTable) p = .ok q →
      ∃ last, gap q last + strayCommas p.callee.isSome p.calls toks + crowdedOperands ended toks + (!last).toNat =
          gap p ended + missingOperands ended toks ∧ CommasEnclosed p.callee.isSome p.calls toks := by
  induction toks with
  | nil =>
    intro p q prev ended _ _ _ hfold
    obtain rfl := Except.ok.inj hfold
    exact ⟨ended, by rw [strayCommas, crowdedOperands, missingOperands]; simp, trivial⟩
  | cons tok rest ih =>
    intro p q prev ended hc ht hlexed hfold
    rw [List.foldlM_cons] at hfold
    cases hread : p.read standardTable tok with
    | error e => rw [hread] at hfold; exact absurd hfold (by simp [bind, Except.bind])
    | ok r =>
      rw [hread] at hfold
      obtain ⟨-, -, hsigns, hlexed⟩ := hlexed
      have haccount := (move_of_read hread).account hc ht hsigns
      obtain ⟨last, hrest, henclosed⟩ := ih haccount.consistent haccount.tidy hlexed hfold
      have hstep := haccount.gap_eq
      rw [haccount.named, haccount.opens] at hrest henclosed
      refine ⟨last, ?_, haccount.enclosed, henclosed⟩
      rw [strayCommas, crowdedOperands, missingOperands]
      push_cast
      omega

/-! ## Texts -/

theorem tidy_start : Parser.start.Tidy := fun f hf => absurd hf (by simp [Parser.start])

/-- A program that leaves one value leaves a balance of -1, with nothing open. -/
theorem balance_of_finish {q : Parser} {program : Program} {y : Float} (hfinish : q.finish = .ok program)
    (hrun : performAll [0.0] (standardTable.link program) [] = .ok [y]) : q.balance = -1 := by
  unfold Parser.finish at hfinish
  split at hfinish
  · exact absurd hfinish (by simp)
  · exact absurd hfinish (by simp)
  · next _ hframes =>
    obtain rfl := Except.ok.inj hfinish
    obtain ⟨hlength, _⟩ := length_of_performAll _ hrun
    change (1 : Int) = 0 + gain q.releaseAll.instrs at hlength
    rw [(Parser.releaseAll_eq q).1, gain_append] at hlength
    have hsum : (q.frames.map Frame.balance).sum = 0 := by rw [hframes]; rfl
    rw [Parser.balance, hsum]
    omega

/-- What is counted in the tokens of a text that compiles. -/
theorem counts_of_compile {text : Text} {f : Evaluator} (hf : compile text = .ok f) :
    ∃ toks : List Token, (Lexer.ofText text).tokens = toks.map .ok ∧ CommasEnclosed false [] toks ∧
      strayCommas false [] toks + crowdedOperands false toks = missingOperands false toks := by
  obtain ⟨program, y, hparse, hrun⟩ := of_compile hf
  obtain ⟨toks, htokens⟩ := tokens_of_readAll _ hparse
  obtain ⟨-, hlexed⟩ := spaced_of_tokens toks _ rfl htokens
  rw [parse, htokens, Parser.readAll_map_ok] at hparse
  cases hfold : toks.foldlM (Parser.read standardTable) Parser.start with
  | error e => rw [hfold] at hparse; exact absurd hparse (by simp [Except.bind])
  | ok q =>
    rw [hfold] at hparse
    obtain ⟨last, hcount, henclosed⟩ := account_of_run toks consistent_start tidy_start hlexed hfold
    have hbalance := balance_of_finish hparse hrun
    -- the end of the text needs an operand, as a comma or a parenthesis does
    have hgap : gap q last + (!last).toNat = 0 := by
      rw [gap, hbalance]
      cases last <;> rfl
    have hstart : gap Parser.start false = 0 := rfl
    refine ⟨toks, htokens, henclosed, ?_⟩
    change gap q last + strayCommas false [] toks + _ + _ = _ at hcount
    omega

/-- **Commas.**  In a text that compiles every comma stands inside a parenthesis, and there are as many commas outside
calls, together with operands that begin right behind another, as operands that are missing.  So all commas stand in
calls exactly when no more operands are missing than are crowded. -/
theorem commas_of_compile {text : Text} {f : Evaluator} (hf : compile text = .ok f) :
    ∃ toks : List Token, (Lexer.ofText text).tokens = toks.map .ok ∧ CommasEnclosed false [] toks ∧
      strayCommas false [] toks + crowdedOperands false toks = missingOperands false toks ∧
      (CommasInCalls false [] toks ↔ missingOperands false toks = crowdedOperands false toks) := by
  obtain ⟨toks, htokens, henclosed, hcounts⟩ := counts_of_compile hf
  refine ⟨toks, htokens, henclosed, hcounts, ?_⟩
  rw [commasInCalls_iff]
  omega

/-! ### A comma in a group -/

/-- Two operands in a group, and an operator that lacks one. -/
def pairSum : Text := "(1,2)+".toList

theorem tokens_pairSum : (Lexer.ofText pairSum).tokens =
    ([⟨.openParen, 0, ['(']⟩, ⟨.number, 1, ['1']⟩, ⟨.comma, 2, [',']⟩, ⟨.number, 3, ['2']⟩,
      ⟨.closeParen, 4, [')']⟩, ⟨.op .add, 5, ['+']⟩] : List Token).map .ok := by cbv

theorem compile_pairSum : ∃ f, compile pairSum = .ok f := by
  have hparse : parse standardTable pairSum = .ok
      [⟨.push 1.0, 1, ['1']⟩, ⟨.push 2.0, 3, ['2']⟩, ⟨.operate .add, 5, ['+']⟩] := by
    rw [parse, tokens_pairSum]; rfl
  exact ⟨_, by rw [compile, hparse]; rfl⟩

/-- **A comma outside a call in a text that compiles.** -/
theorem comma_in_group : ∃ (f : Evaluator) (toks : List Token), compile pairSum = .ok f ∧
    (Lexer.ofText pairSum).tokens = toks.map .ok ∧ ¬ CommasInCalls false [] toks := by
  obtain ⟨f, hf⟩ := compile_pairSum
  exact ⟨f, _, hf, tokens_pairSum, by decide⟩

/-- `commas_of_compile` at the same text. -/
theorem commas_of_compile_pairSum : ∃ f, compile pairSum = .ok f ∧
    ∃ toks : List Token, (Lexer.ofText pairSum).tokens = toks.map .ok ∧ CommasEnclosed false [] toks ∧
      strayCommas false [] toks + crowdedOperands false toks = missingOperands false toks ∧
      (CommasInCalls false [] toks ↔ missingOperands false toks = crowdedOperands false toks) := by
  obtain ⟨f, hf⟩ := compile_pairSum
  exact ⟨f, hf, commas_of_compile hf⟩

end SignChart
