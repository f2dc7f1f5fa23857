/-
  Putting the tokens of a tree into postfix order.

  A parser that reads the terminals of a tree emits the tree's postorder, up to some operators that it still
  keeps waiting.  Which ones those can be depends on the category alone: none binds looser than
  `Category.floor`.  And which ones may wait before it, without being released too early, does as well: those
  that bind looser than `Category.ceiling`.  `Reads` is this contract for a row of terminals.

  1. **Steps.**  What `Parser.read` does at each kind of token, when no function name is pending.

  2. **Rules.**  One lemma for each shape of a rule of the grammar: the contract of the whole from the
     contracts of its parts (`Reads.binary`, `Reads.sign`, `Reads.group`, `Reads.call`, `Reads.more`).

  3. **Trees.**  So every tree keeps its contract (`Tree.reads`), and a whole sum, with nothing before it and
     everything released at its end, becomes its postorder (`readAll_tree`).
-/
import SignChart.Proofs.Expr.Lexing

namespace SignChart

/-- A frame that now holds something, with more commas. -/
def Frame.fill (commas : Nat) (f : Frame) : Frame :=
  { f with commas := f.commas + commas, empty := false }

/-! ## Steps -/

namespace Parser

/-- The instructions so far, the first one first. -/
def instrs (p : Parser) : List Instr := p.output.reverse.map Step.instr

/-- The instructions of waiting operators. -/
def operations (ws : List Waiting) : List Instr := ws.map fun w => .operate w.op

theorem operations_concat (ws : List Waiting) (w : Waiting) :
    operations (ws ++ [w]) = operations ws ++ [.operate w.op] := by
  rw [operations, List.map_append]; rfl

theorem instrs_emit (p : Parser) (i : Instr) (source : Excerpt) :
    (p.emit i source).instrs = p.instrs ++ [i] := by
  simp [instrs, emit]

/-- The operators that leave the stack are written in the order in which they leave. -/
theorem instrs_release (p : Parser) (leaves : Waiting → Bool) :
    (p.release leaves).instrs = p.instrs ++ operations (p.waiting.takeWhile leaves) := by
  simp [instrs, release, operations, steps, Function.comp_def]

/-- At the end of a group all operators in it leave. -/
theorem releaseAll_eq (p : Parser) :
    p.releaseAll.instrs = p.instrs ++ operations p.waiting ∧ p.releaseAll.waiting = [] := by
  have hall : ∀ ws : List Waiting,
      ws.takeWhile (fun _ => true) = ws ∧ ws.dropWhile (fun _ => true) = [] := by
    intro ws
    induction ws with
    | nil => exact ⟨rfl, rfl⟩
    | cons w rest ih => exact ⟨congrArg (w :: ·) ih.1, ih.2⟩
  refine ⟨?_, (hall p.waiting).2⟩
  rw [releaseAll, instrs_release, (hall p.waiting).1]

variable {p : Parser} {tok : Token}

/-- A number is written at once. -/
theorem read_number {x : Float} (hp : p.callee = none) (hk : tok.kind = .number)
    (hx : readFloat tok.source.text = .ok x) :
    p.read standardTable tok = .ok (p.occupy.emit (.push x) tok.source) := by
  simp only [read, hp, hk, accept, hx]

/-- A name of a value is written at once. -/
theorem read_value {m : Meaning} (hp : p.callee = none) (hk : tok.kind = .ident)
    (hm : standardTable.lookup tok.source.text = some m) (hv : ∀ f, m ≠ .function f) :
    p.read standardTable tok = .ok (p.occupy.emit (.load tok.source.text) tok.source) := by
  cases m with
  | function f => exact absurd rfl (hv f)
  | input | constant => simp only [read, hp, hk, accept, hm]

/-- The parser behind the name of a function. -/
def named (p : Parser) (name : Excerpt) : Parser := { p.occupy with callee := some name }

/-- A function waits for its parenthesis. -/
theorem read_function {f : Function} (hp : p.callee = none) (hk : tok.kind = .ident)
    (hf : standardTable.lookup tok.source.text = some (.function f)) :
    p.read standardTable tok = .ok (p.named tok.source) := by
  simp only [read, hp, hk, accept, hf, named]

/-- The parser with one more operator that waits. -/
def wait (p : Parser) (w : Waiting) : Parser := { p with waiting := w :: p.waiting }

/-- A sign waits; a binary operator waits as well, once the operators that bind before it have left. -/
theorem read_op {o : Operator} (hp : p.callee = none) (hk : tok.kind = .op o) :
    p.read standardTable tok =
      .ok ((if o.isSign then p.occupy else p.occupy.release (bindsBefore o)).wait ⟨o, tok.source⟩) := by
  simp only [read, hp, hk, accept, wait]

/-- A binary operator releases what binds before it. -/
theorem read_binary {o : Operator} {pend ws : List Waiting} (hp : p.callee = none) (hk : tok.kind = .op o)
    (ho : o.isSign = false) (hw : p.waiting = pend ++ ws) (hpend : ∀ w ∈ pend, bindsBefore o w = true)
    (hws : ∀ w ∈ ws.head?, bindsBefore o w = false) :
    ∃ q, p.read standardTable tok = .ok q ∧ q.callee = none ∧
      q.frames = p.frames.modifyHead (Frame.fill 0) ∧ q.waiting = ⟨o, tok.source⟩ :: ws ∧
      q.instrs = p.instrs ++ operations pend := by
  obtain ⟨htake, hdrop⟩ := takeWhile_append_of_stop hpend hws
  refine ⟨_, read_op hp hk, ?_⟩
  rw [ho]
  refine ⟨hp, rfl, ?_, ?_⟩
  · show ⟨o, tok.source⟩ :: p.waiting.dropWhile (bindsBefore o) = _
    rw [hw, hdrop]
  · show (p.occupy.release (bindsBefore o)).instrs = _
    rw [instrs_release]
    show p.instrs ++ operations (p.waiting.takeWhile (bindsBefore o)) = _
    rw [hw, htake]

/-- The parser behind an opening parenthesis. -/
def entered (p : Parser) (opened : Excerpt) : Parser :=
  { p.occupy with
    waiting := []
    frames := ⟨opened, p.callee, 0, true, p.waiting⟩ :: p.occupy.frames
    callee := none }

/-- A parenthesis puts aside the operators that wait. -/
theorem read_opening (hk : tok.kind = .openParen) :
    p.read standardTable tok = .ok (p.entered tok.source) := by
  cases hp : p.callee <;> simp only [read, hp, hk, accept, occupy, entered]

/-- A comma ends an argument, and is counted. -/
theorem read_comma {f : Frame} {rest : List Frame} (hp : p.callee = none) (hk : tok.kind = .comma)
    (hf : p.frames = f :: rest) :
    ∃ q, p.read standardTable tok = .ok q ∧ q.callee = none ∧ q.frames = f.fill 1 :: rest ∧
      q.waiting = [] ∧ q.instrs = p.instrs ++ operations p.waiting := by
  refine ⟨{ p.releaseAll with frames := f.fill 1 :: rest }, ?_, hp, rfl, ?_, ?_⟩
  · simp only [read, hp, hk, accept, releaseAll, release, occupy, hf, List.modifyHead_cons]
    rfl
  · exact (releaseAll_eq p).2
  · exact (releaseAll_eq p).1

/-- What the parenthesis of a frame adds where it closes: a call if there is a function before it. -/
def ending (f : Frame) : List Instr :=
  match f.callee with
  | some name => [.call name.text f.count]
  | none => []

/-- A closing parenthesis ends the last argument and brings back what was put aside. -/
theorem read_closing {f : Frame} {rest : List Frame} (hp : p.callee = none) (hk : tok.kind = .closeParen)
    (hf : p.frames = f :: rest) :
    ∃ q, p.read standardTable tok = .ok q ∧ q.callee = none ∧ q.frames = rest ∧
      q.waiting = f.outer ∧ q.instrs = p.instrs ++ operations p.waiting ++ ending f := by
  obtain ⟨hinstrs, _⟩ := releaseAll_eq p
  have hread : p.read standardTable tok = .ok (
      let q : Parser := { p.releaseAll with waiting := f.outer, frames := rest }
      match f.callee with
      | some name => q.emit (.call name.text f.count) name
      | none => q) := by
    simp only [read, hp, hk, accept, releaseAll, release, hf]
    cases f.callee <;> rfl
  refine ⟨_, hread, ?_⟩
  rw [ending]
  cases f.callee with
  | none => exact ⟨hp, rfl, rfl, by rw [List.append_nil]; exact hinstrs⟩
  | some name =>
    refine ⟨hp, rfl, rfl, ?_⟩
    dsimp only
    rw [instrs_emit]
    exact congrArg (· ++ _) hinstrs

end Parser

/-! ## The contract -/

/-- No operator that a tree of this category leaves waiting has a lower rank. -/
def Category.floor : Category → Nat
  | .sum | .arguments => 2
  | .term => 3
  | .factor | .power => 4
  | .atom => 6

/-- A tree of this category may be read while an operator of a lower rank waits. -/
def Category.ceiling : Category → Nat
  | .sum | .arguments => 2
  | .term => 3
  | .factor | .power | .atom => 6

/-- A parser `q` that has read, from `p` on, what adds the instructions `instrs` and leaves the operators `pend`
waiting. -/
structure Completed (c : Category) (instrs : List Instr) (commas : Nat) (p q : Parser)
    (pend : List Waiting) : Prop where
  callee : q.callee = none
  frames : q.frames = p.frames.modifyHead (Frame.fill commas)
  waiting : q.waiting = pend ++ p.waiting
  floor : ∀ w ∈ pend, c.floor ≤ w.op.rank
  instrs : q.instrs ++ Parser.operations pend = p.instrs ++ instrs

/-- Tokens that spell `ts`, with a number of commas outside all parentheses, add the instructions
`instrs`. -/
def Reads (c : Category) (ts : List Terminal) (instrs : List Instr) (commas : Nat) : Prop :=
  ∀ (p : Parser) (toks : List Token), toks.map Token.terminal = ts → p.callee = none →
    (∀ w ∈ p.waiting.head?, w.op.rank < c.ceiling) → (0 < commas → p.frames ≠ []) →
      ∃ q pend, toks.foldlM (Parser.read standardTable) p = .ok q ∧ Completed c instrs commas p q pend

/-- The rule that a tree of category `c` is one of category `c₁`, the operator `o`, and one of category `c₂`.
The operator releases all that the left operand leaves waiting and nothing before it. -/
structure Joins (c₁ : Category) (o : Operator) (c₂ c : Category) : Prop where
  binary : o.isSign = false
  releases : ∀ w : Waiting, c₁.floor ≤ w.op.rank → Parser.bindsBefore o w = true
  keeps : ∀ w : Waiting, w.op.rank < c.ceiling → Parser.bindsBefore o w = false
  left : c.ceiling ≤ c₁.ceiling
  right : o.rank < c₂.ceiling
  floor : c.floor ≤ o.rank ∧ c.floor ≤ c₂.floor

theorem Operator.two_le_rank (o : Operator) : 2 ≤ o.rank := by cases o <;> decide

/-- An operator leaves in front of one of lower rank, or of the same rank if that groups to the left. -/
theorem Parser.bindsBefore_iff {o : Operator} {w : Waiting} :
    Parser.bindsBefore o w = true ↔ o.rank < w.op.rank ∨ o.rank = w.op.rank ∧ o.groupsLeft = true := by
  simp [Parser.bindsBefore]

/-- Joined from the left by an operator of its own rank, as sums and terms are. -/
theorem joins_left {c c₂ : Category} {o : Operator} (hs : o.isSign = false) (hg : o.groupsLeft = true)
    (hfloor : c.floor = o.rank) (hceiling : c.ceiling = o.rank) (hright : o.rank < c₂.ceiling)
    (hf₂ : o.rank ≤ c₂.floor) : Joins c o c₂ c := by
  refine ⟨hs, fun w hw => ?_, fun w hw => ?_, Nat.le_refl _, hright, by omega, by omega⟩
  · rw [Parser.bindsBefore_iff]
    rcases Nat.lt_or_ge o.rank w.op.rank with h | h
    · exact Or.inl h
    · exact Or.inr ⟨by omega, hg⟩
  · rw [Bool.eq_false_iff, Ne, Parser.bindsBefore_iff]
    omega

theorem joins_sum {o : Operator} (ho : o = .add ∨ o = .sub) : Joins .sum o .term .sum := by
  rcases ho with rfl | rfl <;> exact joins_left rfl rfl rfl rfl (by decide) (by decide)

theorem joins_product {o : Operator} (ho : o = .mul ∨ o = .div) : Joins .term o .factor .term := by
  rcases ho with rfl | rfl <;> exact joins_left rfl rfl rfl rfl (by decide) (by decide)

/-- No power releases another, and nothing waits behind an atom. -/
theorem joins_power : Joins .atom .pow .factor .power := by
  have hrank : ∀ o : Operator, o.rank ≤ 5 := by intro o; cases o <;> decide
  refine ⟨rfl, fun w hw => ?_, fun w _ => ?_, by decide, by decide, by decide⟩
  · exact absurd (hrank w.op) (by simp only [Category.floor] at hw; omega)
  · have hg : Operator.groupsLeft .pow = false := rfl
    have hr : Operator.rank .pow = 5 := rfl
    have := hrank w.op
    rw [Bool.eq_false_iff, Ne, Parser.bindsBefore_iff, hg, hr]
    simp only [Bool.false_eq_true, and_false, or_false]
    omega

theorem modifyHead_fill (a b : Nat) (fs : List Frame) :
    (fs.modifyHead (Frame.fill a)).modifyHead (Frame.fill b) = fs.modifyHead (Frame.fill (a + b)) := by
  cases fs with
  | nil => rfl
  | cons f rest =>
    show { f with commas := f.commas + a + b, empty := false } :: rest = _
    rw [Nat.add_assoc]; rfl

namespace Reads
variable {c c₁ c₂ : Category} {ts ts₁ ts₂ : List Terminal} {is is₁ is₂ : List Instr} {o : Operator}

/-- Behind its two operands a binary operator is what is left to write. -/
theorem binary (hj : Joins c₁ o c₂ c) (h₁ : Reads c₁ ts₁ is₁ 0) (h₂ : Reads c₂ ts₂ is₂ 0) :
    Reads c (ts₁ ++ .op o :: ts₂) (is₁ ++ is₂ ++ [.operate o]) 0 := by
  intro p toks htoks hp hw _
  obtain ⟨toks₁, rest, rfl, ht₁, hrest⟩ := List.map_eq_append_iff.1 htoks
  obtain ⟨tok, toks₂, rfl, hop, ht₂⟩ := List.map_eq_cons_iff.1 hrest
  -- the left operand
  obtain ⟨p₁, pend₁, hfold₁, hdone₁⟩ := h₁ p toks₁ ht₁ hp
    (fun w hm => Nat.lt_of_lt_of_le (hw w hm) hj.left) (fun h => absurd h (by decide))
  -- the operator, which releases what the left operand left
  obtain ⟨p₂, hread, hcallee, hframes, hwaiting, hinstrs⟩ := Parser.read_binary hdone₁.callee
    (kind_of_terminal hop) hj.binary hdone₁.waiting (fun w hm => hj.releases w (hdone₁.floor w hm))
    (fun w hm => hj.keeps w (hw w hm))
  -- the right operand, behind the waiting operator
  obtain ⟨q, pend₂, hfold₂, hdone₂⟩ := h₂ p₂ toks₂ ht₂ hcallee
    (fun w hm => by
      rw [hwaiting] at hm
      obtain rfl := Option.some.inj hm
      exact hj.right)
    (fun h => absurd h (by decide))
  refine ⟨q, pend₂ ++ [⟨o, tok.source⟩], ?_, hdone₂.callee, ?_, ?_, ?_, ?_⟩
  · rw [List.foldlM_append, hfold₁]
    show ((tok :: toks₂).foldlM (Parser.read standardTable) p₁) = _
    rw [List.foldlM_cons, hread]
    exact hfold₂
  · rw [hdone₂.frames, hframes, hdone₁.frames, modifyHead_fill, modifyHead_fill]
  · rw [hdone₂.waiting, hwaiting, List.append_assoc]; rfl
  · intro w hm
    rcases List.mem_append.1 hm with hm | hm
    · exact Nat.le_trans hj.floor.2 (hdone₂.floor w hm)
    · obtain rfl := List.mem_singleton.1 hm
      exact hj.floor.1
  · rw [Parser.operations_concat, ← List.append_assoc, hdone₂.instrs, hinstrs, hdone₁.instrs]
    simp only [List.append_assoc]

/-- What a tree of one category leaves waiting, one of a looser category may leave waiting too. -/
theorem lift (h : Reads c₁ ts is 0) (hf : c.floor ≤ c₁.floor) (hc : c.ceiling ≤ c₁.ceiling) :
    Reads c ts is 0 := by
  intro p toks htoks hp hw _
  obtain ⟨q, pend, hfold, hdone⟩ := h p toks htoks hp
    (fun w hm => Nat.lt_of_lt_of_le (hw w hm) hc) (fun h => absurd h (by decide))
  exact ⟨q, pend, hfold, hdone.callee, hdone.frames, hdone.waiting,
    fun w hm => Nat.le_trans hf (hdone.floor w hm), hdone.instrs⟩

/-- A sign stays until its operand is read. -/
theorem sign (ho : o = .neg ∨ o = .pos) (h : Reads .factor ts is 0) :
    Reads .factor (.op o :: ts) (is ++ [.operate o]) 0 := by
  intro p toks htoks hp hw _
  obtain ⟨tok, rest, rfl, hop, ht⟩ := List.map_eq_cons_iff.1 htoks
  have hrank : o.isSign = true ∧ o.rank = 4 := by rcases ho with rfl | rfl <;> decide
  have hread := Parser.read_op hp (kind_of_terminal hop)
  rw [if_pos hrank.1] at hread
  obtain ⟨q, pend, hfold, hdone⟩ := h _ rest ht
    (show (p.occupy.wait ⟨o, tok.source⟩).callee = none from hp)
    (fun w hm => by
      obtain rfl := Option.some.inj hm
      rw [hrank.2]; decide)
    (fun h => absurd h (by decide))
  refine ⟨q, pend ++ [⟨o, tok.source⟩], ?_, hdone.callee, ?_, ?_, ?_, ?_⟩
  · rw [List.foldlM_cons, hread]
    exact hfold
  · rw [hdone.frames]
    exact modifyHead_fill 0 0 p.frames
  · rw [hdone.waiting, List.append_assoc]; rfl
  · intro w hm
    rcases List.mem_append.1 hm with hm | hm
    · exact hdone.floor w hm
    · obtain rfl := List.mem_singleton.1 hm
      rw [hrank.2]; decide
  · rw [Parser.operations_concat, ← List.append_assoc, hdone.instrs, List.append_assoc]; rfl

/-- One token that adds one instruction and leaves nothing waiting. -/
theorem single {t : Terminal} {i : Instr} (h : ∀ (p : Parser) (tok : Token), tok.terminal = t →
      p.callee = none → p.read standardTable tok = .ok (p.occupy.emit i tok.source)) :
    Reads .atom [t] [i] 0 := by
  intro p toks htoks hp _ _
  obtain ⟨tok, rest, rfl, ht, hrest⟩ := List.map_eq_cons_iff.1 htoks
  obtain rfl := List.map_eq_nil_iff.1 hrest
  refine ⟨p.occupy.emit i tok.source, [], ?_, hp, rfl, rfl, ?_, ?_⟩
  · rw [List.foldlM_cons, h p tok ht hp]; rfl
  · intro w hm; exact absurd hm List.not_mem_nil
  · rw [Parser.instrs_emit]
    exact List.append_nil _

/-- What stands in parentheses is read with nothing waiting, and all that it leaves waiting is released where
they close.  If a function stands before them, its call is added. -/
theorem enclosed {commas : Nat} (h : Reads c ts is commas) (p : Parser) {toks : List Token}
    (htoks : toks.map Token.terminal = .opening :: (ts ++ [.closing])) :
    ∃ q, toks.foldlM (Parser.read standardTable) p = .ok q ∧ q.callee = none ∧
      q.frames = p.frames.modifyHead (Frame.fill 0) ∧ q.waiting = p.waiting ∧
      q.instrs = p.instrs ++ (is ++ (match p.callee with
        | some name => [.call name.text (commas + 1)]
        | none => [])) := by
  -- the first token opens, the last one closes
  obtain ⟨opening, rest, rfl, hop, hrest⟩ := List.map_eq_cons_iff.1 htoks
  obtain ⟨inner, last, rfl, hinner, hlast⟩ := List.map_eq_append_iff.1 hrest
  obtain ⟨closing, behind, rfl, hcl, hnone⟩ := List.map_eq_cons_iff.1 hlast
  obtain rfl := List.map_eq_nil_iff.1 hnone
  obtain ⟨q, pend, hfold, hdone⟩ := h (p.entered opening.source) inner hinner rfl
    (fun w hm => absurd hm (by simp [Parser.entered])) (fun _ => by simp [Parser.entered])
  have hwaiting : q.waiting = pend := hdone.waiting.trans (List.append_nil pend)
  obtain ⟨r, hread, hcallee, hframes, houter, hinstrs⟩ :=
    Parser.read_closing hdone.callee (kind_of_terminal hcl) hdone.frames
  refine ⟨r, ?_, hcallee, hframes, houter, ?_⟩
  · rw [List.foldlM_cons, Parser.read_opening (kind_of_terminal hop)]
    show (inner ++ [closing]).foldlM (Parser.read standardTable) (p.entered opening.source) = _
    rw [List.foldlM_append, hfold]
    show [closing].foldlM (Parser.read standardTable) q = _
    rw [List.foldlM_cons, hread]
    rfl
  · rw [hinstrs, hwaiting, hdone.instrs, List.append_assoc]
    have hcount : (Frame.fill commas ⟨opening.source, p.callee, 0, true, p.waiting⟩).count = commas + 1 := by
      simp [Frame.count, Frame.fill]
    rw [Parser.ending, hcount]
    rfl

/-- Parentheses write nothing. -/
theorem group (h : Reads c ts is 0) : Reads .atom (.opening :: (ts ++ [.closing])) is 0 := by
  intro p toks htoks hp _ _
  obtain ⟨q, hfold, hcallee, hframes, hwaiting, hinstrs⟩ := h.enclosed p htoks
  rw [hp, List.append_nil] at hinstrs
  refine ⟨q, [], hfold, hcallee, hframes, hwaiting, ?_, ?_⟩
  · intro w hm; exact absurd hm List.not_mem_nil
  · rw [hinstrs]; exact List.append_nil _

/-- A call is written behind its arguments with their number, one more than the commas. -/
theorem call {g : Text} {f : Function} {commas : Nat} (hg : standardTable.lookup g = some (.function f))
    (h : Reads c ts is commas) :
    Reads .atom (.name g :: .opening :: (ts ++ [.closing])) (is ++ [.call g (commas + 1)]) 0 := by
  intro p toks htoks hp _ _
  obtain ⟨tok, rest, rfl, htok, hrest⟩ := List.map_eq_cons_iff.1 htoks
  have htext : tok.source.text = g := text_of_terminal htok (fun o h => TokenKind.noConfusion h)
  have hread := Parser.read_function (p := p) hp (kind_of_terminal htok) (by rw [htext]; exact hg)
  obtain ⟨q, hfold, hcallee, hframes, hwaiting, hinstrs⟩ := h.enclosed (p.named tok.source) hrest
  refine ⟨q, [], ?_, hcallee, ?_, hwaiting, ?_, ?_⟩
  · rw [List.foldlM_cons, hread]
    exact hfold
  · rw [hframes]
    exact modifyHead_fill 0 0 p.frames
  · intro w hm; exact absurd hm List.not_mem_nil
  · rw [hinstrs, ← htext]; exact List.append_nil _

/-- A comma releases what the argument before it left waiting. -/
theorem more {commas : Nat} (h : Reads .sum ts₁ is₁ 0) (hs : Reads .arguments ts₂ is₂ commas) :
    Reads .arguments (ts₁ ++ .comma :: ts₂) (is₁ ++ is₂) (commas + 1) := by
  intro p toks htoks hp hw hframes
  obtain ⟨toks₁, rest, rfl, ht₁, hrest⟩ := List.map_eq_append_iff.1 htoks
  obtain ⟨tok, toks₂, rfl, hcomma, ht₂⟩ := List.map_eq_cons_iff.1 hrest
  obtain ⟨f, fs, hf⟩ := List.exists_cons_of_ne_nil (hframes (Nat.succ_pos _))
  -- every operator has a rank that arguments do not allow before them
  have hnil : p.waiting = [] := by
    cases hp : p.waiting with
    | nil => rfl
    | cons w ws =>
      rw [hp] at hw
      exact absurd (hw w rfl) (Nat.not_lt.2 w.op.two_le_rank)
  obtain ⟨p₁, pend₁, hfold₁, hdone₁⟩ := h p toks₁ ht₁ hp hw (fun h => absurd h (by decide))
  have hf₁ : p₁.frames = f.fill 0 :: fs := by rw [hdone₁.frames, hf]; rfl
  obtain ⟨p₂, hread, hcallee, hframes₂, hwaiting, hinstrs⟩ :=
    Parser.read_comma hdone₁.callee (kind_of_terminal hcomma) hf₁
  obtain ⟨q, pend₂, hfold₂, hdone₂⟩ := hs p₂ toks₂ ht₂ hcallee
    (fun w hm => absurd hm (by rw [hwaiting]; simp)) (fun _ => by rw [hframes₂]; simp)
  refine ⟨q, pend₂, ?_, hdone₂.callee, ?_, ?_, hdone₂.floor, ?_⟩
  · rw [List.foldlM_append, hfold₁]
    show ((tok :: toks₂).foldlM (Parser.read standardTable) p₁) = _
    rw [List.foldlM_cons, hread]
    exact hfold₂
  · have hfill : p₂.frames = p.frames.modifyHead (Frame.fill 1) := by
      rw [hframes₂, hf]; rfl
    rw [hdone₂.frames, hfill, modifyHead_fill, Nat.add_comm]
  · rw [hdone₂.waiting, hwaiting, hnil]
  · have hpend : p₁.waiting = pend₁ := by
      rw [hdone₁.waiting, hnil, List.append_nil]
    rw [hdone₂.instrs, hinstrs, hpend, hdone₁.instrs, List.append_assoc]

end Reads

/-! ## Trees -/

/-- Everything but a list of arguments leaves one value. -/
theorem Tree.count_eq_one {c : Category} (e : Tree c) (hc : c ≠ .arguments) : e.count = 1 := by
  cases e <;> first | rfl | exact absurd rfl hc

theorem Tree.count_pos {c : Category} (e : Tree c) : 1 ≤ e.count := by
  cases e <;> first | exact Nat.le_refl 1 | exact Nat.succ_pos _

theorem Reads.of_tree {c : Category} {e : Tree c} (h : Reads c e.terminals e.postorder (e.count - 1))
    (hc : c ≠ .arguments) : Reads c e.terminals e.postorder 0 := by
  rw [e.count_eq_one hc] at h
  exact h

/-- **The contract of a tree.** -/
theorem Tree.reads {c : Category} (e : Tree c) : Reads c e.terminals e.postorder (e.count - 1) := by
  induction e with
  | term a ih | factor a ih | power a ih | atom a ih | last a ih =>
    exact (ih.of_tree (by decide)).lift (by decide) (by decide)
  | sum o ho a b iha ihb =>
    exact Reads.binary (joins_sum ho) (iha.of_tree (by decide)) (ihb.of_tree (by decide))
  | product o ho a b iha ihb =>
    exact Reads.binary (joins_product ho) (iha.of_tree (by decide)) (ihb.of_tree (by decide))
  | raise a b iha ihb =>
    exact Reads.binary joins_power (iha.of_tree (by decide)) (ihb.of_tree (by decide))
  | sign o ho a ih => exact Reads.sign ho (ih.of_tree (by decide))
  | number t value hn hv =>
    refine Reads.single fun p tok ht hp => ?_
    have htext : tok.source.text = t := text_of_terminal ht (fun o h => TokenKind.noConfusion h)
    exact Parser.read_number hp (kind_of_terminal ht) (by rw [htext]; exact hv)
  | input t slot hm | constant t value hm =>
    refine Reads.single fun p tok ht hp => ?_
    have htext : tok.source.text = t := text_of_terminal ht (fun o h => TokenKind.noConfusion h)
    subst htext
    exact Parser.read_value hp (kind_of_terminal ht) hm (fun f h => Meaning.noConfusion h)
  | call g f hg as ih =>
    have h := Reads.call hg ih
    rw [Nat.sub_add_cancel as.count_pos] at h
    exact h
  | group a ih => exact Reads.group (ih.of_tree (by decide))
  | more a as iha ihas =>
    have h := Reads.more (iha.of_tree (by decide)) ihas
    rw [Nat.sub_add_cancel as.count_pos] at h
    exact h

/-- Tokens without errors are read one after the other. -/
theorem Parser.readAll_map_ok (toks : List Token) : ∀ p : Parser,
    p.readAll standardTable (toks.map .ok) =
      (toks.foldlM (Parser.read standardTable) p).bind Parser.finish := by
  induction toks with
  | nil => intro p; rfl
  | cons tok rest ih =>
    intro p
    rw [List.map_cons, Parser.readAll, List.foldlM_cons]
    cases p.read standardTable tok with
    | ok q => exact ih q
    | error e => rfl

/-- **Ordering.**  Tokens that spell the terminals of a sum are put into its postorder. -/
theorem readAll_tree (e : Tree .sum) {toks : List Token} (h : toks.map Token.terminal = e.terminals) :
    ∃ program, Parser.start.readAll standardTable (toks.map .ok) = .ok program ∧
      program.instrs = e.postorder := by
  obtain ⟨q, pend, hfold, hdone⟩ := (e.reads.of_tree (by decide)) Parser.start toks h rfl
    (fun w hm => absurd hm (by simp [Parser.start])) (fun h => absurd h (by decide))
  have hwaiting : q.waiting = pend := hdone.waiting.trans (List.append_nil pend)
  refine ⟨q.releaseAll.output.reverse, ?_, ?_⟩
  · rw [Parser.readAll_map_ok, hfold]
    show q.finish = _
    rw [Parser.finish, hdone.callee, hdone.frames]
    rfl
  · show q.releaseAll.instrs = _
    rw [(Parser.releaseAll_eq q).1, hwaiting, hdone.instrs]
    rfl

end SignChart
