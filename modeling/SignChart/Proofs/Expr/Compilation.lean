/-
  Compiling an expression and running it gives the value of its syntax tree.

  1. **Run.**  The postorder of a tree, run on any stack, puts the value of the tree on it and changes nothing
     below (`Tree.runs`).  For arguments these are several values, the last on top.

  2. **The whole way.**  A text that spells the terminals of a sum, with blanks anywhere between, is lexed into
     those terminals, put into the postorder of the tree, and run to its value (`compile_tree`).
-/
import SignChart.Expr.Evaluator
import SignChart.Proofs.Expr.Ordering

namespace SignChart

/-! ## Running a postorder -/

/-- A program of two parts runs one after the other, on what the first leaves. -/
theorem performAll_append (inputs : List Float) (q : Linked) :
    ∀ (p : Linked) (stack : List Float),
      performAll inputs (p ++ q) stack = (performAll inputs p stack).bind (performAll inputs q) := by
  intro p
  induction p with
  | nil => intro stack; rfl
  | cons entry rest ih =>
    intro stack
    obtain ⟨step, action⟩ := entry
    rw [List.cons_append, performAll, performAll]
    cases perform inputs action stack with
    | ok stack => exact ih stack
    | error cause => rfl

/-- The stack with the value of a tree on it. -/
def Category.push : (c : Category) → c.Value → List Float → List Float
  | .arguments, (vs : List Float), stack => vs.reverse ++ stack
  | .sum, v, stack | .term, v, stack | .factor, v, stack | .power, v, stack | .atom, v, stack =>
    (v : Float) :: stack

/-- Any program of these instructions takes one stack to another. -/
def Takes (x : Float) (is : List Instr) (stack stack' : List Float) : Prop :=
  ∀ p : Program, p.instrs = is → performAll [x] (standardTable.link p) stack = .ok stack'

namespace Takes
variable {x : Float} {is js : List Instr} {s t u : List Float}

/-- What two parts do to a stack is done by both together. -/
theorem append (h : Takes x is s t) (h' : Takes x js t u) : Takes x (is ++ js) s u := by
  intro p hp
  obtain ⟨q, r, rfl, hq, hr⟩ := List.map_eq_append_iff.1 hp
  rw [Table.link, List.map_append, performAll_append]
  show (performAll [x] (standardTable.link q) s).bind _ = _
  rw [h q hq]
  exact h' r hr

theorem single {i : Instr} (h : perform [x] (standardTable.action i) s = .ok t) : Takes x [i] s t := by
  intro p hp
  obtain ⟨step, rest, rfl, hi, hrest⟩ := List.map_eq_cons_iff.1 hp
  obtain rfl := List.map_eq_nil_iff.1 hrest
  show performAll [x] [(step, standardTable.action step.instr)] s = _
  rw [performAll, hi, h]
  rfl

/-- A function that takes so many arguments replaces them by its value. -/
theorem apply {i : Instr} {f : Function} (name : Text) (args : List Float)
    (hi : standardTable.action i = .apply name f args.length) (hf : f.arity.accepts args.length = true) :
    Takes x [i] (args.reverse ++ s) (f.apply args :: s) := by
  refine single ?_
  have hlength : ¬ (args.reverse ++ s).length < args.length := by
    rw [List.length_append, List.length_reverse]; omega
  have htake : (args.reverse ++ s).take args.length = args.reverse := by
    rw [← List.length_reverse, List.take_left]
  have hdrop : (args.reverse ++ s).drop args.length = s := by
    rw [← List.length_reverse, List.drop_left]
  rw [hi, perform, hf, if_neg (by decide), if_neg hlength, htake, hdrop, List.reverse_reverse]

/-- A binary operator takes the two values on top of the stack. -/
theorem binary {o : Operator} (ho : o.isSign = false) (a b : Float) :
    Takes x [.operate o] (b :: a :: s) (o.function.apply [a, b] :: s) := by
  have h : o.function.arity = .exactly 2 := by cases o <;> first | rfl | exact absurd ho (by decide)
  refine apply o.name.toList [a, b] ?_ (by rw [h]; rfl)
  rw [Table.action, h]
  rfl

/-- A sign takes the value on top of the stack. -/
theorem sign {o : Operator} (ho : o.isSign = true) (a : Float) :
    Takes x [.operate o] (a :: s) (o.function.apply [a] :: s) := by
  have h : o.function.arity = .exactly 1 := by cases o <;> first | rfl | exact absurd ho (by decide)
  refine apply o.name.toList [a] ?_ (by rw [h]; rfl)
  rw [Table.action, h]
  rfl

/-- The programs of two operands, and then their operator. -/
theorem joined {o : Operator} {a b : Float} (ho : o.isSign = false) (h₁ : Takes x is s (a :: s))
    (h₂ : Takes x js (a :: s) (b :: a :: s)) :
    Takes x (is ++ js ++ [.operate o]) s (o.function.apply [a, b] :: s) :=
  (h₁.append h₂).append (binary ho a b)

end Takes

/-- The names of inputs all stand for the first one. -/
theorem slot_eq_zero {t : Text} {slot : Nat} (h : standardTable.lookup t = some (.input slot)) : slot = 0 := by
  have hmem := mem_of_lookup h
  simp [standardTable, standardConstants, standardFunctions] at hmem
  exact hmem.2

theorem length_value (x : Float) : ∀ as : Tree .arguments, (as.value x : List Float).length = as.count
  | .last _ => rfl
  | .more _ as => congrArg (· + 1) (length_value x as)

/-- **Run.**  The postorder of a tree puts its value on any stack. -/
theorem Tree.runs (x : Float) {c : Category} (e : Tree c) (h : e.Fits) :
    ∀ stack, Takes x e.postorder stack (c.push (e.value x) stack) := by
  induction e with
  | term a ih | factor a ih | power a ih | atom a ih | group a ih => exact ih h
  | sum o ho a b iha ihb =>
    intro stack
    have hs : o.isSign = false := by rcases ho with rfl | rfl <;> rfl
    exact Takes.joined hs (iha h.1 stack) (ihb h.2 _)
  | product o ho a b iha ihb =>
    intro stack
    have hs : o.isSign = false := by rcases ho with rfl | rfl <;> rfl
    exact Takes.joined hs (iha h.1 stack) (ihb h.2 _)
  | raise a b iha ihb => exact fun stack => Takes.joined rfl (iha h.1 stack) (ihb h.2 _)
  | sign o ho a ih =>
    intro stack
    have hs : o.isSign = true := by rcases ho with rfl | rfl <;> rfl
    exact (ih h stack).append (Takes.sign hs (a.value x))
  | number t value hn hv => exact fun stack => Takes.single rfl
  | input t slot ht =>
    intro stack
    obtain rfl := slot_eq_zero ht
    refine Takes.single ?_
    rw [Table.action, Table.actionOf, ht]
    rfl
  | constant t value ht =>
    intro stack
    refine Takes.single ?_
    rw [Table.action, Table.actionOf, ht]
    rfl
  | call g f hg as ih =>
    intro stack
    refine (ih h.2 stack).append ?_
    have hlength := length_value x as
    refine Takes.apply g (as.value x) ?_ (by rw [hlength]; exact h.1)
    rw [Table.action, Table.actionOf, hg, hlength]
    rfl
  | last a ih => exact ih h
  | more a as iha ihas =>
    intro stack
    -- the first argument lies deepest, so the list of values stands on the stack reversed
    have hcons : ∀ (v : Float) (vs : List Float), (v :: vs).reverse ++ stack = vs.reverse ++ v :: stack := by
      intro v vs
      rw [List.reverse_cons, List.append_assoc]; rfl
    have hpush : Category.arguments.push ((Tree.more a as).value x) stack =
        Category.arguments.push (as.value x) (Category.sum.push (a.value x) stack) :=
      hcons (a.value x) (as.value x)
    rw [hpush]
    exact (iha h.1 stack).append (ihas h.2 _)

/-! ## The whole way -/

/-- A way of writing a tree: its terminals as tokens, with any blanks between. -/
def Tree.Writes {c : Category} (e : Tree c) (text : Text) : Prop :=
  ∃ ws, Spells ws e.terminals ∧ Spaced ws text

/-- A text that writes a tree is put into the postorder of the tree. -/
theorem parse_of_writes {e : Tree .sum} {text : Text} (h : e.Writes text) :
    ∃ program, parse standardTable text = .ok program ∧ program.instrs = e.postorder := by
  obtain ⟨ws, hw, hs⟩ := h
  obtain ⟨toks, htoks, hts⟩ := tokens_of_spaced (l := Lexer.ofText text) hw hs rfl rfl (e.phrase none rfl).1
  rw [parse, htoks]
  exact readAll_tree e hts

/-- A run that leaves one value has this value. -/
theorem eval_of_run {program : Program} {x y : Float}
    (hrun : performAll [x] (standardTable.link program) [] = .ok [y]) :
    program.eval standardTable [x] = .ok y := by
  have hne : (standardTable.link program).isEmpty = false := by
    cases program with
    | nil => injection hrun with h; exact absurd h (by simp)
    | cons => rfl
  rw [Program.eval, Linked.run, Linked.runFrom, hne, hrun]
  rfl

/-- A program that is the postorder of a tree has the value of the tree. -/
theorem eval_of_instrs {e : Tree .sum} {program : Program} (hp : program.instrs = e.postorder)
    (hf : e.Fits) (x : Float) : program.eval standardTable [x] = .ok (e.value x) :=
  eval_of_run (e.runs x hf [] program hp)

/-- A program that has a value at 0 is accepted. -/
theorem compile_of_parse {text : Text} {program : Program} {y : Float}
    (hparse : parse standardTable text = .ok program)
    (heval : program.eval standardTable [0.0] = .ok y) :
    compile text = .ok ⟨text, standardTable.link program⟩ := by
  have heval' : Evaluator.eval ⟨text, standardTable.link program⟩ 0.0 = .ok y := heval
  rw [compile, hparse]
  dsimp only
  rw [heval']

/-- **Compiling and running an expression is evaluating its tree.**  However a tree of the grammar is
written, it is lexed and put into its postorder; and if every function in it takes as many arguments as it
is given, the program has the value of the tree at every number. -/
theorem compile_tree (e : Tree .sum) (text : Text) (h : e.Writes text) :
    ∃ program, parse standardTable text = .ok program ∧ program.instrs = e.postorder ∧
      (e.Fits → (∀ x, program.eval standardTable [x] = .ok (e.value x)) ∧
        ∃ f, compile text = .ok f ∧ f.program = program ∧ ∀ x, f.eval x = .ok (e.value x)) := by
  obtain ⟨program, hparse, hp⟩ := parse_of_writes h
  refine ⟨program, hparse, hp, fun hf => ⟨eval_of_instrs hp hf, _,
    compile_of_parse hparse (eval_of_instrs hp hf 0.0), ?_, eval_of_instrs hp hf⟩⟩
  show (standardTable.link program).map Prod.fst = program
  rw [Table.link, List.map_map]
  exact List.map_id program

/-! ### A tree with every kind of rule -/

theorem spaced_of_gaps (last : Text) (hlast : ∀ c ∈ last, isBlank c) :
    ∀ gaps : List (Text × Text), (∀ g ∈ gaps, ∀ c ∈ g.1, isBlank c) →
      Spaced (gaps.map Prod.snd) (gaps.flatMap (fun g => g.1 ++ g.2) ++ last) := by
  intro gaps
  induction gaps with
  | nil => intro _; exact .nil hlast
  | cons g rest ih =>
    intro h
    rw [List.map_cons, List.flatMap_cons, List.append_assoc]
    exact .cons (h g List.mem_cons_self) (ih fun g' hg => h g' (List.mem_cons_of_mem _ hg))

/-- The variable as an atom. -/
def atomX : Tree .atom := .input ['x'] 0 rfl

/-- The number two as a factor. -/
def factorTwo : Tree .factor := .power (.atom (.number ['2'] 2.0 (List.all_eq_true.1 rfl) rfl))

/-- The variable as a sum. -/
def sumX : Tree .sum := .term (.factor (.power (.atom atomX)))

/-- A product of two. -/
def timesOf (a : Tree .term) (b : Tree .factor) : Tree .term := .product .mul (Or.inl rfl) a b

/-- A call of `max`. -/
def maxOf (as : Tree .arguments) : Tree .factor :=
  .power (.atom (.call "max".toList ⟨.atLeast 1, greatest⟩ rfl as))

/-- The tree of `-x^2*(x) + max(x, 2)`. -/
def signedPower : Tree .sum :=
  .sum .add (Or.inl rfl)
    (.term (timesOf (.factor (.sign .neg (Or.inl rfl) (.power (.raise atomX factorTwo))))
      (.power (.atom (.group sumX)))))
    (.factor (maxOf (.more sumX (.last (.term (.factor factorTwo))))))

/-- `compile_tree` at a text with a sign before a power, a group and a call. -/
theorem compile_tree_signedPower :
    signedPower.Writes "-x** 2*( x) + max(x,2)".toList ∧ signedPower.Fits ∧
      ∃ program, parse standardTable "-x** 2*( x) + max(x,2)".toList = .ok program ∧
        program.instrs = signedPower.postorder ∧
        ∃ f, compile "-x** 2*( x) + max(x,2)".toList = .ok f ∧ f.program = program ∧
          ∀ x, f.eval x = .ok (-(Float.pow x 2.0) * x + greatest [x, 2.0]) := by
  have hspaced := spaced_of_gaps [] (by simp) [([], ['-']), ([], ['x']), ([], ['*', '*']),
    ([' '], ['2']), ([], ['*']), ([], ['(']), ([' '], ['x']), ([], [')']), ([' '], ['+']),
    ([' '], "max".toList), ([], ['(']), ([], ['x']), ([], [',']), ([], ['2']), ([], [')'])] (by simp [isBlank])
  have hwrites : signedPower.Writes "-x** 2*( x) + max(x,2)".toList := by
    refine ⟨_, ?_, hspaced⟩
    simp [signedPower, timesOf, maxOf, sumX, atomX, factorTwo, Tree.terminals, Spells, Terminal.op,
      Terminal.name, Terminal.number, Terminal.opening, Terminal.closing, Terminal.comma, Operator.spellings]
  have hfits : signedPower.Fits := by
    simp [signedPower, timesOf, maxOf, sumX, atomX, factorTwo, Tree.Fits, Tree.count, Arity.accepts,
      Arity.atLeast]
  obtain ⟨program, hparse, hp, hrun⟩ := compile_tree signedPower _ hwrites
  exact ⟨hwrites, hfits, program, hparse, hp, (hrun hfits).2⟩

end SignChart
