/-
  Building a tree from its terminals, one after another.

  While a text is read from the left, what was read is a stack of open parentheses with a beginning of a sum
  in each.  Such a beginning is known by what can still be made of it:

  1. **Ready.**  A row of terminals that any factor completes to a sum.  A sign keeps a row ready, and a sum is
     made ready again by any binary operator: there is always a place in its tree where a factor can be put
     (`ready_operator`).

  2. **Opened.**  A row that the arguments of a call, or a sum, and a closing parenthesis complete to an atom.

  3. **Due and Complete.**  The two states of the whole row, with an operand missing or not, and what takes
     one to the other.  A row that is complete outside all parentheses is a tree (`Complete.tree`).
-/
import SignChart.Proofs.Expr.Grammar

namespace SignChart

/-! ## Beginnings of sums -/

/-- A row that any factor completes to a sum. -/
def Ready (ts : List Terminal) : Prop :=
  ∀ f : Tree .factor, ∃ e : Tree .sum, e.terminals = ts ++ f.terminals

/-- A factor alone is a sum. -/
theorem ready_nil : Ready [] := fun f => ⟨.term (.factor f), rfl⟩

/-- A sign keeps a row ready, for with the factor behind it it is a factor. -/
theorem Ready.sign {ts : List Terminal} {o : Operator} (h : Ready ts) (ho : o = .neg ∨ o = .pos) :
    Ready (ts ++ [.op o]) := by
  intro f
  obtain ⟨e, he⟩ := h (.sign o ho f)
  exact ⟨e, by rw [he, List.append_assoc]; rfl⟩

theorem append_cons_of_eq {t : Terminal} {as bs bs' cs : List Terminal} (h : bs' = bs ++ cs) :
    as ++ t :: bs' = (as ++ t :: bs) ++ cs := by
  rw [h, List.append_assoc]; rfl

/-- A power takes the last atom of a tree for its base. -/
theorem exists_raise {c : Category} (e : Tree c) (f : Tree .factor) :
    c ≠ .atom → c ≠ .arguments → ∃ e' : Tree c, e'.terminals = e.terminals ++ .op .pow :: f.terminals := by
  induction e with
  | term a ih =>
    intro _ _
    obtain ⟨a', h⟩ := ih (by decide) (by decide)
    exact ⟨.term a', h⟩
  | factor a ih =>
    intro _ _
    obtain ⟨a', h⟩ := ih (by decide) (by decide)
    exact ⟨.factor a', h⟩
  | power a ih =>
    intro _ _
    obtain ⟨a', h⟩ := ih (by decide) (by decide)
    exact ⟨.power a', h⟩
  | sign o ho a ih =>
    intro _ _
    obtain ⟨a', h⟩ := ih (by decide) (by decide)
    exact ⟨.sign o ho a', congrArg (Terminal.op o :: ·) h⟩
  | sum o ho a b _ ihb =>
    intro _ _
    obtain ⟨b', h⟩ := ihb (by decide) (by decide)
    exact ⟨.sum o ho a b', append_cons_of_eq h⟩
  | product o ho a b _ ihb =>
    intro _ _
    obtain ⟨b', h⟩ := ihb (by decide) (by decide)
    exact ⟨.product o ho a b', append_cons_of_eq h⟩
  | raise a b _ ihb =>
    intro _ _
    obtain ⟨b', h⟩ := ihb (by decide) (by decide)
    exact ⟨.raise a b', append_cons_of_eq h⟩
  -- here the descent along the right edge ends
  | atom a _ => exact fun _ _ => ⟨.raise a f, rfl⟩
  | number | input | constant | call | group => exact fun h _ => absurd rfl h
  | last | more => exact fun _ h => absurd rfl h

/-- A product takes the last term of a sum for its left operand. -/
theorem exists_product {o : Operator} (ho : o = .mul ∨ o = .div) (f : Tree .factor) :
    ∀ e : Tree .sum, ∃ e' : Tree .sum, e'.terminals = e.terminals ++ .op o :: f.terminals
  | .term t => ⟨.term (.product o ho t f), rfl⟩
  | .sum o' ho' a t => ⟨.sum o' ho' a (.product o ho t f), append_cons_of_eq rfl⟩

/-- Behind a sum and a binary operator a factor is due. -/
theorem ready_operator (e : Tree .sum) {o : Operator} (ho : o.isSign = false) :
    Ready (e.terminals ++ [.op o]) := by
  intro f
  have hexists : ∃ e' : Tree .sum, e'.terminals = e.terminals ++ .op o :: f.terminals := by
    cases o with
    | neg | pos => exact absurd ho (by decide)
    -- the looser the operator, the more of the tree is its left operand
    | add => exact ⟨.sum .add (Or.inl rfl) e (.factor f), rfl⟩
    | sub => exact ⟨.sum .sub (Or.inr rfl) e (.factor f), rfl⟩
    | mul => exact exists_product (Or.inl rfl) f e
    | div => exact exists_product (Or.inr rfl) f e
    | pow => exact exists_raise e f (by decide) (by decide)
  obtain ⟨e', he⟩ := hexists
  exact ⟨e', by rw [he, List.append_assoc]; rfl⟩

/-! ## Open parentheses -/

/-- A row that ends inside a parenthesis, that of a call or another: what may stand there and a closing
parenthesis complete it to an atom. -/
def Opened : Bool → List Terminal → Prop
  | true, ts => ∀ as : Tree .arguments, ∃ a : Tree .atom, a.terminals = ts ++ (as.terminals ++ [.closing])
  | false, ts => ∀ e : Tree .sum, ∃ a : Tree .atom, a.terminals = ts ++ (e.terminals ++ [.closing])

/-- A parenthesis around a sum is an atom. -/
theorem opened_group : Opened false [.opening] := fun e => ⟨.group e, rfl⟩

/-- The name of a function and a parenthesis begin a call. -/
theorem opened_call {g : Text} {f : Function} (hg : standardTable.lookup g = some (.function f)) :
    Opened true [.name g, .opening] := fun as => ⟨.call g f hg as, rfl⟩

/-- In a call a sum and a comma are followed by further arguments. -/
theorem Opened.comma {ts : List Terminal} (h : Opened true ts) (e : Tree .sum) :
    Opened true (ts ++ e.terminals ++ [.comma]) := by
  intro as
  obtain ⟨a, ha⟩ := h (.more e as)
  refine ⟨a, ha.trans ?_⟩
  show ts ++ (e.terminals ++ .comma :: as.terminals ++ [.closing]) = _
  simp only [List.append_assoc, List.cons_append, List.nil_append]

/-- Any parenthesis that is open can be closed behind a sum. -/
theorem Opened.close {call : Bool} {ts : List Terminal} (h : Opened call ts) (e : Tree .sum) :
    ∃ a : Tree .atom, a.terminals = ts ++ (e.terminals ++ [.closing]) := by
  cases call with
  | false => exact h e
  -- in a call the sum is the last argument
  | true => exact h (.last e)

/-! ## The whole row -/

/-- Rows up to the innermost open parenthesis or the last comma in it.  The list tells for each open
parenthesis, the innermost first, whether it is that of a call. -/
inductive Begun : List Bool → List Terminal → Prop where
  | start : Begun [] []
  | opened {calls : List Bool} {call : Bool} {ss rs ts : List Terminal} (h : Begun calls ss)
      (hr : Ready rs) (ho : Opened call ts) : Begun (call :: calls) (ss ++ rs ++ ts)

/-- A row behind which an operand is due. -/
def Due (calls : List Bool) (ts : List Terminal) : Prop :=
  ∃ ss rs, Begun calls ss ∧ Ready rs ∧ ts = ss ++ rs

/-- A row at the end of an operand. -/
def Complete (calls : List Bool) (ts : List Terminal) : Prop :=
  ∃ ss, ∃ e : Tree .sum, Begun calls ss ∧ ts = ss ++ e.terminals

section
variable {calls : List Bool} {call : Bool} {ts : List Terminal}

/-- At the start an operand is due. -/
theorem due_start : Due [] [] := ⟨[], [], .start, ready_nil, rfl⟩

/-- An atom is an operand: it completes the row, with the signs and the operator in front of it. -/
theorem Due.atom (h : Due calls ts) (a : Tree .atom) : Complete calls (ts ++ a.terminals) := by
  obtain ⟨ss, rs, hb, hr, rfl⟩ := h
  obtain ⟨e, he⟩ := hr (.power (.atom a))
  exact ⟨ss, e, hb, by rw [he, List.append_assoc]; rfl⟩

/-- In front of an operand there may be any number of signs. -/
theorem Due.sign {o : Operator} (h : Due calls ts) (ho : o = .neg ∨ o = .pos) :
    Due calls (ts ++ [.op o]) := by
  obtain ⟨ss, rs, hb, hr, rfl⟩ := h
  exact ⟨ss, _, hb, hr.sign ho, List.append_assoc ..⟩

/-- A parenthesis puts the row aside and begins another, where an operand is due. -/
theorem Due.open {os : List Terminal} (h : Due calls ts) (ho : Opened call os) :
    Due (call :: calls) (ts ++ os) := by
  obtain ⟨ss, rs, hb, hr, rfl⟩ := h
  exact ⟨_, [], .opened hb hr ho, ready_nil, (List.append_nil _).symm⟩

/-- Behind an operand a binary operator asks for another. -/
theorem Complete.operator {o : Operator} (h : Complete calls ts) (ho : o.isSign = false) :
    Due calls (ts ++ [.op o]) := by
  obtain ⟨ss, e, hb, rfl⟩ := h
  exact ⟨ss, _, hb, ready_operator e ho, List.append_assoc ..⟩

/-- Behind an operand in a call a comma asks for another argument. -/
theorem Complete.comma (h : Complete (true :: calls) ts) : Due (true :: calls) (ts ++ [.comma]) := by
  obtain ⟨ss, e, hb, rfl⟩ := h
  cases hb with
  | opened hb hr ho =>
    refine ⟨_, [], .opened hb hr (ho.comma e), ready_nil, ?_⟩
    simp only [List.append_assoc, List.append_nil]

/-- A parenthesis that is closed is an operand of the row around it. -/
theorem Complete.close (h : Complete (call :: calls) ts) : Complete calls (ts ++ [.closing]) := by
  obtain ⟨ss, e, hb, rfl⟩ := h
  cases hb with
  | opened hb hr ho =>
    obtain ⟨a, ha⟩ := ho.close e
    obtain ⟨e', he⟩ := hr (.power (.atom a))
    refine ⟨_, e', hb, ?_⟩
    have ha' : (Tree.power (.atom a)).terminals = _ := ha
    rw [he, ha']
    simp only [List.append_assoc]

/-- A row that is complete outside all parentheses is the row of a tree. -/
theorem Complete.tree (h : Complete [] ts) : ∃ e : Tree .sum, e.terminals = ts := by
  obtain ⟨ss, e, hb, rfl⟩ := h
  cases hb with
  | start => exact ⟨e, rfl⟩

end

end SignChart
