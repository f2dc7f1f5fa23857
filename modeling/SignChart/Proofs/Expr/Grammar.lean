/-
  The grammar of expressions.

  A `Tree` is a derivation from the rules

      E ::= T | E '+' T | E '-' T        T ::= F | T '*' F | T '/' F        F ::= '-' F | '+' F | P
      P ::= A | A '^' F                  A ::= number | variable | constant | g '(' E {',' E} ')' | '(' E ')'

  with one category for each left side.  Numbers are rows of digits and points that spell one; names are
  those of `standardTable`.  Three readings of a tree are defined by recursion on it:

  1. **Its terminals**, the row of tokens that it derives.  `Spells` matches the texts of tokens with them,
     `Spaced` is any way of writing texts with blanks between.

  2. **Its postorder**, the instructions of its operands before those of its operators.

  3. **Its value** at a number, from the values of its children, left to right.
-/
import Mathlib
import SignChart.Expr.Machine
import SignChart.Expr.Postfix
import SignChart.Input.Canonical

namespace SignChart

/-! ## Terminals -/

/-- The texts that an operator is written as. -/
def Operator.spellings : Operator → List Text
  | .neg | .sub => [['-']]
  | .pos | .add => [['+']]
  | .mul => [['*']]
  | .div => [['/']]
  | .pow => [['^'], ['*', '*']]

/-- A terminal: the kind of its tokens, and the texts it can be written as. -/
structure Terminal where
  kind : TokenKind
  spellings : List Text
deriving DecidableEq

namespace Terminal

def number (t : Text) : Terminal := ⟨.number, [t]⟩

def name (t : Text) : Terminal := ⟨.ident, [t]⟩

def op (o : Operator) : Terminal := ⟨.op o, o.spellings⟩

def comma : Terminal := ⟨.comma, [[',']]⟩

def opening : Terminal := ⟨.openParen, [['(']]⟩

def closing : Terminal := ⟨.closeParen, [[')']]⟩

end Terminal

/-- The texts spell the terminals, one by one. -/
def Spells : List Text → List Terminal → Prop
  | [], [] => True
  | w :: ws, t :: ts => w ∈ t.spellings ∧ Spells ws ts
  | _, _ => False

/-- A text that consists of the given ones with any blanks before, between and behind them. -/
inductive Spaced : List Text → Text → Prop where
  | nil {blanks : Text} (hb : ∀ c ∈ blanks, isBlank c) : Spaced [] blanks
  | cons {blanks w rest : Text} {ws : List Text} (hb : ∀ c ∈ blanks, isBlank c) (h : Spaced ws rest) :
      Spaced (w :: ws) (blanks ++ w ++ rest)

/-! ## Trees -/

/-- What a tree derives: a sum `E`, a term `T`, a factor `F`, a power `P`, an atom `A`, or the arguments
`E {',' E}` of a call. -/
inductive Category where
  | sum
  | term
  | factor
  | power
  | atom
  | arguments
deriving DecidableEq

/-- A derivation. -/
inductive Tree : Category → Type where
  | term (a : Tree .term) : Tree .sum
  | sum (o : Operator) (ho : o = .add ∨ o = .sub) (a : Tree .sum) (b : Tree .term) : Tree .sum
  | factor (a : Tree .factor) : Tree .term
  | product (o : Operator) (ho : o = .mul ∨ o = .div) (a : Tree .term) (b : Tree .factor) : Tree .term
  | sign (o : Operator) (ho : o = .neg ∨ o = .pos) (a : Tree .factor) : Tree .factor
  | power (a : Tree .power) : Tree .factor
  | atom (a : Tree .atom) : Tree .power
  | raise (a : Tree .atom) (b : Tree .factor) : Tree .power
  | number (t : Text) (value : Float) (hn : ∀ c ∈ t, isNumeric c) (hv : readFloat t = .ok value) :
      Tree .atom
  | input (t : Text) (slot : Nat) (ht : standardTable.lookup t = some (.input slot)) : Tree .atom
  | constant (t : Text) (value : Float) (ht : standardTable.lookup t = some (.constant value)) :
      Tree .atom
  | call (g : Text) (f : Function) (hg : standardTable.lookup g = some (.function f))
      (as : Tree .arguments) : Tree .atom
  | group (a : Tree .sum) : Tree .atom
  | last (a : Tree .sum) : Tree .arguments
  | more (a : Tree .sum) (as : Tree .arguments) : Tree .arguments

namespace Tree

/-- The terminals of a tree, from left to right. -/
def terminals {c : Category} : Tree c → List Terminal
  | term a | factor a | power a | atom a | last a => a.terminals
  | sum o _ a b | product o _ a b => a.terminals ++ .op o :: b.terminals
  | sign o _ a => .op o :: a.terminals
  | raise a b => a.terminals ++ .op .pow :: b.terminals
  | number t _ _ _ => [.number t]
  | input t _ _ | constant t _ _ => [.name t]
  | call g _ _ as => .name g :: .opening :: (as.terminals ++ [.closing])
  | group a => .opening :: (a.terminals ++ [.closing])
  | more a as => a.terminals ++ .comma :: as.terminals

/-- The number of arguments that a tree stands for. -/
def count {c : Category} : Tree c → Nat
  | more _ as => as.count + 1
  | _ => 1

/-- The instructions of a tree: those of its children from left to right, then its own. -/
def postorder {c : Category} : Tree c → List Instr
  | term a | factor a | power a | atom a | group a | last a => a.postorder
  | sum o _ a b | product o _ a b => a.postorder ++ b.postorder ++ [.operate o]
  | sign o _ a => a.postorder ++ [.operate o]
  | raise a b => a.postorder ++ b.postorder ++ [.operate .pow]
  | number _ value _ _ => [.push value]
  | input t _ _ | constant t _ _ => [.load t]
  | call g _ _ as => as.postorder ++ [.call g as.count]
  | more a as => a.postorder ++ as.postorder

/-- Every function in a tree is called with a number of arguments that it takes. -/
def Fits {c : Category} : Tree c → Prop
  | term a | factor a | power a | atom a | group a | last a => a.Fits
  | sum _ _ a b | product _ _ a b => a.Fits ∧ b.Fits
  | sign _ _ a => a.Fits
  | raise a b => a.Fits ∧ b.Fits
  | number _ _ _ _ | input _ _ _ | constant _ _ _ => True
  | call _ f _ as => f.arity.accepts as.count ∧ as.Fits
  | more a as => a.Fits ∧ as.Fits

end Tree

/-- What trees of a category have for a value: a number, or a list of them for arguments. -/
def Category.Value : Category → Type
  | .arguments => List Float
  | _ => Float

/-- The value of a tree at `x`: its operator or function applied to the values of its children. -/
def Tree.value (x : Float) {c : Category} : Tree c → c.Value
  | .term a => a.value x
  | .sum o _ a b => o.function.apply [a.value x, b.value x]
  | .factor a => a.value x
  | .product o _ a b => o.function.apply [a.value x, b.value x]
  | .sign o _ a => o.function.apply [a.value x]
  | .power a => a.value x
  | .atom a => a.value x
  | .raise a b => Operator.function .pow |>.apply [a.value x, b.value x]
  | .number _ value _ _ => value
  | .input _ _ _ => x
  | .constant _ value _ => value
  | .call _ f _ as => f.apply (as.value x)
  | .group a => a.value x
  | .last a => [a.value x]
  | .more a as => (a.value x :: as.value x : List Float)

end SignChart
