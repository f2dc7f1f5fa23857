/-
  The operators of expressions, and how many arguments a function takes.

  Powers bind tighter than signs, signs tighter than products, products tighter than sums.  Operators
  of one rank are grouped from the left, powers and signs from the right.
-/
namespace SignChart

/-- An operator. -/
inductive Operator where
  | neg
  | pos
  | add
  | sub
  | mul
  | div
  | pow
deriving DecidableEq, Repr

namespace Operator

/-- How tight an operator binds. -/
def rank : Operator → Nat
  | .add | .sub => 2
  | .mul | .div => 3
  | .neg | .pos => 4
  | .pow => 5

/-- A row of operators of this rank is grouped from the left. -/
def groupsLeft : Operator → Bool
  | .add | .sub | .mul | .div => true
  | .neg | .pos | .pow => false

/-- The operator stands in front of its only operand. -/
def isSign : Operator → Bool
  | .neg | .pos => true
  | _ => false

/-- The name of the function that an operator stands for. -/
def name : Operator → String
  | .neg => "neg"
  | .pos => "pos"
  | .add => "add"
  | .sub => "sub"
  | .mul => "mul"
  | .div => "div"
  | .pow => "pow"

end Operator

/-- How many arguments a function takes: at least `min`, and at most `max` if that is given. -/
structure Arity where
  min : Nat
  max : Option Nat
deriving DecidableEq, Repr

namespace Arity

def exactly (n : Nat) : Arity := ⟨n, some n⟩

def between (min max : Nat) : Arity := ⟨min, some max⟩

def atLeast (min : Nat) : Arity := ⟨min, none⟩

/-- A call with `n` arguments is allowed. -/
def accepts (a : Arity) (n : Nat) : Bool := a.min ≤ n && a.max.all (n ≤ ·)

/-- The numbers of arguments that are allowed, in words. -/
def text (a : Arity) : String :=
  match a.max with
  | some max => if max = a.min then toString max else s!"{a.min} to {max}"
  | none => s!"at least {a.min}"

end Arity
end SignChart
