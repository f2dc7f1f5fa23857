/-
  The names that an expression can use.

  A name stands for an input, a constant or a function.  `standardTable` holds the usual ones: the
  variable `x`, the constants `pi`, `tau` and `e`, and the functions of a scientific calculator.
  Angles are in radians, `log` with one argument is natural.
-/
import SignChart.Expr.Program
import SignChart.Number.Scalar

namespace SignChart

/-- A function of a list of arguments. -/
structure Function where
  arity : Arity
  apply : List Float → Float

/-- What a name stands for. -/
inductive Meaning where
  /-- The input with this number. -/
  | input (slot : Nat)
  | constant (value : Float)
  | function (f : Function)

/-- What a name is called after its meaning. -/
def Meaning.word : Meaning → String
  | .input _ => "variable"
  | .constant _ => "constant"
  | .function _ => "function"

/-- Names with their meanings. -/
abbrev Table := List (Text × Meaning)

/-! ## Functions -/

/-- The value that stands for no number. -/
def notANumber : Float := 0.0 / 0.0

/-- A function of one argument. -/
def Function.unary (f : Float → Float) : Function where
  arity := .exactly 1
  apply
    | [x] => f x
    | _ => notANumber

/-- A function of two arguments. -/
def Function.binary (f : Float → Float → Float) : Function where
  arity := .exactly 2
  apply
    | [x, y] => f x y
    | _ => notANumber

/-- The function of an operator. -/
def Operator.function : Operator → Function
  | .neg => .unary fun x => -x
  | .pos => .unary fun x => x
  | .add => .binary fun x y => x + y
  | .sub => .binary fun x y => x - y
  | .mul => .binary fun x y => x * y
  | .div => .binary fun x y => x / y
  | .pow => .binary Float.pow

/-- The nearest whole number, halves upwards. -/
def roundUpHalf (x : Float) : Float := (x + 0.5).floored

/-- One with the sign of `x`; zero and NaN are left as they are. -/
def signOf (x : Float) : Float := if x == 0.0 || x.isNaN then x else if x < 0.0 then -1.0 else 1.0

/-- The root of the sum of the squares. -/
def hypotenuse (xs : List Float) : Float := (xs.foldl (fun s x => s + x * x) 0.0).sqrt

/-- The natural logarithm, or the one to a base given as second argument. -/
def logarithm : List Float → Float
  | [x] => x.log
  | [x, base] => x.log / base.log
  | _ => notANumber

/-- Combines all arguments; NaN among them makes the result NaN. -/
def foldNumbers (f : Float → Float → Float) (start : Float) (xs : List Float) : Float :=
  xs.foldl (fun acc x => if acc.isNaN || x.isNaN then notANumber else f acc x) start

/-- The least argument. -/
def least : List Float → Float := foldNumbers Scalar.min (1.0 / 0.0)

/-- The greatest argument. -/
def greatest : List Float → Float := foldNumbers Scalar.max (-1.0 / 0.0)

/-! ## The standard table -/

/-- The usual constants. -/
def standardConstants : List (String × Float) :=
  [("pi", 3.14159265358979323846264338327950288), ("tau", 6.28318530717958647692528676655900577),
   ("e", 2.71828182845904523536028747135266250)]

/-- The usual functions. -/
def standardFunctions : List (String × Function) :=
  [("abs", .unary Float.abs), ("sqrt", .unary Float.sqrt), ("cbrt", .unary Float.cbrt),
   ("pow", .binary Float.pow), ("hypot", ⟨.atLeast 1, hypotenuse⟩),
   ("exp", .unary Float.exp), ("ln", .unary Float.log), ("log", ⟨.between 1 2, logarithm⟩),
   ("lg", .unary Float.log10), ("log10", .unary Float.log10), ("log2", .unary Float.log2),
   ("sin", .unary Float.sin), ("cos", .unary Float.cos), ("tan", .unary Float.tan),
   ("asin", .unary Float.asin), ("acos", .unary Float.acos), ("atan", .unary Float.atan),
   ("arcsin", .unary Float.asin), ("arccos", .unary Float.acos), ("arctan", .unary Float.atan),
   ("atan2", .binary Float.atan2), ("sinh", .unary Float.sinh), ("cosh", .unary Float.cosh),
   ("tanh", .unary Float.tanh),
   ("floor", .unary Float.floored), ("ceil", .unary Float.ceiled), ("round", .unary roundUpHalf),
   ("trunc", .unary Float.truncated), ("sign", .unary signOf),
   ("min", ⟨.atLeast 1, least⟩), ("max", ⟨.atLeast 1, greatest⟩)]

/-- The only variable of an expression. -/
def variableName : String := "x"

/-- The usual names. -/
def standardTable : Table :=
  (variableName.toList, .input 0)
    :: standardConstants.map (fun (name, value) => (name.toList, .constant value))
    ++ standardFunctions.map fun (name, f) => (name.toList, .function f)

end SignChart
