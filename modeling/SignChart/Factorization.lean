/-
  Expressions taken apart into linear factors.

  `factorTokens` cuts a product or quotient into its top-level tokens, `product?` a token into
  parts, and each part has to be a power of a linear expression (`linearFactor?`) or a constant
  (`constant?`).  Which of these a part is, is found by evaluating it at a few places.  A token with a part
  that is neither is left over for the search for zeros; `factorize` collects the zeros, poles
  and factors of the other tokens.
-/
import SignChart.Expr.Evaluator
import SignChart.Point
import SignChart.Text.Group

namespace SignChart

/-! ## Factors -/

/-- The operator in front of a token. -/
inductive FactorOp where
  | mul
  | div
deriving DecidableEq, Repr

namespace FactorOp

def symbol : FactorOp → Char
  | .mul => '*'
  | .div => '/'

/-- What the zero of a token is to the whole expression. -/
def pointType : FactorOp → PointType
  | .mul => .zero
  | .div => .pole

end FactorOp

/-- A power of an expression that is linear in `x`. -/
structure LinearFactor (α : Type) where
  root : α
  multiplicity : Nat
  /-- The sign of the slope. -/
  sign : Sign
  base : Text

/-- The sign that a factor has far to the right. -/
def LinearFactor.contribution {α : Type} (f : LinearFactor α) : Sign := f.sign.power f.multiplicity

/-- A product of linear factors, and the sign that it has far to the right. -/
structure Product (α : Type) where
  factors : List (LinearFactor α)
  sign : Sign

/-- A linear factor in its place in the expression. -/
structure Factor (α : Type) where
  type : PointType
  value : α
  multiplicity : Nat
  /-- The sign of the slope. -/
  sign : Sign
  /-- The expression that is raised to a power. -/
  base : Text

/-- The sign that a factor has far to the right. -/
def Factor.contribution {α : Type} (f : Factor α) : Sign := f.sign.power f.multiplicity

/-- A token that could not be taken apart. -/
structure Unparsed where
  op : FactorOp
  text : Text
deriving DecidableEq, Repr

/-- An expression taken apart. -/
structure Factorization (α : Type) where
  zeros : List (Point α)
  poles : List (Point α)
  /-- The sign of all constants and slopes together. -/
  sign : Sign
  factors : List (Factor α)
  unparsed : List Unparsed

/-! ## Cutting -/

/-- A plus or minus between two operands. -/
def isSumSign : Separator := fun prev c _ =>
  (c = '+' || c = '-') && prev.any fun p => p ∉ ['*', '/', '^', '(', '+', '-']

/-- A star that is no half of a doubled one. -/
def isProductStar : Separator := fun prev c next => c = '*' && next != some '*' && prev != some '*'

/-- The text is a sum outside all parentheses. -/
def isSum (t : Text) : Bool := (cut isSumSign t).2 ≠ []

/-- The tokens of an expression with the operators in front of them; the first is multiplied. A sum is
one token. -/
def factorTokens (t : Text) : List (FactorOp × Text) :=
  if isSum t then [(.mul, t)]
  else
    let (first, more) := cut (fun prev c next => isProductStar prev c next || c = '/') t
    (.mul, first) :: more.map fun (c, token) => (if c = '/' then .div else .mul, token)

/-- The parts of a token between single stars. A sum is one part. -/
def tokenParts (t : Text) : List Text :=
  if isSum t then [t]
  else
    let (first, more) := cut isProductStar t
    first :: more.map Prod.snd

/-! ## Powers -/

/-- The greatest multiplicity. -/
def maxMultiplicity : Nat := (1 <<< 32) - 1

/-- The text without `c` at its front. -/
def dropOne (c : Char) (t : Text) : Text := if t.head? = some c then t.tail else t

/-- The base and the digits of a text that ends in a whole power. The digits may be put in
parentheses, either of which may be missing. -/
def trailingPower? (t : Text) : Option (Text × Text) :=
  let rev := dropOne ')' t.reverse
  let digits := rev.takeWhile Char.isDigit
  let base? := match dropOne '(' (rev.dropWhile Char.isDigit) with
    | '*' :: '*' :: base => some base
    | '^' :: base => some base
    | _ => none
  match base? with
  | some base =>
    if digits ≠ [] ∧ base ≠ [] ∧ '\n' ∉ base then some (base.reverse, digits.reverse) else none
  | none => none

/-- A base that a power cannot cut through: a parenthesis group, or a single number or name. -/
def isAtomicBase (t : Text) : Bool := isWrapped t || t.all fun c => isLetterOrDigit c || c = '.'

/-- The base and the exponent of a power of an atomic base; any other text is its own first power. -/
def splitPower (part : Text) : Text × Nat :=
  match trailingPower? part with
  | some (base, digits) =>
    let n := digitsValue digits
    if isAtomicBase base ∧ 1 ≤ n ∧ n ≤ maxMultiplicity then (base, n) else (part, 1)
  | none => (part, 1)

/-! ## Parts -/

/-- Zero in place of a value that differs from it only by rounding. -/
def snapZero (x : Float) : Float := if x.abs < 1e-10 then 0.0 else x

/-- The values at 0 and 1, if both are finite. -/
def endValues? (f : Evaluator) : Option (Float × Float) :=
  let atZero := f.call 0.0
  let atOne := f.call 1.0
  if atZero.isFinite && atOne.isFinite then some (atZero, atOne) else none

/-- The value at `t` is the one of the line with this slope and intercept, up to rounding. -/
def onLine (f : Evaluator) (slope intercept t : Float) : Bool :=
  let expected := slope * t + intercept
  let actual := f.call t
  let tolerance := 1e-6 * (1.0 + Scalar.max expected.abs actual.abs)
  actual.isFinite && !(tolerance < (actual - expected).abs)

/-- A part as a power of a linear expression. -/
def linearFactor? (part : Text) : Option (LinearFactor Float) := do
  let (power, multiplicity) := splitPower part
  let base := stripParens power
  if 'x' ∉ base then none
  else
    let f ← (compile base).toOption
    let (atZero, atOne) ← endValues? f
    let slope := atOne - atZero
    if slope.abs < 1e-9 then none
    else if [-1.0, 2.0, 0.5].all (onLine f slope atZero) then
      some ⟨snapZero (-atZero / slope), multiplicity, .of slope, base⟩
    else none

/-- The value of a part that does not depend on `x`. -/
def constant? (part : Text) : Option Float := do
  let f ← (compile part).toOption
  let (atZero, atOne) ← endValues? f
  if 1e-6 < (atZero - atOne).abs then none else some (snapZero atZero)

/-- A product with one more part. -/
def Product.add? (p : Product Float) (part : Text) : Option (Product Float) :=
  let part := stripParens part
  match linearFactor? part with
  | some f => some ⟨p.factors ++ [f], p.sign * f.contribution⟩
  | none => (constant? part).map fun c => { p with sign := p.sign * .of c }

/-- A token as a product of linear factors and constants. -/
def product? (token : Text) : Option (Product Float) :=
  let text := stripParens token
  if text = [] then none else (tokenParts text).foldlM Product.add? ⟨[], .plus⟩

/-! ## Whole expressions -/

/-- The factorization before the first token. -/
def Factorization.empty {α : Type} : Factorization α := ⟨[], [], .plus, [], []⟩

/-- A factorization with the product of one more token. -/
def Factorization.addProduct {α : Type} (s : Factorization α) (type : PointType) (p : Product α) :
    Factorization α :=
  let points := p.factors.map fun f => ⟨type, f.root, f.multiplicity, false⟩
  let factors := p.factors.map fun f => ⟨type, f.root, f.multiplicity, f.sign, f.base⟩
  let s := { s with sign := s.sign * p.sign, factors := s.factors ++ factors }
  match type with
  | .zero => { s with zeros := s.zeros ++ points }
  | .pole => { s with poles := s.poles ++ points }

/-- A factorization with one more token. -/
def Factorization.addToken (s : Factorization Float) (op : FactorOp) (token : Text) : Factorization Float :=
  match product? token with
  | some p => s.addProduct op.pointType p
  | none => { s with unparsed := s.unparsed ++ [⟨op, token⟩] }

/-- An expression taken apart. -/
def factorize (t : Text) : Factorization Float :=
  (factorTokens t).foldl (fun s (op, token) => s.addToken op token) .empty

/-- The points of a factorization. -/
def Factorization.points {α : Type} [Scalar α] (s : Factorization α) : List (Point α) :=
  gatherPoints s.zeros s.poles

end SignChart
