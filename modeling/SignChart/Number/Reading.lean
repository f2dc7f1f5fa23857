/-
  Numbers read from text.

  A floating-point number is an optional sign followed by digits with an optional point, at least one
  digit on either side of it, and an optional exponent; or by one of the words `inf`, `infinity` and
  `nan` in any case.  The value is the nearest number; beyond the greatest it is infinite, below the
  least it is zero.  A count is an optional plus sign and digits, below 2^64.  A text that is neither
  is refused with one of the causes below.
-/
import SignChart.Text.Basic

namespace SignChart

/-! ## Floating-point numbers -/

/-- Why a text is not a floating-point number. -/
inductive FloatError where
  | empty
  | invalid
deriving DecidableEq, Repr

def FloatError.message : FloatError → String
  | .empty => "cannot parse float from empty string"
  | .invalid => "invalid float literal"

/-- An unsigned decimal `digits * 10 ^ exponent`. -/
structure Literal where
  digits : Nat
  exponent : Int
deriving DecidableEq, Repr

/-- The value of a row of digits. -/
def digitsValue (ds : Text) : Nat := ds.foldl (fun n c => 10 * n + (c.toNat - '0'.toNat)) 0

/-- An optional sign, `true` for minus, and what follows it. -/
def readSign : Text → Bool × Text
  | '-' :: r => (true, r)
  | '+' :: r => (false, r)
  | t => (false, t)

/-- The exponent part of a literal, which may be missing. -/
def readExponent : Text → Option Int
  | [] => some 0
  | c :: r =>
    if c = 'e' ∨ c = 'E' then
      let (negative, ds) := readSign r
      if ds ≠ [] ∧ ds.all Char.isDigit then
        some (if negative then -(digitsValue ds : Int) else digitsValue ds)
      else none
    else none

/-- An unsigned literal. -/
def readLiteral (t : Text) : Option Literal :=
  let whole := t.takeWhile Char.isDigit
  let rest := t.dropWhile Char.isDigit
  let (fraction, rest) := match rest with
    | '.' :: r => (r.takeWhile Char.isDigit, r.dropWhile Char.isDigit)
    | r => ([], r)
  if whole = [] ∧ fraction = [] then none
  else (readExponent rest).map fun e => ⟨digitsValue (whole ++ fraction), e - fraction.length⟩

/-- The number nearest to a literal.  A literal above `10 ^ 310` or below `10 ^ -330` is decided by
its size alone. -/
def Literal.value (l : Literal) : Float :=
  let top : Int := l.exponent + (Nat.toDigits 10 l.digits).length
  if l.digits = 0 ∨ top < -330 then 0.0
  else if 311 < top then 1.0 / 0.0
  else match l.exponent with
    | .ofNat e => Float.ofScientific l.digits false e
    | .negSucc e => Float.ofScientific l.digits true (e + 1)

/-- The value of an unsigned text: a literal or a word. -/
def readUnsigned (t : Text) : Option Float :=
  let word := t.asciiLower
  if word = "inf".toList ∨ word = "infinity".toList then some (1.0 / 0.0)
  else if word = "nan".toList then some (0.0 / 0.0)
  else (readLiteral t).map Literal.value

/-- The number that a text spells. -/
def readFloat (t : Text) : Except FloatError Float :=
  if t = [] then .error .empty
  else
    let (negative, rest) := readSign t
    match readUnsigned rest with
    | some x => .ok (if negative then -x else x)
    | none => .error .invalid

/-! ## Counts -/

/-- Why a text is not a count. -/
inductive CountError where
  | empty
  | invalidDigit
  | tooLarge
deriving DecidableEq, Repr

def CountError.message : CountError → String
  | .empty => "cannot parse integer from empty string"
  | .invalidDigit => "invalid digit found in string"
  | .tooLarge => "number too large to fit in target type"

/-- Counts are less than this. -/
def countBound : Nat := 1 <<< 64

/-- The count spelled by digits that follow a beginning of value `n`.  The text is refused at its
first fault from the left. -/
def readDigits (n : Nat) : Text → Except CountError Nat
  | [] => .ok n
  | c :: r =>
    if c.isDigit then
      let m := 10 * n + (c.toNat - '0'.toNat)
      if m < countBound then readDigits m r else .error .tooLarge
    else .error .invalidDigit

/-- The count that a text spells. -/
def readCount : Text → Except CountError Nat
  | [] => .error .empty
  | ['+'] => .error .invalidDigit
  | '+' :: r => readDigits 0 r
  | t => readDigits 0 t

end SignChart
