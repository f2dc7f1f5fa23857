/-
  Signs, and the critical points of a function.

  A function can change its sign only at its zeros and its poles.  Points that agree to six decimals
  are the same: `roundKey` rounds a value to a multiple of a millionth and `PointKey` counts the
  millionths.  Points are listed by value, zeros before poles.
-/
import SignChart.Number.Scalar

namespace SignChart
variable {α : Type} [Scalar α]

/-! ## Signs -/

/-- A sign. There is no third one. -/
inductive Sign where
  | minus
  | plus
deriving DecidableEq, Repr

namespace Sign

/-- The sign of a product. -/
def times : Sign → Sign → Sign
  | .plus, .plus | .minus, .minus => .plus
  | .plus, .minus | .minus, .plus => .minus

instance : Mul Sign := ⟨times⟩

/-- The sign of a number; zero counts as positive, and NaN as negative. -/
@[specialize] def of (x : α) : Sign := if (0.0 : α) ≤ x then .plus else .minus

/-- How a sign is written. -/
def symbol : Sign → Char
  | .minus => '-'
  | .plus => '+'

/-- The sign of the power of a number. -/
def power (s : Sign) (n : Nat) : Sign := if n % 2 = 1 then s else .plus

end Sign

/-! ## Points -/

/-- What happens at a critical point. -/
inductive PointType where
  | zero
  | pole
deriving DecidableEq, Repr

namespace PointType

def name : PointType → String
  | .zero => "zero"
  | .pole => "pole"

/-- Zeros come before poles. -/
def order : PointType → PointType → Ordering
  | .zero, .pole => .lt
  | .pole, .zero => .gt
  | _, _ => .eq

/-- How a point is marked in a chart. -/
def mark : PointType → Char
  | .zero => '0'
  | .pole => '|'

end PointType

/-- A critical point. -/
structure Point (α : Type) where
  type : PointType
  value : α
  multiplicity : Nat
  /-- Found by searching, and not by taking the expression apart. -/
  numeric : Bool
deriving DecidableEq, Repr

/-- The number of steps between one whole number and the next when values are compared. -/
def keyScale : α := 1e6

/-- A value rounded to six decimals; zero has no sign. -/
@[specialize] def roundKey (x : α) : α :=
  let rounded := Scalar.nearest (x * keyScale) / keyScale
  if rounded == (0.0 : α) then 0.0 else rounded

/-- What makes two points the same: their type, and their value in millionths. -/
structure PointKey where
  type : PointType
  micros : Int
deriving DecidableEq, Repr

/-- The key of a value. -/
@[specialize] def PointKey.of (type : PointType) (x : α) : PointKey :=
  ⟨type, Scalar.toMachineInt (Scalar.nearest (roundKey x * keyScale))⟩

namespace Point

/-- The key of a point. -/
@[specialize] def key (p : Point α) : PointKey := PointKey.of p.type p.value

/-- A point in words. -/
def text (p : Point α) : String :=
  let multiplicity := if p.multiplicity = 1 then "" else s!" (multiplicity {p.multiplicity})"
  let numeric := if p.numeric then " [numeric]" else ""
  s!"{p.type.name} at {String.ofList (Scalar.text (roundKey p.value))}" ++ multiplicity ++ numeric

end Point

/-! ## Lists of points -/

/-- Whether a value of a type may stand before another: by value, and zeros before poles. -/
@[specialize] def inOrder (s : PointType) (x : α) (t : PointType) (y : α) : Bool :=
  ((Scalar.order x y).then (s.order t)).isLE

/-- Points in the order of their values. Equals keep their order. -/
def sortPoints (ps : List (Point α)) : List (Point α) :=
  ps.mergeSort fun p q => inOrder p.type p.value q.type q.value

/-- A list with a point added: if there is one with its key already, that one is changed by `combine`,
otherwise the point is put at the end. -/
def addPoint (combine : Nat → Nat → Nat) (p : Point α) : List (Point α) → List (Point α)
  | [] => [p]
  | q :: rest =>
    if q.key = p.key then { q with multiplicity := combine q.multiplicity p.multiplicity } :: rest
    else q :: addPoint combine p rest

/-- Points put together from zeros and poles, one for each key, with multiplicities summed. Values that
are not finite are left out. -/
def gatherPoints (zeros poles : List (Point α)) : List (Point α) :=
  let finite := (zeros ++ poles).filter fun p => Scalar.isFinite p.value
  sortPoints (finite.foldl (fun ps p => addPoint (· + ·) p ps) [])

/-- Points with others added. A point that is there already keeps its value and takes the greater
multiplicity. -/
def mergePoints (points extra : List (Point α)) : List (Point α) :=
  sortPoints (extra.foldl (fun ps p => addPoint Nat.max p ps) points)

end SignChart
