/-
  The rows of a chart.

  A row shows the sign of one factor on every interval between critical points.  Factors written alike
  share a row; zeros that no factor accounts for get a row made from their position alone.  The last row
  of a chart is the sign of the function itself, from `intervalSigns`.
-/
import SignChart.Domain
import SignChart.Factorization

namespace SignChart
variable {α β : Type} [Scalar α] [Scalar β]

/-! ## Signs on intervals -/

/-- The sign of a function on an interval: that of its value at a sample or, if there is none, at other
places inside; otherwise the sign on the interval before. -/
def sampleSign (f : α → β) (left right : α) (prev : Option Sign) : Sign :=
  let retries := if Scalar.isFinite left && Scalar.isFinite right then
      ([0.25, 0.75, 0.1, 0.9] : List α).map fun ratio => left + (right - left) * ratio
    else []
  match ((sampleBetween left right :: retries).map f).find? Scalar.isFinite with
  | some y => .of y
  | none => prev.getD .plus

/-- The signs of a function on intervals; `prev` is the sign on the interval before. -/
def intervalSignsFrom (f : α → β) (prev : Option Sign) : List (α × α) → List Sign
  | [] => []
  | (left, right) :: rest =>
    let s := sampleSign f left right prev
    s :: intervalSignsFrom f (some s) rest

/-- The signs of a function on the intervals between critical points. -/
def intervalSigns (f : α → β) (points : List (Point α)) (d : Domain α) : List Sign :=
  intervalSignsFrom f none (intervals (boundaries points d))

/-! ## Rows -/

/-- The signs of one factor. -/
structure Row (α : Type) where
  label : Text
  segments : List Sign
  type : PointType
  value : α
  multiplicity : Nat

/-- A power as a label. -/
def powerLabel (base : Text) (n : Nat) : Text :=
  if n = 1 then base else '(' :: base ++ ")^".toList ++ (toString n).toList

/-- The expression `x - v` as a label. -/
def linearLabel (v : α) : Text :=
  let v := roundKey v
  if v == (0.0 : α) then ['x']
  else if (0.0 : α) < v then "x - ".toList ++ Scalar.text v
  else "x + ".toList ++ Scalar.text (-v)

/-- The signs of a factor with its zero at `v` on some intervals: with an odd multiplicity it changes
sign at `v`, and has the sign `s` to the right. -/
def rowSegments (bounds : List α) (v : α) (multiplicity : Nat) (s : Sign) : List Sign :=
  (intervals bounds).map fun (left, right) =>
    if multiplicity % 2 = 0 then s else s * .of (sampleBetween left right - v)

/-- What makes two factors share a row: their type, and their text or, if they have none, their
value. -/
inductive RowKey where
  | expr (type : PointType) (base : Text)
  | value (key : PointKey)
deriving DecidableEq

/-- The row key of a factor. -/
def Factor.rowKey (f : Factor α) : RowKey :=
  if f.base = [] then .value (PointKey.of f.type f.value) else .expr f.type f.base

/-- Factors that share a row: the first of them, the sum of their multiplicities, and the product of
the signs that they have far to the right. -/
structure MergedFactor (α : Type) where
  factor : Factor α
  multiplicity : Nat
  sign : Sign

/-- Merged factors with one more. -/
def mergeFactor (f : Factor α) : List (MergedFactor α) → List (MergedFactor α)
  | [] => [⟨f, f.multiplicity, f.contribution⟩]
  | m :: rest =>
    if m.factor.rowKey = f.rowKey then
      ⟨m.factor, m.multiplicity + f.multiplicity, m.sign * f.contribution⟩ :: rest
    else m :: mergeFactor f rest

/-- Factors merged, in the order of their first occurrence. Values that are not finite are left out. -/
def mergeFactors (factors : List (Factor α)) : List (MergedFactor α) :=
  (factors.filter fun f => Scalar.isFinite f.value).foldl (fun ms f => mergeFactor f ms) []

/-- The row of merged factors. -/
def MergedFactor.row (m : MergedFactor α) (bounds : List α) : Row α where
  label := powerLabel (Text.replacePair '*' '*' ['^'] m.factor.base) m.multiplicity
  segments := rowSegments bounds m.factor.value m.multiplicity m.sign
  type := m.factor.type
  value := m.factor.value
  multiplicity := m.multiplicity

/-- One row for all factors that are written alike. -/
def linearRows (factors : List (Factor α)) (points : List (Point α)) (d : Domain α) : List (Row α) :=
  (mergeFactors factors).map (·.row (boundaries points d))

/-- The row of a zero, from its position alone. -/
def Point.row (p : Point α) (bounds : List α) : Row α where
  label := powerLabel (linearLabel p.value) p.multiplicity
  segments := rowSegments bounds p.value p.multiplicity .plus
  type := p.type
  value := p.value
  multiplicity := p.multiplicity

/-- One row for every zero. -/
def positionRows (points : List (Point α)) (d : Domain α) : List (Row α) :=
  (points.filter fun p => p.type = .zero).map (·.row (boundaries points d))

/-- The key of a row. -/
def Row.key (r : Row α) : PointKey := PointKey.of r.type r.value

/-- The first row of every key that is not among `seen`. -/
def firstRows (seen : List PointKey) : List (Row α) → List (Row α)
  | [] => []
  | r :: rest =>
    if r.key ∈ seen then firstRows seen rest else r :: firstRows (r.key :: seen) rest

/-- The rows of a chart, one for each point. A chart with fewer than two has none, as they would only
repeat the row of the function. -/
def factorRows (factors : List (Factor α)) (points : List (Point α)) (d : Domain α) : List (Row α) :=
  let rows := firstRows [] (linearRows factors points d ++ positionRows points d)
  if rows.length < 2 then []
  else rows.mergeSort fun r s => inOrder r.type r.value s.type s.value

end SignChart
