/-
  The sign chart of an expression, as data.

  `Chart.ofFunction` takes an expression apart, searches for the zeros that this does not show, and
  computes signs and rows.  `Chart.ofInput` starts from what a user typed; it refuses an empty text, an
  expression with more than arithmetic in `x`, and one that does not compile.
-/
import SignChart.Input.Normal
import SignChart.Input.Canonical
import SignChart.ZeroSearch
import SignChart.Chart.Row

namespace SignChart

/-- A sign chart. -/
structure Chart where
  /-- The critical points, by value. -/
  points : List (Point Float)
  /-- The sign of the function on each interval between points, one more than there are points. -/
  segments : List Sign
  domain : Domain Float
  expression : Text
  rows : List (Row Float)

/-- Why there is no chart. -/
inductive ChartError where
  | empty
  | unparseable
  | disallowed (found : Char)
  | compile (e : CompileError)

def ChartError.message : ChartError → String
  | .empty => "enter a function expression"
  | .unparseable => "could not parse the expression"
  | .disallowed found =>
    "only numbers, x, and the four operations are supported for automatic sign charts"
      ++ s!" (found '{found}')"
  | .compile e => s!"could not parse the function expression: {e.message}"

/-- The points of an expression with the function `f`. The search runs where taking the expression apart
left something over, or gave nothing. -/
def criticalPoints (s : Factorization Float) (f : Float → Float) : List (Point Float) :=
  let points := s.points
  if points = [] ∨ s.unparsed ≠ [] then mergePoints points (findZeros f points) else points

/-- The chart of a canonical expression and its function `f`, after a chart of the domain
`previous`. -/
def Chart.ofFunction (text : Text) (f : Float → Float) (previous : Option (Domain Float)) : Chart :=
  let s := factorize text
  let points := criticalPoints s f
  let domain := autoDomain points previous
  { points
    segments := intervalSigns f points domain
    domain
    expression := text
    rows := factorRows s.factors points domain }

/-- The chart of what a user typed, after a chart of the domain `previous`. -/
def Chart.ofInput (raw : Text) (previous : Option (Domain Float)) : Except ChartError Chart :=
  let normal := normalize raw
  if normal = [] then .error .empty
  else
    let text := canonical normal
    if text = [] then .error .unparseable
    else
      match firstUnchartable? text with
      | some c => .error (.disallowed c)
      | none =>
        match compile text with
        | .error e => .error (.compile e)
        | .ok f => .ok { Chart.ofFunction text f.call previous with expression := normal }

end SignChart
