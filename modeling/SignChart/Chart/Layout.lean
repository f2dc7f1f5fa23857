/-
  Sign charts as text.

      x         -1     2
      x+1    -  0   +     +
      2-x    +      +  0  -
      f(x)   -  0   +  0  -

  A chart has a line of the points' values, a line for each row, and a line for the function.  All lines
  use the same columns: one for the label, then by turns one for an interval and one for a point.  A
  field is put in the middle of its column, an odd space to the right.  Blanks at the end of a line
  are not written.  A field that is too wide cannot be written at all, and then there is no chart as text.
-/
import SignChart.Chart.Basic

namespace SignChart

/-- The width of an interval's column where the user does not set it. -/
def defaultWidth : Nat := 5

/-- The least width of an interval's column. -/
def minWidth : Nat := 3

/-! ## Fields -/

/-- The greatest width of a field.  There are no wider ones, even where the text would fit. -/
def maxFieldWidth : Nat := 65535

/-- A text filled up with spaces on the right. -/
def Text.padRight (t : Text) (width : Nat) : Text := t ++ List.replicate (width - t.length) ' '

/-- A text filled up with spaces on both sides. -/
def Text.centre (t : Text) (width : Nat) : Text :=
  let left := (width - t.length) / 2
  List.replicate left ' ' ++ t ++ List.replicate (width - t.length - left) ' '

/-- A field with a text at its left end, if there are fields of this width. -/
def Text.padRight? (t : Text) (width : Nat) : Option Text :=
  if width ≤ maxFieldWidth then some (t.padRight width) else none

/-- A field with a text in its middle, if there are fields of this width. -/
def Text.centre? (t : Text) (width : Nat) : Option Text :=
  if width ≤ maxFieldWidth then some (t.centre width) else none

/-! ## Lines -/

/-- The columns of a chart: their widths in characters. -/
structure Layout where
  label : Nat
  segment : Nat
  points : List Nat
deriving DecidableEq, Repr

namespace Layout

/-- The fields of a line behind its label: intervals, with marks of points in between. -/
def fields? (segment : Nat) : List Text → List (Text × Nat) → Option Text
  | [], _ => some []
  | s :: rest, [] => do return (← s.centre? segment) ++ (← fields? segment rest [])
  | s :: rest, (mark, width) :: marks => do
    return (← s.centre? segment) ++ (← mark.centre? width) ++ (← fields? segment rest marks)

/-- A line, if none of its fields is too wide. -/
def line? (l : Layout) (label : Text) (segments marks : List Text) : Option Text := do
  let label ← label.padRight? l.label
  let fields ← fields? l.segment segments (marks.zip l.points)
  return (label ++ ' ' :: fields).trimEnd

end Layout

/-- The fields of signs. -/
def symbols (signs : List Sign) : List Text := signs.map fun s => [s.symbol]

/-- The label of the line of values. -/
def valueLabel : Text := ['x']

/-- The label of the line of the function. -/
def functionLabel : Text := "f(x)".toList

/-! ## Charts -/

namespace Chart

/-- The values of the points as they stand in a chart. -/
def values (c : Chart) : List Text := c.points.map fun p => (roundKey p.value).text

/-- The columns of a chart. -/
def layout (c : Chart) (width : Nat) : Layout where
  label := ((c.rows.map (·.label)) ++ [valueLabel, functionLabel]).foldl
    (fun n label => max n (Text.byteSize label)) 0
  segment := max width minWidth
  points := c.values.map fun t => max t.length 1

/-- The marks of a row: one at its own point. -/
def rowMarks (c : Chart) (r : Row Float) : List Text :=
  c.points.map fun p => if p.key = r.key then [r.type.mark] else []

/-- The lines of a chart, if none of their fields is too wide. -/
def lines? (c : Chart) (width : Nat) : Option (List Text) := do
  let l := c.layout width
  let header ← l.line? valueLabel (c.segments.map fun _ => []) c.values
  let rows ← c.rows.mapM fun r => l.line? r.label (symbols r.segments) (c.rowMarks r)
  let last ← l.line? functionLabel (symbols c.segments) (c.points.map fun p => [p.type.mark])
  return header :: rows ++ [last]

/-- The text of a chart, with an end after each line, if there is one. -/
def render? (c : Chart) (width : Nat) : Option String :=
  (c.lines? width).map fun ls => String.ofList (ls.flatMap fun t => t ++ ['\n'])

end Chart
end SignChart
