/-
  What is told to the user: faults in an expression, programs, and charts with their points.

  A report is a text of whole lines.  A fault is shown by the source with the place underlined, then the
  error, then notes that may help.  How like two names are for a note is measured by a `Similarity` from
  outside.
-/
import SignChart.Chart.Layout

namespace SignChart

/-- A measure of how like two names are, from 0 to 1.  A name is as like itself as can be. -/
class Similarity where
  likeness : Text → Text → Float
  likeness_nonneg : ∀ s t, 0.0 ≤ likeness s t
  likeness_le_one : ∀ s t, likeness s t ≤ 1.0
  likeness_self : ∀ t, likeness t t = 1.0

namespace Report

/-- Lines with an end after each. -/
def ofLines (ls : List String) : String := String.join (ls.map (· ++ "\n"))

/-- Some spaces, then some carets. -/
def caretLine (spaces carets : Nat) : String :=
  String.ofList (List.replicate spaces ' ' ++ List.replicate carets '^')

/-- A text with the part of `length` bytes from byte `start` underlined, by at least one caret. -/
def underline (src : Text) (start length : Nat) : List String :=
  [String.ofList src, caretLine start (max length 1)]

/-! ## Similar names -/

section
variable [Similarity]

/-- How like the name of an entry is to a text. Case does not matter. -/
def score (t : Text) (entry : Text × Meaning) : Float := Similarity.likeness t.asciiLower (Text.asciiLower entry.1)

/-- The more similar of two entries, the last of equals. -/
def moreSimilar (t : Text) (best : Option (Text × Meaning)) (entry : Text × Meaning) : Option (Text × Meaning) :=
  match best with
  | none => some entry
  | some b => if (Scalar.order (score t b) (score t entry)).isGT then best else some entry

/-- The name of a table most like a text, if any is like it at all. -/
def similar? (table : Table) (t : Text) : Option (Text × Meaning) :=
  (table.filter fun entry => 0.3 < score t entry).foldl (moreSimilar t) none

theorem foldl_moreSimilar_ne_none (t : Text) (entries : List (Text × Meaning)) (best : Text × Meaning) :
    entries.foldl (moreSimilar t) (some best) ≠ none := by
  induction entries generalizing best with
  | nil => exact Option.some_ne_none best
  | cons entry rest ih =>
    rw [List.foldl_cons, moreSimilar]
    split
    · exact ih best
    · exact ih entry

/-- A name that differs in case alone is not overlooked. -/
theorem similar?_ne_none {table : Table} {t : Text} {entry : Text × Meaning} (hentry : entry ∈ table)
    (h : t.asciiLower = Text.asciiLower entry.1) : similar? table t ≠ none := by
  have hscore : 0.3 < score t entry := by
    rw [score, h, Similarity.likeness_self]
    decide
  have hmem : entry ∈ table.filter fun entry => 0.3 < score t entry := List.mem_filter.2 ⟨hentry, decide_eq_true hscore⟩
  obtain ⟨first, rest, hfilter⟩ := List.exists_cons_of_ne_nil (List.ne_nil_of_mem hmem)
  rw [similar?, hfilter]
  exact foldl_moreSimilar_ne_none t rest first

/-- A note about a similar name, if there is one. -/
def similarNote (table : Table) (t : Text) : List String :=
  match similar? table t with
  | some (name, meaning) => [s!"note: {meaning.word} '{String.ofList name}' has a similar name"]
  | none => []

/-! ## Faults -/

/-- Notes on a symbol that no expression uses. -/
def foreignNote : Foreign → List String
  | .greater | .less => ["note: expected an expression but found an inequality"]
  | .equal => ["note: expected an expression but found an equation"]
  | .pipe => ["note: use the 'abs' function to compute absolute value"]
  | _ => []

/-- Notes on tokens that cannot be put in order. -/
def parseNotes (table : Table) (e : ParseError) : List String :=
  match e.cause with
  | .lex .invalidCharacter =>
    ["note: available tokens are numbers, alphabetic identifiers, and symbols +-*/^,()"]
  | .lex (.unsupported f) => foreignNote f
  | .number _ => ["note: parsing as floating point number"]
  | .unknownName => similarNote table e.source.text
  | .missingArguments => ["note: function arguments go in parentheses, for example 'sin(x)'"]
  | .parenMismatch | .strayComma => []

/-- Notes on a program that cannot be run. -/
def evalNotes (table : Table) (e : EvalError) : List String :=
  match e.cause, e.step with
  | .stackCount .., none => ["note: exactly 1 final value is expected on the stack after evaluation"]
  | .undefinedName name, _ => similarNote table name
  | _, _ => []

/-- The lines on an error without the source. -/
def errorLines (table : Table) : CompileError → List String
  | .parse e => s!"parse error: {e.cause.message}" :: parseNotes table e
  | .eval e => s!"evaluation error: {e.message}" :: evalNotes table e

/-- The report on an expression that is no function. -/
def compileError (table : Table) (src : Text) (e : CompileError) : String :=
  let place := match e.source? with
    | some place => underline src place.start place.length
    | none => []
  ofLines (place ++ errorLines table e)

end

/-! ## Programs and charts -/

/-- The steps of a program under a title. -/
def program (title : String) (p : Program) : String :=
  let steps := if p.isEmpty then ["  (empty)"] else p.map fun s => "  " ++ s.instr.text
  ofLines (s!"{title}: " :: steps)

/-- The points of a chart. -/
def pointLines (points : List (Point Float)) : List String :=
  if points.isEmpty then ["no zeros or poles found"]
  else "critical points:" :: points.map fun p => "  " ++ p.text

/-- What stands above a chart: its expression, the domain shown and the points. -/
def chartHead (c : Chart) (domain : Domain Float) : String :=
  ofLines ([s!"f(x) = {String.ofList c.expression}", s!"domain: {domain.text}"] ++ pointLines c.points ++ [""])

/-- A chart with what stands above it, if it can be written. -/
def chart? (c : Chart) (domain : Domain Float) (width : Nat) : Option String :=
  (c.render? width).map fun chart => chartHead c domain ++ chart

end Report
end SignChart
