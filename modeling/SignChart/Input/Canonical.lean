/-
  The canonical form of an expression, as the evaluator reads it.

  `clean` writes decimal commas as points, drops blanks and puts all in lower case.  The clean text is
  taken apart into pieces: numbers, words that stand for a value, names of functions, parentheses and
  single other characters.  Between two neighbours that multiply each other (`PieceKind.multiplies`) a star
  is written.  Last, `^` becomes `**`.

  A run of letters stands for values if it is made of the words `x`, `pi`, `tau` and `e` alone, so that
  `pix` is `pi*x`; any other run is the name of a function, to which digits may belong (`log10`).
-/
import SignChart.Text.Blank
import SignChart.Text.LowerCase

namespace SignChart

/-! ## Cleaning -/

/-- A text with decimal commas as points, without blanks, in lower case; `prev` is the character in
front of it.  A comma is decimal if it stands between two digits with nothing else in between. -/
def cleanFrom (prev : Option Char) : Text → Text
  | [] => []
  | c :: r =>
    if c = ',' ∧ prev.any Char.isDigit ∧ r.head?.any Char.isDigit then '.' :: cleanFrom c r
    else if isBlank c then cleanFrom c r
    else lowerCase c ++ cleanFrom c r

/-- A text with decimal commas as points, without blanks, in lower case. -/
def clean (t : Text) : Text := cleanFrom none t

/-! ## Pieces -/

/-- What a piece of an expression is. -/
inductive PieceKind where
  | number
  | value
  | function
  | opening
  | closing
  | other
deriving DecidableEq, Repr

/-- A piece of an expression. -/
structure Piece where
  kind : PieceKind
  text : Text
deriving DecidableEq, Repr

/-- Two pieces next to each other are factors of a product.  Numbers in a row are left to the lexer,
and a function name binds what follows it. -/
def PieceKind.multiplies : PieceKind → PieceKind → Bool
  | .number, .value | .number, .function | .number, .opening => true
  | .closing, .number | .closing, .value | .closing, .function | .closing, .opening => true
  | .value, .number | .value, .value | .value, .function | .value, .opening => true
  | _, _ => false

/-- The words that stand for a value.  None begins another. -/
def valueWords : List Text := [['x'], ['p', 'i'], ['t', 'a', 'u'], ['e']]

/-- A digit or the decimal point. -/
def isNumeric (c : Char) : Bool := c.isDigit || c = '.'

/-- The words that a run of letters is made of, if all of them stand for values. -/
def valueRun? (letters : Text) : Option (List Text) :=
  if letters = [] then some []
  else match _h : valueWords.find? (·.isPrefixOf letters) with
    | some word => (valueRun? (letters.drop word.length)).map (word :: ·)
    | none => none
termination_by letters.length
decreasing_by
  have hw : 0 < word.length := by
    have := List.mem_of_find?_eq_some _h
    have all : ∀ w ∈ valueWords, 0 < w.length := by decide
    exact all word this
  have : letters.length ≠ 0 := by simpa using ‹¬letters = []›
  simp only [List.length_drop]
  omega

theorem length_dropWhile_lt {p : Char → Bool} {c : Char} (h : p c = true) (r : Text) :
    ((c :: r).dropWhile p).length < (c :: r).length := by
  have := (List.dropWhile_sublist p (l := r)).length_le
  simp only [List.dropWhile_cons, h, if_true, List.length_cons]
  omega

/-- The pieces of a clean text. -/
def pieces (t : Text) : List Piece :=
  match t with
  | [] => []
  | c :: r =>
    if _hn : isNumeric c then
      ⟨.number, (c :: r).takeWhile isNumeric⟩ :: pieces ((c :: r).dropWhile isNumeric)
    else if _hl : isLetter c then
      match valueRun? ((c :: r).takeWhile isLetter) with
      | some words => words.map (⟨.value, ·⟩) ++ pieces ((c :: r).dropWhile isLetter)
      | none =>
        ⟨.function, (c :: r).takeWhile isLetterOrDigit⟩ :: pieces ((c :: r).dropWhile isLetterOrDigit)
    else
      let kind := if c = '(' then .opening else if c = ')' then .closing else .other
      ⟨kind, [c]⟩ :: pieces r
termination_by t.length
decreasing_by
  · exact length_dropWhile_lt _hn r
  · exact length_dropWhile_lt _hl r
  · exact length_dropWhile_lt (by simp_all [isLetter, isLetterOrDigit, Char.isAlphanum]) r
  · simp

/-- Pieces written one after another behind a piece of kind `prev`, with a star between factors. -/
def writeFrom (prev : PieceKind) : List Piece → Text
  | [] => []
  | p :: rest =>
    (if prev.multiplies p.kind then ['*'] else []) ++ p.text ++ writeFrom p.kind rest

/-- The canonical form of an expression. -/
def canonical (t : Text) : Text :=
  (writeFrom .other (pieces (clean t))).flatMap fun c => if c = '^' then ['*', '*'] else [c]

/-! ## The alphabet of charts -/

/-- The characters of an expression that a chart can be made of: digits, `x`, the four operations,
powers, parentheses and the decimal point. -/
def isChartable (c : Char) : Bool := c.isDigit || c ∈ ['x', '+', '-', '*', '/', '(', ')', '.']

/-- The first character of an expression that no chart can be made of. -/
def firstUnchartable? (t : Text) : Option Char := t.find? fun c => !isChartable c

end SignChart
