/-
  LaTeX notation written as plain notation.

  `latexToPlain` replaces commands by what they stand for: fractions and roots with their arguments in
  parentheses, symbols and Greek letters by a table, spacing by a space.  Braces that only group are
  dropped; the braces of an exponent become parentheses unless they hold a single atom.  A command that
  is not known keeps its name if that is a word, and is a space otherwise, so no backslash is left.

  An argument is a brace group, a command, or one character.  A group that is never closed extends to
  the end of the text.
-/
import SignChart.Text.Group

namespace SignChart

/-! ## Commands -/

/-- Commands that are written as a symbol or under another name. -/
def latexSymbols : List (String × String) :=
  [("cdot", "*"), ("cdotp", "*"), ("times", "*"), ("ast", "*"), ("div", "/"), ("pm", "+/-"),
   ("minus", "-"), ("degree", "deg"), ("\x7b", "\x7b"), ("\x7d", "\x7d"),
   ("varepsilon", "epsilon"), ("vartheta", "theta"), ("varpi", "pi"), ("varphi", "phi")]

/-- Commands that only set space. -/
def latexSpaces : List String :=
  ["\\", ",", ";", ":", "!", " ", "quad", "qquad", "thinspace", "medspace", "thickspace"]

/-- Commands that are written as their own name in lower case. -/
def latexNames : List String :=
  ["alpha", "beta", "gamma", "delta", "epsilon", "zeta", "eta", "theta", "iota", "kappa", "lambda",
   "mu", "nu", "xi", "pi", "rho", "sigma", "tau", "upsilon", "phi", "chi", "psi", "omega",
   "log", "ln", "lg", "exp", "sin", "cos", "tan", "arcsin", "arccos", "arctan", "sinh", "cosh", "tanh",
   "min", "max"]

/-- What a command does. -/
inductive LatexCommand where
  /-- Takes a numerator and a denominator. -/
  | fraction
  /-- Takes an index in brackets, which may be missing, and a radicand. -/
  | root
  /-- Takes the name of a function. -/
  | operatorName
  /-- Stands in front of a delimiter, where a point is an invisible one. -/
  | delimiter
  /-- Stands for a text. -/
  | written (text : Text)
deriving DecidableEq, Repr

/-- The command of a name. The case of the name does not matter to the commands that are known. -/
def LatexCommand.ofName (name : Text) : LatexCommand :=
  let lower := String.ofList name.asciiLower
  if lower ∈ ["frac", "dfrac", "tfrac"] then .fraction
  else if lower = "sqrt" then .root
  else if lower = "operatorname" then .operatorName
  else if lower ∈ ["left", "right", "bigl", "bigr", "big"] then .delimiter
  else match latexSymbols.lookup lower with
    | some symbol => .written symbol.toList
    | none =>
      if lower ∈ latexSpaces then .written [' ']
      else if lower ∈ latexNames then .written name.asciiLower
      else if name.all isLetter then .written name
      else .written [' ']

/-! ## Names and arguments -/

/-- The name of a command that starts here, and the text after it: a run of letters, or else one
character. -/
def readName (t : Text) : Text × Text :=
  if t.takeWhile isLetter ≠ [] then (t.takeWhile isLetter, t.dropWhile isLetter)
  else (t.take 1, t.drop 1)

/-- The argument that starts here, and the text after it. -/
def readArgument (t : Text) : Text × Text :=
  match Group.brace? t.trimStart with
  | some g => (g.content, g.beyond)
  | none =>
    match t.trimStart with
    | [] => ([], [])
    | c :: r =>
      if c = '\\' then
        let (name, rest) := readName r
        (c :: name, rest)
      else ([c], r)

/-- The bracketed index that starts here, if there is one, and the text after it. -/
def readIndex (t : Text) : Option Text × Text :=
  match Group.bracket? t.trimStart with
  | some g => (some g.content, g.beyond)
  | none => (none, t)

/-! What is read and what is left are never longer than the text. -/

theorem Text.length_trimStart_le (t : Text) : t.trimStart.length ≤ t.length :=
  (List.dropWhile_sublist _).length_le

theorem length_of_brace? {t : Text} {g : Group} (h : Group.brace? t = some g) :
    g.content.length < t.length ∧ g.beyond.length < t.length :=
  ⟨Group.length_content_lt h, Group.length_beyond_lt h⟩

theorem readName_length (t : Text) :
    (readName t).1.length + (readName t).2.length = t.length := by
  unfold readName
  split
  · rw [← List.length_append, List.takeWhile_append_dropWhile]
  · cases t <;> simp [Nat.add_comm]

theorem readArgument_length (t : Text) :
    (readArgument t).1.length ≤ t.length ∧ (readArgument t).2.length ≤ t.length := by
  have h := Text.length_trimStart_le t
  unfold readArgument
  split
  · next g hg =>
    have h1 := Group.length_beyond_lt hg
    have h2 := Group.length_content_lt hg
    simp only
    omega
  · split
    · simp
    · next c r hr =>
      rw [hr] at h
      split
      · have := readName_length r
        simp only [List.length_cons] at h ⊢
        omega
      · simp only [List.length_cons, List.length_nil] at h ⊢
        omega

theorem readIndex_length (t : Text) :
    (∀ i ∈ (readIndex t).1, i.length ≤ t.length) ∧ (readIndex t).2.length ≤ t.length := by
  have h := Text.length_trimStart_le t
  unfold readIndex
  split
  · next g hg =>
    have h1 := Group.length_beyond_lt hg
    have h2 := Group.length_content_lt hg
    simp only [Option.mem_def, Option.some.injEq, forall_eq']
    omega
  · simp

/-! ## The conversion -/

/-- A single number, name or variable. -/
def isAtom (t : Text) : Bool := t ≠ [] && t.all fun c => isLetterOrDigit c || c = '.'

/-- A text in parentheses. -/
def parenthesized (t : Text) : Text := '(' :: t ++ [')']

/-- A quotient of two texts. -/
def quotient (num den : Text) : Text := parenthesized num ++ '/' :: parenthesized den

/-- A text in plain notation. -/
def latexToPlain (t : Text) : Text :=
  match t with
  | [] => []
  | c :: r =>
    if c = '\\' then
      match LatexCommand.ofName (readName r).1 with
      | .fraction =>
        let num := readArgument (readName r).2
        let den := readArgument num.2
        quotient (latexToPlain num.1).trim (latexToPlain den.1).trim ++ latexToPlain den.2
      | .root =>
        let index := readIndex (readName r).2
        let radicand := readArgument index.2
        let body := parenthesized (latexToPlain radicand.1).trim
        let root := match _h : index.1 with
          | some i => body ++ '^' :: parenthesized ('1' :: '/' :: parenthesized (latexToPlain i).trim)
          | none => "sqrt".toList ++ body
        root ++ latexToPlain radicand.2
      | .operatorName =>
        let name := readArgument (readName r).2
        (latexToPlain name.1).trim ++ latexToPlain name.2
      | .delimiter =>
        let rest := (readName r).2
        latexToPlain (if rest.head? = some '.' then rest.tail else rest)
      | .written text => text ++ latexToPlain (readName r).2
    else if c = '^' ∨ c = '_' then
      match _h : Group.brace? (Text.trimStart r) with
      | some g =>
        let inner := (latexToPlain g.content).trim
        c :: (if isAtom inner then inner else parenthesized inner) ++ latexToPlain g.beyond
      | none => c :: latexToPlain r
    else if c = '{' ∨ c = '}' then latexToPlain r
    else c :: latexToPlain r
termination_by t.length
decreasing_by
  all_goals
    have hn := readName_length r
    have hi := readIndex_length (readName r).2
    have ha := readArgument_length (readName r).2
    have hb := readArgument_length (readArgument (readName r).2).2
    have hc := readArgument_length (readIndex (readName r).2).2
    have ht := Text.length_trimStart_le r
    grind [→ length_of_brace?]

end SignChart
