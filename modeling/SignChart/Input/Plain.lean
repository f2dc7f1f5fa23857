/-
  Plain notation in one spelling.

  `plainSpelling` writes mathematical symbols in ASCII, a doubled star as `^`, braces as parentheses,
  a call `frac(a, b)` as a quotient, and the words `sqrt`, `pi` and `tau` in lower case.
-/
import SignChart.Input.Latex

namespace SignChart

/-! ## Symbols -/

/-- The ASCII writing of a symbol. -/
def asciiSymbol (c : Char) : Text :=
  match c with
  | '·' | '⋅' | '×' => ['*']
  | '÷' => ['/']
  | '−' | '–' => ['-']
  | 'π' => ['p', 'i']
  | 'τ' => ['t', 'a', 'u']
  | '²' => ['^', '2']
  | '³' => ['^', '3']
  | '{' => ['(']
  | '}' => [')']
  | _ => [c]

/-- A text with its symbols in ASCII and single stars only. -/
def asciiSymbols (t : Text) : Text := Text.replacePair '*' '*' ['^'] (t.flatMap asciiSymbol)

/-! ## Fractions -/

/-- The parenthesis group of a call of `frac` that the text starts with. -/
def fractionCall? (t : Text) : Option Group :=
  if Text.asciiLower (t.take 4) = ['f', 'r', 'a', 'c'] then Group.paren? (Text.trimStart (t.drop 4))
  else none

theorem length_of_fractionCall? {t : Text} {g : Group} (h : fractionCall? t = some g) :
    g.content.length < t.length ∧ g.beyond.length < t.length := by
  unfold fractionCall? at h
  split at h
  · have h1 := Group.length_content_lt h
    have h2 := Group.length_beyond_lt h
    have h3 := Text.length_trimStart_le (t.drop 4)
    have h4 := List.length_drop (i := 4) (l := t)
    omega
  · simp at h

/-- A piece is never longer than the text it is cut from. -/
theorem length_le_of_mem_splitOutside {sep : Char} {t s : Text} (h : s ∈ splitOutside sep t) :
    s.length ≤ t.length := by
  have hj := congrArg List.length (joinCut_cut (.char sep) t)
  simp only [splitOutside, List.mem_cons, List.mem_map, Prod.exists] at h
  simp only [joinCut, List.length_append, List.length_flatMap] at hj
  rcases h with rfl | ⟨c, s', hs, rfl⟩
  · omega
  · have := (List.sublist_flatten_of_mem (List.mem_map.2 ⟨(c, s'), hs, rfl⟩)
      (l := c :: s') (L := (cut (.char sep) t).2.map fun p => p.1 :: p.2)).length_le
    simp only [← List.flatMap_def, List.length_flatMap, List.length_cons] at this hj
    omega

/-- A text with every call of `frac` that has two arguments as a quotient, and any other call of it as
its arguments in parentheses.  `afterLetter` says that the text follows a letter, so that what starts
it is the end of a longer word. -/
def fractionsFrom (afterLetter : Bool) (t : Text) : Text :=
  match t with
  | [] => []
  | c :: r =>
    match _h : if afterLetter then none else fractionCall? (c :: r) with
    | some g =>
      let written := match _hs : splitOutside ',' g.content with
        | [num, den] => quotient (fractionsFrom false num.trim) (fractionsFrom false den.trim)
        | _ => parenthesized (fractionsFrom false g.content.trim)
      written ++ fractionsFrom false g.beyond
    | none => c :: fractionsFrom (isLetter c) r
termination_by t.length
decreasing_by
  · have hn := length_le_of_mem_splitOutside (s := num) (by rw [_hs]; simp)
    have ht := Text.length_trim_le num
    grind [→ length_of_fractionCall?]
  · have hn := length_le_of_mem_splitOutside (s := den) (by rw [_hs]; simp)
    have ht := Text.length_trim_le den
    grind [→ length_of_fractionCall?]
  · have ht := Text.length_trim_le g.content
    grind [→ length_of_fractionCall?]
  · grind [→ length_of_fractionCall?]
  · simp

/-- A text without calls of `frac`. -/
def fractions (t : Text) : Text := fractionsFrom false t

/-! ## Words -/

/-- A word in its usual case. -/
def usualCase (word : Text) : Text :=
  if word.asciiLower ∈ [['s', 'q', 'r', 't'], ['p', 'i'], ['t', 'a', 'u']] then word.asciiLower
  else word

/-- A text with its words in their usual case, when `word` is the beginning of the word that the text
goes on with. -/
def usualCaseFrom (word : Text) : Text → Text
  | [] => usualCase word
  | c :: r =>
    if isLetter c then usualCaseFrom (word ++ [c]) r
    else usualCase word ++ c :: usualCaseFrom [] r

/-- A text with its words, which are runs of letters, in their usual case. -/
def usualCases (t : Text) : Text := usualCaseFrom [] t

/-- A plain text in one spelling. -/
def plainSpelling (t : Text) : Text := usualCases (fractions (asciiSymbols t))

end SignChart
