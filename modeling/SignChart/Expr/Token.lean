/-
  Tokens of expressions.

  A `Lexer` reads tokens off the front of a text.  `Lexer.next?` gives the next token or the error that
  ends reading; `Lexer.tokens` gives all there are.  Blanks between tokens are skipped, and nothing
  else is.  A plus or minus sign is an operator between operands or the sign of one, depending on the
  token before it.
-/
import SignChart.Text.Blank
import SignChart.Expr.Operator

namespace SignChart

/-! ## Tokens -/

/-- A piece of a source text and the byte it starts at. -/
structure Excerpt where
  start : Nat
  text : Text
deriving DecidableEq, Repr

/-- The length of an excerpt in bytes. -/
def Excerpt.length (e : Excerpt) : Nat := Text.byteSize e.text

/-- Symbols that belong to other notations and that no expression uses. -/
inductive Foreign where
  | greater
  | less
  | equal
  | pipe
  | openBracket
  | closeBracket
  | openBrace
  | closeBrace
deriving DecidableEq, Repr

/-- What a token is. -/
inductive TokenKind where
  | ident
  | number
  | op (o : Operator)
  | comma
  | openParen
  | closeParen
  | foreign (f : Foreign)
deriving DecidableEq, Repr

/-- A token. -/
structure Token where
  kind : TokenKind
  source : Excerpt
deriving DecidableEq, Repr

/-- Why reading stopped. -/
inductive LexCause where
  | invalidCharacter
  | unsupported (f : Foreign)
deriving DecidableEq, Repr

def LexCause.message : LexCause → String
  | .invalidCharacter => "invalid character"
  | .unsupported _ => "unsupported character"

/-- An error and the characters it is about. -/
structure LexError where
  cause : LexCause
  source : Excerpt
deriving DecidableEq, Repr

/-- After this token an operand is due, so that a plus or minus is a sign. -/
def expectsOperand : Option TokenKind → Bool
  | none | some (.op _) | some .comma | some .openParen => true
  | some _ => false

/-! ## The lexer -/

/-- A place in a source text. -/
structure Lexer where
  /-- The text that is still to be read. -/
  rest : Text
  /-- The byte at which that text starts. -/
  pos : Nat
  /-- The kind of the last token that `next?` gave. -/
  prev : Option TokenKind
  /-- An error was given, and nothing more will be. -/
  failed : Bool
deriving Repr

namespace Lexer

/-- The start of a source text. -/
def ofText (t : Text) : Lexer := ⟨t, 0, none, false⟩

/-- The lexer behind the first `n` characters. -/
def drop (l : Lexer) (n : Nat) : Lexer :=
  { l with rest := l.rest.drop n, pos := l.pos + Text.byteSize (l.rest.take n) }

/-- The first `n` characters as a token, and the lexer behind them. -/
def take (l : Lexer) (kind : TokenKind) (n : Nat) : Token × Lexer :=
  (⟨kind, l.pos, l.rest.take n⟩, l.drop n)

/-- The lexer behind the blanks that come next. -/
def trim (l : Lexer) : Lexer := l.drop (l.rest.takeWhile isBlank).length

/-- The symbol that comes next: its kind and its number of characters. A doubled star is the same as
`^`. -/
def symbolAt (prev : Option TokenKind) : Text → Option (TokenKind × Nat)
  | '*' :: '*' :: _ => some (.op .pow, 2)
  | '*' :: _ => some (.op .mul, 1)
  | '-' :: _ => some (.op (if expectsOperand prev then .neg else .sub), 1)
  | '+' :: _ => some (.op (if expectsOperand prev then .pos else .add), 1)
  | '/' :: _ => some (.op .div, 1)
  | '^' :: _ => some (.op .pow, 1)
  | ',' :: _ => some (.comma, 1)
  | '(' :: _ => some (.openParen, 1)
  | ')' :: _ => some (.closeParen, 1)
  | '>' :: _ => some (.foreign .greater, 1)
  | '<' :: _ => some (.foreign .less, 1)
  | '=' :: _ => some (.foreign .equal, 1)
  | '|' :: _ => some (.foreign .pipe, 1)
  | '[' :: _ => some (.foreign .openBracket, 1)
  | ']' :: _ => some (.foreign .closeBracket, 1)
  | '{' :: _ => some (.foreign .openBrace, 1)
  | '}' :: _ => some (.foreign .closeBrace, 1)
  | _ => none

/-- Reads a symbol, also one that no expression uses. -/
def symbol? (l : Lexer) : Option (Token × Lexer) :=
  (symbolAt l.prev l.rest).map fun (kind, n) => l.take kind n

/-- The length of the run at the front of a text that starts with a character of class `first` and
goes on with characters of class `more`. -/
def runLength (first more : Char → Bool) : Text → Nat
  | [] => 0
  | c :: r => if first c then (r.takeWhile more).length + 1 else 0

/-- Reads a run of characters as a token. -/
def run? (l : Lexer) (kind : TokenKind) (first more : Char → Bool) : Option (Token × Lexer) :=
  match runLength first more l.rest with
  | 0 => none
  | n + 1 => some (l.take kind (n + 1))

/-- Reads a name: a letter, then letters and digits (`log10`). -/
def ident? (l : Lexer) : Option (Token × Lexer) := l.run? .ident isLetter isLetterOrDigit

/-- Reads a number: digits and points. -/
def number? (l : Lexer) : Option (Token × Lexer) :=
  let numeric (c : Char) : Bool := c.isDigit || c = '.'
  l.run? .number numeric numeric

/-- Reads a token of any kind. -/
def token? (l : Lexer) : Option (Token × Lexer) :=
  match l.symbol? with
  | some r => some r
  | none =>
    match l.ident? with
    | some r => some r
    | none => l.number?

/-- What comes next, and the lexer behind it: a token, an error, or nothing at the end of the text and
after an error. A character that starts no token is not read over. -/
def next? (l : Lexer) : Option (Except LexError Token) × Lexer :=
  if l.failed then (none, l)
  else
    let l := l.trim
    match l.rest with
    | [] => (none, l)
    | c :: _ =>
      match l.token? with
      | none => (some (.error ⟨.invalidCharacter, l.pos, [c]⟩), { l with failed := true })
      | some (tok, l) =>
        match tok.kind with
        | .foreign f => (some (.error ⟨.unsupported f, tok.source⟩), { l with failed := true })
        | kind => (some (.ok tok), { l with prev := some kind })

/-! ## All tokens -/

theorem length_drop_lt {l : Lexer} {n : Nat} (hn : 0 < n) (hl : l.rest ≠ []) :
    (l.drop n).rest.length < l.rest.length := by
  have := List.length_pos_iff.2 hl
  simp only [drop, List.length_drop]
  omega

theorem symbolAt_pos {prev : Option TokenKind} {t : Text} {k : TokenKind} {n : Nat}
    (h : symbolAt prev t = some (k, n)) : 0 < n := by
  unfold symbolAt at h
  split at h <;> simp at h <;> omega

theorem length_of_token? {l m : Lexer} {tok : Token} (hl : l.rest ≠ []) (h : l.token? = some (tok, m)) :
    m.rest.length < l.rest.length := by
  have run {kind : TokenKind} {first more : Char → Bool}
      (h : l.run? kind first more = some (tok, m)) : m.rest.length < l.rest.length := by
    unfold run? at h
    split at h
    · simp at h
    · next n hn =>
      cases h
      exact length_drop_lt (by omega) hl
  unfold token? at h
  split at h
  · next r hr =>
    cases h
    obtain ⟨⟨k, n⟩, hn, he⟩ := Option.map_eq_some_iff.1 hr
    cases he
    exact length_drop_lt (symbolAt_pos hn) hl
  · split at h
    · next r hr => cases h; exact run hr
    · exact run h

theorem length_trim_le (l : Lexer) : l.trim.rest.length ≤ l.rest.length := by
  simp only [trim, drop, List.length_drop]
  omega

theorem length_of_next? {l m : Lexer} {tok : Token} (h : l.next? = (some (.ok tok), m)) :
    m.rest.length < l.rest.length := by
  unfold next? at h
  have ht := length_trim_le l
  split at h
  · simp at h
  · dsimp only at h
    split at h
    · simp at h
    · next c r hr =>
      split at h
      · simp at h
      · next tok' m' hm =>
        have := length_of_token? (by simp [hr]) hm
        split at h
        · simp at h
        · cases h
          simp only
          omega

/-- All that is still to come: tokens, with an error at most at the end. -/
def tokens (l : Lexer) : List (Except LexError Token) :=
  match _h : l.next? with
  | (none, _) => []
  | (some (.error e), _) => [.error e]
  | (some (.ok tok), m) => .ok tok :: m.tokens
termination_by l.rest.length
decreasing_by exact length_of_next? _h

end Lexer
end SignChart
