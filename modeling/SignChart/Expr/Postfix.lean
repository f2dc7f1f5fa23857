/-
  Tokens put into postfix order.

  Operators wait until their right operand is complete.  A `Parser` keeps those that wait in the
  innermost open parenthesis, the later ones first, and a `Frame` for every parenthesis that is open,
  with the operators that wait outside it.  A binary operator first releases the waiting ones that bind
  their right operand tighter than it does; a comma, a closing parenthesis and the end release all that
  wait inside.

  The order of tokens is not checked: a program that lacks an operand fails when it is run.
-/
import SignChart.Expr.Library
import SignChart.Number.Reading

namespace SignChart

/-! ## Errors -/

/-- Why tokens cannot be put in order. -/
inductive ParseCause where
  | lex (cause : LexCause)
  | number (cause : FloatError)
  | parenMismatch
  | unknownName
  /-- A function name without a parenthesis behind it. -/
  | missingArguments
  /-- A comma outside all parentheses. -/
  | strayComma
deriving DecidableEq, Repr

def ParseCause.message : ParseCause → String
  | .lex cause => cause.message
  | .number cause => s!"invalid number: {cause.message}"
  | .parenMismatch => "mismatched parentheses"
  | .unknownName => "unknown identifier"
  | .missingArguments => "function is missing its argument list"
  | .strayComma => "comma outside of an argument list"

/-- An error and the source it is about. -/
structure ParseError where
  cause : ParseCause
  source : Excerpt
deriving DecidableEq, Repr

def ParseError.message (e : ParseError) : String :=
  s!"{e.cause.message} at '{String.ofList e.source.text}'"

/-! ## The parser -/

/-- An operator whose right operand is not complete. -/
structure Waiting where
  op : Operator
  source : Excerpt

/-- An open parenthesis. -/
structure Frame where
  opened : Excerpt
  /-- The function whose arguments stand in the parenthesis. -/
  callee : Option Excerpt
  /-- The commas read so far. -/
  commas : Nat
  /-- Nothing was read so far. -/
  empty : Bool
  /-- The operators that wait outside. -/
  outer : List Waiting

/-- The number of arguments in a parenthesis. -/
def Frame.count (f : Frame) : Nat := if f.empty then 0 else f.commas + 1

/-- The state of putting tokens in order. -/
structure Parser where
  /-- The steps so far, the last one first. -/
  output : List Step
  /-- The operators that wait in the innermost parenthesis, the last one first. -/
  waiting : List Waiting
  /-- The open parentheses, the innermost first. -/
  frames : List Frame
  /-- A function name that was just read. -/
  callee : Option Excerpt

namespace Parser

/-- Nothing read. -/
def start : Parser := ⟨[], [], [], none⟩

/-- Adds a step. -/
def emit (p : Parser) (instr : Instr) (source : Excerpt) : Parser :=
  { p with output := ⟨instr, source⟩ :: p.output }

/-- The steps of operators. -/
def steps (ws : List Waiting) : List Step := ws.map fun w => ⟨.operate w.op, w.source⟩

/-- Moves the waiting operators for which `leaves` holds to the output, the last one first, up to the
first for which it does not. -/
def release (p : Parser) (leaves : Waiting → Bool) : Parser :=
  { p with
    output := (steps (p.waiting.takeWhile leaves)).reverse ++ p.output
    waiting := p.waiting.dropWhile leaves }

/-- Moves all that waits inside the innermost parenthesis to the output. -/
def releaseAll (p : Parser) : Parser := p.release fun _ => true

/-- A waiting operator takes what was read as its right operand when the binary operator `o` follows. -/
def bindsBefore (o : Operator) (w : Waiting) : Bool :=
  o.rank < w.op.rank || (o.rank = w.op.rank && o.groupsLeft)

/-- Notes that the innermost parenthesis holds something. -/
def occupy (p : Parser) : Parser :=
  { p with frames := p.frames.modifyHead fun f => { f with empty := false } }

/-- Reads a token that may stand where it does. -/
def accept (table : Table) (p : Parser) (tok : Token) : Except ParseError Parser :=
  match tok.kind with
  | .number =>
    match readFloat tok.source.text with
    | .ok x => .ok (p.emit (.push x) tok.source)
    | .error e => .error ⟨.number e, tok.source⟩
  | .ident =>
    match table.lookup tok.source.text with
    | some (.function _) => .ok { p with callee := some tok.source }
    | some _ => .ok (p.emit (.load tok.source.text) tok.source)
    | none => .error ⟨.unknownName, tok.source⟩
  | .op o =>
    let p := if o.isSign then p else p.release (bindsBefore o)
    .ok { p with waiting := ⟨o, tok.source⟩ :: p.waiting }
  | .comma =>
    let p := p.releaseAll
    match p.frames with
    | [] => .error ⟨.strayComma, tok.source⟩
    | f :: rest => .ok { p with frames := { f with commas := f.commas + 1 } :: rest }
  | .openParen =>
    .ok { p with
      waiting := []
      frames := ⟨tok.source, p.callee, 0, true, p.waiting⟩ :: p.frames
      callee := none }
  | .closeParen =>
    let p := p.releaseAll
    match p.frames with
    | [] => .error ⟨.parenMismatch, tok.source⟩
    | f :: rest =>
      let p := { p with waiting := f.outer, frames := rest }
      match f.callee with
      | some name => .ok (p.emit (.call name.text f.count) name)
      | none => .ok p
  -- the lexer gives an error in place of such a token
  | .foreign k => .error ⟨.lex (.unsupported k), tok.source⟩

/-- Reads a token. A function name must be followed by a parenthesis. -/
def read (table : Table) (p : Parser) (tok : Token) : Except ParseError Parser :=
  match p.callee, tok.kind with
  | some _, .openParen => p.occupy.accept table tok
  | some name, _ => .error ⟨.missingArguments, name⟩
  | none, .closeParen => p.accept table tok
  | none, _ => p.occupy.accept table tok

/-- The program, when there are no more tokens. -/
def finish (p : Parser) : Except ParseError Program :=
  match p.callee, p.frames with
  | some name, _ => .error ⟨.missingArguments, name⟩
  | none, f :: _ => .error ⟨.parenMismatch, f.opened⟩
  | none, [] => .ok p.releaseAll.output.reverse

/-- Reads tokens to the end. -/
def readAll (table : Table) (p : Parser) : List (Except LexError Token) → Except ParseError Program
  | [] => p.finish
  | .error e :: _ => .error ⟨.lex e.cause, e.source⟩
  | .ok tok :: rest =>
    match p.read table tok with
    | .ok q => q.readAll table rest
    | .error e => .error e

end Parser

/-- The program of an expression. -/
def parse (table : Table) (src : Text) : Except ParseError Program :=
  Parser.start.readAll table (Lexer.ofText src).tokens

end SignChart
