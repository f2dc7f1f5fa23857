/-
  The dialogue with a user.

  A session holds the expression, its chart once that was computed, the domain and width to show, and the
  prompt that waits for an answer.  `Session.answer` takes a line and gives what is to be written and what
  comes next: the session goes on, or the user quits, or it fails.  Commands ask for up to three more lines,
  each at a prompt of its own.

  The chart is kept until the expression changes.  The automatic domain of the last chart is kept longer:
  a chart with a single point reuses its span.

  Whether a report can be put into a new file is not up to the session.  Every `Line` says what becomes of
  a report that is saved when it is answered (`Saving`).  A session in which a report is lost, or a field of
  a chart is too wide to be written, is over.
-/
import SignChart.Report

namespace SignChart

/-! ## Commands -/

/-- What a user can ask for. -/
inductive Command where
  | help
  | quit
  | set
  | solve
  | domain
  | eval
  | program
  | save
deriving DecidableEq, Repr

namespace Command

/-- All commands, in the order they are explained in. -/
def all : List Command := [help, quit, set, solve, domain, eval, program, save]

def name : Command → String
  | help => "help"
  | quit => "quit"
  | set => "set"
  | solve => "solve"
  | domain => "domain"
  | eval => "eval"
  | program => "prog"
  | save => "save"

def explanation : Command → String
  | help => "display help for each command"
  | quit => "quit the shell"
  | set => "set expression to analyze"
  | solve => "print the sign chart of the expression that has been set"
  | domain => "set displayed domain bounds and chart width"
  | eval => "evaluate the expression at some x"
  | program => "print program compiled from the expression (for debugging)"
  | save => "write the sign chart to a new file"

/-- The command of a name. -/
def ofName? (t : Text) : Option Command := all.find? fun c => c.name.toList = t

end Command

/-- A bound of the domain as a user types it: a number, or `auto` in any case for none. -/
def readBound (t : Text) : Except FloatError (Option Float) :=
  if t.asciiLower = "auto".toList then .ok none else (readFloat t).map some

/-! ## Sessions -/

/-- What the next line answers. -/
inductive Prompt where
  | command
  | expression
  | lowerBound
  | upperBound
  | width
  | argument (f : Evaluator)

/-- The state of a dialogue. -/
structure Session where
  /-- The expression, if one is set. -/
  expression : Option Text
  /-- The chart of the expression, if it was computed. -/
  chart : Option Chart
  /-- The automatic domain of the last chart. -/
  autoDomain : Option (Domain Float)
  userDomain : UserDomain Float
  width : Nat
  prompt : Prompt

/-- Why a session is over that the user did not quit. -/
inductive Failure where
  /-- There is no new file for a report. -/
  | noFile
  /-- A report could not be put into its file. -/
  | notWritten
  /-- A field of a chart is too wide. -/
  | wideField
deriving DecidableEq, Repr

/-- The exit code of the program. -/
def Failure.exitCode : Failure → Nat
  | .noFile | .notWritten => 1
  | .wideField => 101

/-- What comes after an answer. -/
inductive Next where
  | goesOn (s : Session)
  /-- The user quit. -/
  | quit
  | failed (cause : Failure)

/-- What becomes of a report that is saved. -/
inductive Saving where
  /-- It is in a new file of this name. -/
  | written (file : String)
  /-- The file is new, but the report is not in it. -/
  | lost
  /-- No new file could be made: there is one of its name already, or none is allowed. -/
  | refused
deriving DecidableEq, Repr

/-- A line that the user typed, and what becomes of a report that is saved when it is answered. -/
structure Line where
  text : Text
  saving : Saving

/-- What is to be done for the user. -/
inductive Effect where
  | write (text : String)
  /-- Puts a report into a new file. -/
  | save (report : String)
deriving DecidableEq, Repr

/-- What is written when a report was put into a file. -/
def savedText (file : String) : String := Report.ofLines [s!"wrote {file}"]

/-- What is written where an expression is needed and none is set. -/
def noExpression : String := Report.ofLines ["error: no expression is defined"]

namespace Session

/-- The prompt for a command, below the expression. -/
def greeting (s : Session) : List Effect :=
  let shown := match s.expression with
    | some text => s!"f(x) = {String.ofList text}"
    | none => "f(x) is not set"
  [.write (Report.ofLines [shown] ++ "> ")]

/-- A session before its first prompt. -/
def start : Session where
  expression := some "(x+1)(x-2)/(x-3)".toList
  chart := none
  autoDomain := none
  userDomain := .free
  width := defaultWidth
  prompt := .command

/-- Ends a command: back to the prompt for the next one, after some effects. -/
def done (s : Session) (effects : List Effect) : Next × List Effect :=
  (.goesOn { s with prompt := .command }, effects ++ .write "\n" :: greeting s)

/-- Goes on to a prompt with its text, after some lines. -/
def ask (s : Session) (lines : List String) (prompt : Prompt) (question : String) : Next × List Effect :=
  (.goesOn { s with prompt }, [.write (Report.ofLines lines ++ question)])

/-- What is written where an answer cannot be read. -/
def answerError (line : Text) (message : String) : List Effect :=
  [.write (Report.ofLines ("" :: Report.underline line 0 (Text.byteSize line)
    ++ [s!"parse error: {message}"]))]

section
variable [Similarity]

/-! ### Charts -/

/-- What is written where there is no chart. -/
def chartError (text : Text) : ChartError → String
  | .compile e => Report.compileError standardTable text e
  | .disallowed found => Report.ofLines
    [s!"error: {(ChartError.disallowed found).message}",
     s!"note: '{Command.eval.name}' and '{Command.program.name}' still accept any supported function"]
  | e => Report.ofLines [s!"error: {e.message}"]

/-- An expression as the evaluator reads it. -/
def canonicalText (text : Text) : Text := canonical (normalize text)

/-- The chart of the expression, computed if it is not there yet, or what to write instead. -/
def ensureChart (s : Session) : Except String (Session × Chart) :=
  match s.chart with
  | some c => .ok (s, c)
  | none =>
    match s.expression with
    | none => .error noExpression
    | some text =>
      match Chart.ofInput text s.autoDomain with
      | .ok c => .ok ({ s with chart := some c, autoDomain := some c.domain }, c)
      | .error e => .error (chartError (canonicalText text) e)

/-- What stands above a chart in its report. -/
def reportHead (s : Session) (c : Chart) : String := Report.chartHead c (s.userDomain.resolve c.domain)

/-- The report on a chart with the user's domain, if the chart can be written. -/
def report? (s : Session) (c : Chart) : Option String :=
  Report.chart? c (s.userDomain.resolve c.domain) s.width

/-- A note on the automatic domain, where another one is shown. -/
def domainNote (s : Session) (c : Chart) : String :=
  if s.userDomain.isEmpty then ""
  else Report.ofLines [s!"note: automatic domain is {c.domain.text}"]

/-- Shows the chart of the expression. -/
def showChart (s : Session) : Next × List Effect :=
  match s.ensureChart with
  | .ok (s, c) =>
    match s.report? c with
    | some report => s.done [.write ("\n" ++ report ++ s.domainNote c)]
    | none => (.failed .wideField, [.write ("\n" ++ s.reportHead c)])
  | .error text => s.done [.write text]

/-- Puts the chart of the expression into a file. -/
def saveChart (s : Session) (saving : Saving) : Next × List Effect :=
  match s.ensureChart with
  | .ok (s, c) =>
    match saving, s.report? c with
    | .refused, _ => (.failed .noFile, [])
    -- the file is there by then, with what stands above the chart
    | _, none => (.failed .wideField, [.save (s.reportHead c)])
    | .lost, some _ => (.failed .notWritten, [])
    | .written file, some report => s.done [.save report, .write (savedText file)]
  | .error text => s.done [.write text]

/-! ### Functions -/

/-- Goes on with the function of the expression, or tells what is wrong with it. -/
def withFunction (s : Session) (next : Evaluator → Next × List Effect) : Next × List Effect :=
  match s.expression with
  | none => s.done [.write noExpression]
  | some text =>
    match compile (canonicalText text) with
    | .ok f => next f
    | .error e => s.done [.write ("\n" ++ Report.compileError standardTable (canonicalText text) e)]

/-- What is written for the value of a function. -/
def valueText (f : Evaluator) (x : Float) : String :=
  match f.eval x with
  | .ok y => s!"f({String.ofList x.text}) = {String.ofList y.text}"
  | .error e => s!"evaluation error: {e.message}"

/-! ### The prompts for a domain -/

/-- Asks for the lower bound. -/
def askLower (s : Session) : Next × List Effect :=
  s.ask [s!"domain = {s.userDomain.text}", "",
      "note: leave blank to skip, 'auto' to follow the critical points"]
    .lowerBound s!"?x min (is {UserDomain.boundText s.userDomain.min}) = "

/-- Asks for the upper bound. -/
def askUpper (s : Session) : Next × List Effect :=
  s.ask [] .upperBound s!"?x max (is {UserDomain.boundText s.userDomain.max}) = "

/-- Asks for the width. -/
def askWidth (s : Session) : Next × List Effect :=
  s.ask [s!"note: width must be at least {minWidth}"] .width s!"?width (is {s.width}) = "

/-! ### Answers -/

/-- Does a command. -/
def obey (s : Session) (saving : Saving) : Command → Next × List Effect
  | .help => s.done [.write (Report.ofLines (Command.all.map fun c => s!"{c.name}: {c.explanation}"))]
  | .quit => (.quit, [])
  | .set => s.ask [] .expression "f(x) = "
  | .solve => s.showChart
  | .domain => s.askLower
  | .eval => s.withFunction fun f => s.ask [] (.argument f) s!"?{variableName} = "
  | .program => s.withFunction fun f =>
    s.done [.write (Report.program s!"program for '{String.ofList f.source}'" f.program)]
  | .save => s.saveChart saving

/-- Takes an answer without blanks around it. -/
def take (s : Session) (saving : Saving) (line : Text) : Next × List Effect :=
  match s.prompt with
  | .command =>
    let (next, effects) := match Command.ofName? line.asciiLower with
      | some c => s.obey saving c
      | none => s.done [.write (Report.ofLines ["Unknown command, try \"help\" for help"])]
    (next, .write "\n" :: effects)
  | .expression =>
    if line = [] then s.done []
    else showChart { s with expression := some line, chart := none }
  | .lowerBound =>
    if line = [] then s.askUpper
    else match readBound line with
      | .ok b => askUpper { s with userDomain := { s.userDomain with min := b } }
      | .error e => s.done (answerError line e.message)
  | .upperBound =>
    if line = [] then s.askWidth
    else match readBound line with
      | .ok b => askWidth { s with userDomain := { s.userDomain with max := b } }
      | .error e => s.done (answerError line e.message)
  | .width =>
    if line = [] then s.done []
    else match readCount line with
      | .ok n => done { s with width := max n minWidth } []
      | .error e => s.done (answerError line e.message)
  | .argument f =>
    match readFloat line with
    | .ok x => s.done [.write (Report.ofLines [valueText f x])]
    | .error e => s.done (answerError line e.message)

/-- Takes a line that the user typed. -/
def answer (s : Session) (line : Line) : Next × List Effect := s.take line.saving line.text.trim

/-- What is put into a new file when a line is answered. -/
def toSave? (s : Session) (text : Text) : Option String :=
  match s.prompt, Command.ofName? text.trim.asciiLower with
  | .command, some .save =>
    match s.ensureChart with
    | .ok (s, c) => some ((s.report? c).getD (s.reportHead c))
    | .error _ => none
  | _, _ => none

/-- What a script of lines leads to: all effects, and what comes next. -/
def run (s : Session) : List Line → Next × List Effect
  | [] => (.goesOn s, [])
  | line :: rest =>
    match s.answer line with
    | (.goesOn s, effects) =>
      let (last, more) := s.run rest
      (last, effects ++ more)
    | (last, effects) => (last, effects)

end

end Session
end SignChart
