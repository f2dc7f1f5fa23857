/-
  The dialogue on standard input and output.

  Lines are read until the session is over or the input ends.  A report is saved in a new file that is named
  after the time, to the second; what becomes of it is told to the session with the line.
-/
import SignChart.Session

namespace SignChart

/-- The name of a report file. -/
def reportName (time : String) : String := s!"fortegn_output-{time}.txt"

/-- Puts a report into a new file, and gives what became of it. -/
def saveReport (name report : String) : IO Saving := do
  let file ← try some <$> IO.FS.Handle.mk name .writeNew catch _ => pure none
  match file with
  | none => return .refused
  | some file =>
    try
      file.putStr report
      file.flush
      return .written name
    catch _ => return .lost

/-- Shows the user what an effect writes.  Reports are in their files by then. -/
def carryOut (out : IO.FS.Stream) : Effect → IO Unit
  | .write text => out.putStr text
  | .save _ => pure ()

section
variable [Similarity]

/-- Answers lines until the session is over, and gives the exit code.  The host tells the time. -/
partial def converse (time : IO String) (input out : IO.FS.Stream) (s : Session) : IO Nat := do
  out.flush
  let text ← input.getLine
  if text.isEmpty then return 0
  let saving ← match s.toSave? text.toList with
    | some report => saveReport (reportName (← time)) report
    -- nothing is saved
    | none => pure .refused
  let (next, effects) := s.answer ⟨text.toList, saving⟩
  effects.forM (carryOut out)
  match next with
  | .goesOn s => converse time input out s
  | .quit => out.flush; return 0
  | .failed cause => out.flush; return cause.exitCode

/-- The program. -/
def shell (time : IO String) : IO Nat := do
  let out ← IO.getStdout
  Session.start.greeting.forM (carryOut out)
  converse time (← IO.getStdin) out .start

end

end SignChart
