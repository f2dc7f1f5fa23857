/-
  Programs for a stack machine, in postfix order.

  An instruction pushes a value, or takes arguments off the stack and pushes a result.  A `Step` is an
  instruction together with the source it was made from.
-/
import SignChart.Expr.Token
import SignChart.Number.Shortest

namespace SignChart

/-- An instruction. -/
inductive Instr where
  | push (value : Float)
  | operate (o : Operator)
  /-- Looks a name up. -/
  | load (name : Text)
  /-- Calls a function with `count` arguments. -/
  | call (name : Text) (count : Nat)

/-- An instruction and its source. -/
structure Step where
  instr : Instr
  source : Excerpt

/-- A program. -/
abbrev Program := List Step

/-- The instructions of a program. -/
def Program.instrs (p : Program) : List Instr := p.map Step.instr

/-- An instruction in words. -/
def Instr.text : Instr → String
  | .push value => s!"push {String.ofList value.text}"
  | .operate o => s!"call '{o.name}'"
  | .load name => s!"load '{String.ofList name}'"
  | .call name count => s!"call '{String.ofList name}' with {count}"

end SignChart
