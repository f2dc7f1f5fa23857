/-
  Running programs on a stack.

  Names are looked up once, before a program is run: `Table.action` turns an instruction into an
  `Action`, which knows its value, its input or its function.  `perform` does one action on a stack
  whose top is the head of the list.  A run starts with the empty stack and must leave one value.
-/
import SignChart.Expr.Library

namespace SignChart

/-! ## Errors -/

/-- Why a program cannot be run. -/
inductive EvalCause where
  | empty
  | argumentCount (name : Text) (arity : Arity) (found : Nat)
  | stackCount (expected found : Nat)
  | undefinedName (name : Text)
  | unboundVariable (name : Text)
deriving DecidableEq, Repr

def EvalCause.message : EvalCause → String
  | .empty => "cannot evaluate empty program"
  | .argumentCount name arity found =>
    let plural := if arity = .exactly 1 then "" else "s"
    s!"function '{String.ofList name}' requires {arity.text} argument{plural}, but found {found}"
  | .stackCount expected found =>
    let plural := if expected = 1 then "" else "s"
    s!"expected {expected} operation{plural} on the stack but found {found}"
  | .undefinedName name => s!"undefined identifier '{String.ofList name}'"
  | .unboundVariable name => s!"variable '{String.ofList name}' has no value bound"

/-- An error, and the step it belongs to. What is found wrong before the first or after the last step
belongs to none. -/
structure EvalError where
  cause : EvalCause
  step : Option Step

def EvalError.message (e : EvalError) : String := e.cause.message

/-! ## Actions -/

/-- An instruction with its name looked up. -/
inductive Action where
  | push (value : Float)
  | input (slot : Nat) (name : Text)
  | apply (name : Text) (f : Function) (count : Nat)
  | undefined (name : Text)

/-- The action of a name: a function takes `count` arguments, or as few as it can. -/
def Table.actionOf (table : Table) (name : Text) (count : Option Nat) : Action :=
  match table.lookup name with
  | some (.function f) => .apply name f (count.getD f.arity.min)
  | some (.constant value) => .push value
  | some (.input slot) => .input slot name
  | none => .undefined name

/-- The action of an instruction. -/
def Table.action (table : Table) : Instr → Action
  | .push value => .push value
  | .operate o => .apply o.name.toList o.function o.function.arity.min
  | .load name => table.actionOf name none
  | .call name count => table.actionOf name (some count)

/-- Does an action on a stack. -/
def perform (inputs : List Float) (action : Action) (stack : List Float) :
    Except EvalCause (List Float) :=
  match action with
  | .push value => .ok (value :: stack)
  | .input slot name =>
    match inputs[slot]? with
    | some value => .ok (value :: stack)
    | none => .error (.unboundVariable name)
  | .apply name f count =>
    if !f.arity.accepts count then .error (.argumentCount name f.arity count)
    else if stack.length < count then .error (.stackCount count stack.length)
    else .ok (f.apply (stack.take count).reverse :: stack.drop count)
  | .undefined name => .error (.undefinedName name)

/-! ## Runs -/

/-- A program with its names looked up. -/
abbrev Linked := List (Step × Action)

/-- Looks up the names of a program. -/
def Table.link (table : Table) (p : Program) : Linked := p.map fun s => (s, table.action s.instr)

/-- Does all actions, one after the other. -/
def performAll (inputs : List Float) : Linked → List Float → Except EvalError (List Float)
  | [], stack => .ok stack
  | (step, action) :: rest, stack =>
    match perform inputs action stack with
    | .ok stack => performAll inputs rest stack
    | .error cause => .error ⟨cause, some step⟩

/-- The value of a program that starts on a stack. -/
def Linked.runFrom (p : Linked) (inputs stack : List Float) : Except EvalError Float :=
  if p.isEmpty then .error ⟨.empty, none⟩
  else
    match performAll inputs p stack with
    | .ok [value] => .ok value
    | .ok stack => .error ⟨.stackCount 1 stack.length, none⟩
    | .error e => .error e

/-- The value of a program. -/
def Linked.run (p : Linked) (inputs : List Float) : Except EvalError Float := p.runFrom inputs []

/-- The value of a program whose names a table explains. -/
def Program.eval (p : Program) (table : Table) (inputs : List Float) : Except EvalError Float :=
  (table.link p).run inputs

/-- The value of a program that is run on a stack with values of an earlier run.  The stack is cleared before. -/
def Program.evalOver (p : Program) (table : Table) (inputs left : List Float) : Except EvalError Float :=
  (table.link p).runFrom inputs (left.drop left.length)

end SignChart
