/-
  Expressions as functions of `x`.

  An expression is compiled by putting it into postfix order and running it once at zero.  Whether a
  run fails does not depend on the value of `x`, so the one run finds every fault that any run would.
-/
import SignChart.Expr.Postfix
import SignChart.Expr.Machine

namespace SignChart

/-- Why an expression is no function. -/
inductive CompileError where
  | parse (e : ParseError)
  | eval (e : EvalError)

def CompileError.message : CompileError → String
  | .parse e => e.message
  | .eval e => e.message

/-- The source that an error is about, if it is about any. -/
def CompileError.source? : CompileError → Option Excerpt
  | .parse e => some e.source
  | .eval e => e.step.map Step.source

/-- A function of `x`. -/
structure Evaluator where
  source : Text
  linked : Linked

namespace Evaluator

/-- The program of a function. -/
def program (f : Evaluator) : Program := f.linked.map Prod.fst

/-- The value at `x`, or why there is none. -/
def eval (f : Evaluator) (x : Float) : Except EvalError Float := f.linked.run [x]

/-- The value at `x`, NaN if there is none. -/
def call (f : Evaluator) (x : Float) : Float :=
  match f.eval x with
  | .ok y => y
  | .error _ => notANumber

end Evaluator

/-- The function of an expression. -/
def compile (src : Text) : Except CompileError Evaluator :=
  match parse standardTable src with
  | .error e => .error (.parse e)
  | .ok program =>
    let f : Evaluator := ⟨src, standardTable.link program⟩
    match f.eval 0.0 with
    | .ok _ => .ok f
    | .error e => .error (.eval e)

end SignChart
