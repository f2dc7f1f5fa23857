/-
  Whether a program runs does not depend on its inputs.

  The stack machine looks at no value.  What an action needs is enough values on the stack, an input in its slot,
  and a number of arguments that its function takes; two runs of one program on equally many inputs have the same
  of all three, whatever their values.  So they fail alike, at the same step and for the same cause, or both give
  a value.

  1. **Step.**  On stacks of one height an action fails alike, or leaves stacks of one height
     (`map_length_perform`).  A function is applied to as many arguments as it takes (`application_of_perform`).

  2. **Run.**  By induction on the program the same holds of all its actions (`map_length_performAll`), and so of
     its value (`outcome_run`).  What an earlier run left on the stack makes no difference (`evalOver_eq_eval`).

  3. **The run at zero.**  An expression is compiled if its program runs at zero.  Then it runs everywhere, and an
     expression that is refused would fail with the same error everywhere (`run_at_zero_decides`).
-/
import Mathlib
import SignChart.Expr.Evaluator

namespace SignChart

/-! ## Outcomes -/

/-- That a result is there, without the result; or the error. -/
def outcome {ε α : Type} (r : Except ε α) : Except ε Unit := r.map fun _ => ()

section Outcome
variable {ε α β : Type} {r : Except ε α} {s : Except ε β}

theorem exists_of_outcome_eq (h : outcome r = outcome s) {b : β} (hs : s = .ok b) : ∃ a, r = .ok a := by
  cases r with
  | ok a => exact ⟨a, rfl⟩
  | error e => rw [hs] at h; exact nomatch h

theorem error_of_outcome_eq (h : outcome r = outcome s) {e : ε} (hs : s = .error e) : r = .error e := by
  cases r with
  | ok a => rw [hs] at h; exact nomatch h
  | error d => rw [hs] at h; exact congrArg Except.error (Except.error.inj h)

end Outcome

/-! ## Steps -/

/-- A function and the arguments that it is applied to. -/
structure Application where
  function : Function
  arguments : List Float

/-- The application that an action is for, on a stack. -/
def Action.application? (stack : List Float) : Action → Option Application
  | .apply _ f count => some ⟨f, (stack.take count).reverse⟩
  | .push _ | .input _ _ | .undefined _ => none

section Step
variable {xs ys stack stack' : List Float} {action : Action} {a : Application}

/-- **Step.**  On stacks of one height and with equally many inputs, an action leaves stacks of one height, or
fails for the same cause. -/
theorem map_length_perform (action : Action) (hinputs : xs.length = ys.length)
    (hstack : stack.length = stack'.length) :
    (perform xs action stack).map List.length = (perform ys action stack').map List.length := by
  cases action with
  | push value => exact congrArg (fun n => Except.ok (n + 1)) hstack
  | undefined name => rfl
  | input slot name =>
    by_cases hslot : slot < xs.length
    · have hslot' : slot < ys.length := hinputs ▸ hslot
      rw [perform, perform, List.getElem?_eq_getElem hslot, List.getElem?_eq_getElem hslot']
      exact congrArg (fun n => Except.ok (n + 1)) hstack
    · have hslot' : ¬ slot < ys.length := hinputs ▸ hslot
      rw [perform, perform, List.getElem?_eq_none (by omega), List.getElem?_eq_none (by omega)]
  | apply name f count =>
    rw [perform, perform, hstack]
    split
    · rfl
    split
    · rfl
    · show Except.ok ((stack.drop count).length + 1) = Except.ok ((stack'.drop count).length + 1)
      rw [List.length_drop, List.length_drop, hstack]

/-- An action that is for an application, and does not fail, has as many arguments as the function takes, and puts
its value in their place. -/
theorem application_of_perform (h : perform xs action stack = .ok stack')
    (ha : action.application? stack = some a) :
    a.function.arity.accepts a.arguments.length = true ∧
      stack' = a.function.apply a.arguments :: stack.drop a.arguments.length := by
  cases action with
  | push | input | undefined => exact nomatch ha
  | apply name f count =>
    obtain rfl := Option.some.inj ha
    rw [perform] at h
    split at h
    · exact nomatch h
    · next haccepts =>
      split at h
      · exact nomatch h
      · next hcount =>
        have hlength : (stack.take count).reverse.length = count := by
          rw [List.length_reverse, List.length_take]; omega
        rw [hlength]
        exact ⟨by simpa using haccepts, (Except.ok.inj h).symm⟩

end Step

/-! ## Runs -/

/-- The applications of a run that starts on a stack, up to its end or to the action that fails. -/
def applications (inputs : List Float) : Linked → List Float → List Application
  | [], _ => []
  | (_, action) :: rest, stack =>
    match perform inputs action stack with
    | .ok stack' => (action.application? stack).toList ++ applications inputs rest stack'
    | .error _ => []

/-- The applications of the run of a program. -/
def Program.applications (p : Program) (table : Table) (inputs : List Float) : List Application :=
  SignChart.applications inputs (table.link p) []

section Run
variable {xs ys : List Float}

/-- **Run.**  What holds of one action holds of all of them, one after the other. -/
theorem map_length_performAll (hinputs : xs.length = ys.length) (p : Linked) :
    ∀ {stack stack' : List Float}, stack.length = stack'.length →
      (performAll xs p stack).map List.length = (performAll ys p stack').map List.length := by
  induction p with
  | nil => exact fun hstack => congrArg Except.ok hstack
  | cons entry rest ih =>
    obtain ⟨step, action⟩ := entry
    intro stack stack' hstack
    have hstep := map_length_perform action hinputs hstack
    rw [performAll, performAll]
    cases hx : perform xs action stack with
    | ok s =>
      cases hy : perform ys action stack' with
      | ok t =>
        rw [hx, hy] at hstep
        exact ih (Except.ok.inj hstep)
      | error cause => rw [hx, hy] at hstep; exact nomatch hstep
    | error cause =>
      cases hy : perform ys action stack' with
      | ok t => rw [hx, hy] at hstep; exact nomatch hstep
      | error cause' =>
        rw [hx, hy] at hstep
        obtain rfl : cause = cause' := Except.error.inj hstep
        rfl

/-- The value of a program is judged by the height of the stack that it leaves. -/
theorem outcome_run (hinputs : xs.length = ys.length) (p : Linked) :
    outcome (p.run xs) = outcome (p.run ys) := by
  have hrun := map_length_performAll hinputs p (rfl : ([] : List Float).length = [].length)
  unfold Linked.run Linked.runFrom
  split
  · rfl
  cases hx : performAll xs p [] with
  | error e =>
    cases hy : performAll ys p [] with
    | ok t => rw [hx, hy] at hrun; exact nomatch hrun
    | error e' => rw [hx, hy] at hrun; exact congrArg Except.error (Except.error.inj hrun)
  | ok s =>
    cases hy : performAll ys p [] with
    | error e => rw [hx, hy] at hrun; exact nomatch hrun
    | ok t =>
      have hlength : s.length = t.length := by rw [hx, hy] at hrun; exact Except.ok.inj hrun
      match s, t with
      | [], [] => rfl
      | [_], [_] => rfl
      | _ :: _ :: s, _ :: _ :: t =>
        show Except.error _ = Except.error _
        rw [hlength]

theorem outcome_eval (f : Evaluator) (x y : Float) : outcome (f.eval x) = outcome (f.eval y) :=
  outcome_run (show [x].length = [y].length from rfl) f.linked

/-- What is left on the stack from before makes no difference. -/
theorem evalOver_eq_eval (p : Program) (table : Table) (left : List Float) :
    p.evalOver table xs left = p.eval table xs := by
  rw [Program.evalOver, List.drop_length]
  rfl

/-- Every function of a run is applied to as many arguments as it takes. -/
theorem accepts_of_mem_applications {a : Application} (p : Linked) :
    ∀ {stack : List Float}, a ∈ applications xs p stack →
      a.function.arity.accepts a.arguments.length = true := by
  induction p with
  | nil => exact fun h => absurd h List.not_mem_nil
  | cons entry rest ih =>
    obtain ⟨step, action⟩ := entry
    intro stack h
    rw [applications] at h
    split at h
    · next stack' hperform =>
      rcases List.mem_append.1 h with h | h
      · exact (application_of_perform hperform (Option.mem_toList.1 h)).1
      · exact ih h
    · exact absurd h List.not_mem_nil

end Run

/-! ## The run at zero -/

/-- A compiled expression has run at zero. -/
theorem eval_zero_of_compile {text : Text} {f : Evaluator} (h : compile text = .ok f) :
    ∃ y, f.eval 0.0 = .ok y := by
  unfold compile at h
  split at h
  · exact nomatch h
  · dsimp only at h
    split at h
    · next y heval => exact ⟨y, Except.ok.inj h ▸ heval⟩
    · exact nomatch h

/-- An expression that is refused at the end has a program, and that failed at zero. -/
theorem eval_zero_of_compile_error {text : Text} {e : EvalError} (h : compile text = .error (.eval e)) :
    ∃ p, parse standardTable text = .ok p ∧ Evaluator.eval ⟨text, standardTable.link p⟩ 0.0 = .error e := by
  unfold compile at h
  split at h
  · exact absurd (Except.error.inj h) (by simp)
  · next p hparse =>
    dsimp only at h
    split at h
    · exact nomatch h
    · next d heval =>
      injection h with h
      injection h with h
      exact ⟨p, hparse, h ▸ heval⟩

/-- **The run at zero.**  Two runs of a program on equally many inputs both give a value or fail with the same
error, whatever is left on the stack before, and every function is applied to as many arguments as it takes.  So
what compiles has a value everywhere, and what is refused when it is run would fail with that error
everywhere. -/
theorem run_at_zero_decides :
    (∀ (p : Program) (table : Table) (xs ys left left' : List Float), xs.length = ys.length →
      outcome (p.evalOver table xs left) = outcome (p.evalOver table ys left') ∧
        ∀ a ∈ p.applications table xs, a.function.arity.accepts a.arguments.length = true) ∧
    (∀ text f, compile text = .ok f → ∀ x, ∃ y, f.eval x = .ok y) ∧
    ∀ text e, compile text = .error (.eval e) → ∃ p, parse standardTable text = .ok p ∧
      ∀ x, Evaluator.eval ⟨text, standardTable.link p⟩ x = .error e := by
  refine ⟨fun p table xs ys left left' hinputs => ⟨?_, fun a ha => accepts_of_mem_applications _ ha⟩,
    fun text f h x => ?_, fun text e h => ?_⟩
  · rw [evalOver_eq_eval, evalOver_eq_eval]
    exact outcome_run hinputs (table.link p)
  · obtain ⟨y, hzero⟩ := eval_zero_of_compile h
    exact exists_of_outcome_eq (outcome_eval f x 0.0) hzero
  · obtain ⟨p, hparse, hzero⟩ := eval_zero_of_compile_error h
    exact ⟨p, hparse, fun x => error_of_outcome_eq (outcome_eval _ x 0.0) hzero⟩

/-- The reciprocal, which is infinite at zero, as a program. -/
def reciprocal : Program := [⟨.push 1.0, 0, ['1']⟩, ⟨.load ['x'], 2, ['x']⟩, ⟨.operate .div, 1, ['/']⟩]

/-- A logarithm with one argument too many. -/
def overloaded : Program :=
  [⟨.load ['x'], 4, ['x']⟩, ⟨.load ['x'], 6, ['x']⟩, ⟨.load ['x'], 8, ['x']⟩,
    ⟨.call ['l', 'o', 'g'] 3, 0, ['l', 'o', 'g']⟩]

theorem parse_reciprocal : parse standardTable ['1', '/', 'x'] = .ok reciprocal := by
  have htokens : (Lexer.ofText ['1', '/', 'x']).tokens =
      [.ok ⟨.number, 0, ['1']⟩, .ok ⟨.op .div, 1, ['/']⟩, .ok ⟨.ident, 2, ['x']⟩] := by cbv
  rw [parse, htokens]
  rfl

theorem parse_overloaded :
    parse standardTable ['l', 'o', 'g', '(', 'x', ',', 'x', ',', 'x', ')'] = .ok overloaded := by
  have htokens : (Lexer.ofText ['l', 'o', 'g', '(', 'x', ',', 'x', ',', 'x', ')']).tokens =
      [.ok ⟨.ident, 0, ['l', 'o', 'g']⟩, .ok ⟨.openParen, 3, ['(']⟩, .ok ⟨.ident, 4, ['x']⟩,
        .ok ⟨.comma, 5, [',']⟩, .ok ⟨.ident, 6, ['x']⟩, .ok ⟨.comma, 7, [',']⟩, .ok ⟨.ident, 8, ['x']⟩,
        .ok ⟨.closeParen, 9, [')']⟩] := by cbv
  rw [parse, htokens]
  rfl

/-- `run_at_zero_decides` for the program of the reciprocal, its text, and a text with a call that fails. -/
theorem run_at_zero_decides_reciprocal :
    ([0.0].length = [notANumber].length ∧
      outcome (reciprocal.evalOver standardTable [0.0] [1.0, 2.0]) =
        outcome (reciprocal.evalOver standardTable [notANumber] []) ∧
      ∀ a ∈ reciprocal.applications standardTable [0.0],
        a.function.arity.accepts a.arguments.length = true) ∧
    (∃ f, compile ['1', '/', 'x'] = .ok f ∧ ∀ x, ∃ y, f.eval x = .ok y) ∧
    ∃ e, compile ['l', 'o', 'g', '(', 'x', ',', 'x', ',', 'x', ')'] = .error (.eval e) ∧
      ∃ p, parse standardTable ['l', 'o', 'g', '(', 'x', ',', 'x', ',', 'x', ')'] = .ok p ∧
        ∀ x, Evaluator.eval ⟨['l', 'o', 'g', '(', 'x', ',', 'x', ',', 'x', ')'], standardTable.link p⟩ x =
          .error e := by
  obtain ⟨hruns, hcompiled, hrefused⟩ := run_at_zero_decides
  have hok : ∃ f, compile ['1', '/', 'x'] = .ok f := ⟨_, by rw [compile, parse_reciprocal]; rfl⟩
  have herror : ∃ e, compile ['l', 'o', 'g', '(', 'x', ',', 'x', ',', 'x', ')'] = .error (.eval e) :=
    ⟨_, by rw [compile, parse_overloaded]; rfl⟩
  obtain ⟨f, hf⟩ := hok
  obtain ⟨e, he⟩ := herror
  exact ⟨⟨rfl, hruns reciprocal standardTable [0.0] [notANumber] [1.0, 2.0] [] rfl⟩,
    ⟨f, hf, hcompiled _ f hf⟩, e, he, hrefused _ e he⟩

end SignChart
