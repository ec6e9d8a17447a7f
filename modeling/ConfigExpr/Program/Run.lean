import ConfigExpr.Eval.Evaluator
import ConfigExpr.Program.Basic

/-!
# Runs of a program

A program is evaluated in an environment, or with arguments: then each argument is bound at the
outermost level, and a program whose value is a closure is applied once more, each parameter to the
argument of its name.
-/

namespace ConfigExpr

/-- Tells runs apart: the number of the program and that of the run. -/
structure Run where
  program : Nat
  number : Nat

/-- How many evaluations may be nested in one another unless a caller says otherwise. -/
def defaultLimit : Nat := 256

namespace Program

/-- The value of a program in an environment. -/
def evaluateIn (p : Program) (run : Run) (env : Env) (limit : Nat) : Except EvalError Value :=
  p.expression.eval limit limit ⟨run.program, [0, run.number], env⟩

/-- The environment that binds the arguments; of two with one name the later counts. -/
def argumentEnv (run : Run) (arguments : List (String × Value)) : Env :=
  ((⟨run.program, [run.number], []⟩ : Scope).bindAll 0 arguments).env

/-- The arguments that the parameters of a closure name. -/
def parameterValues (env : Env) : List Name → Except EvalError (List Value)
  | [] => .ok []
  | p :: ps => do
    match env.lookup? p.text with
    | none => .error ⟨.unbound p.text, p.span⟩
    | some value =>
      let values ← parameterValues env ps
      return value :: values

/-- The value of a program with arguments. The closure a program ends in is applied in a nesting of
its own. -/
def evaluateWith (p : Program) (run : Run) (arguments : List (String × Value)) (limit : Nat) :
    Except EvalError Value := do
  let env := argumentEnv run arguments
  match ← p.evaluateIn run env limit with
  | .closure c =>
    let values ← parameterValues env c.lambda.parameters
    c.apply (Expr.eval limit limit) [1, run.number] values p.expression.span
  | value => .ok value

end Program

end ConfigExpr
