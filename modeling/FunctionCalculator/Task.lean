import FunctionCalculator.Expression
import FunctionCalculator.Report
import FunctionCalculator.Solver.Secant
import FunctionCalculator.Solver.Simpson

/-!
# Tasks

Roots and integrals take long, so they are computed beside the session. A task is an expression and
what is asked of it; its solution is the text of the result, and the progress reports on the way.
-/

namespace FunctionCalculator

/-- What is asked of an expression that depends on the variable, between two bounds. -/
inductive Request where
  | root (a b : Float)
  | integral (a b : Float)
  deriving DecidableEq, Repr

/-- The text of a result, and the progress that was reported before. -/
structure Solution where
  text : String
  progress : List (Nat × Nat)
  deriving DecidableEq, Repr

namespace Expression

def root (e : Expression) (a b : Float) : Option Float := Secant.root e.value? a b

def integral (e : Expression) (a b : Float) : Option Float := Simpson.integral e.value? a b

/-- Answers a request. A root is shown with the value there. -/
def solve (e : Expression) : Request → Solution
  | .root a b =>
    let r := e.root a b
    ⟨Report.root r (r.bind e.value?), []⟩
  | .integral a b =>
    let run := Simpson.run e.value? {} true a b
    ⟨Report.integral run.integral, run.progress⟩

end Expression

/-- A request and the expression it is made of. -/
structure Task where
  expression : Expression
  request : Request

def Task.solution (t : Task) : Solution := t.expression.solve t.request

end FunctionCalculator
