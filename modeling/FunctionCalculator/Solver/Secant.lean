import FunctionCalculator.Solver.Scalar

/-!
# The secant method

From a window `(a, b)` the line through `(a, f a)` and `(b, f b)` is followed to zero, at the
projection `x`; the next window is `(b, x)`. The run succeeds at the first projection whose value is
within the tolerance of zero, if it lies between `a` and `b`, the window it was projected from. It
fails where the line is level or a value is absent, and after the allowed number of projections;
one projection is always made.

A run records where `f` was evaluated and how it ended.
-/

namespace FunctionCalculator.Secant

variable {α : Type}

inductive Event (α : Type) where
  /-- The function is evaluated at `x`. -/
  | sample (x : α)
  /-- Projection number `step` has a value. -/
  | projected (step : Nat)
  /-- In the window number `step` the values are equal, or one is absent. -/
  | level (step : Nat)
  /-- The root lies outside the window it was projected from. -/
  | outside
  /-- All allowed projections are made. -/
  | exhausted (steps : Nat)
  deriving DecidableEq, Repr

structure Run (α : Type) where
  root : Option α
  events : Array (Event α)

def Event.sample? : Event α → Option α
  | sample x => some x
  | _ => none

/-- The points where a run evaluates its function, in order. -/
def Run.samples (r : Run α) : List α := r.events.toList.filterMap Event.sample?

variable [Scalar α]

/-- Where the line through `(a, fa)` and `(b, fb)` meets zero. -/
def project (a b fa fb : α) : α := a - (b - a) * fa / (fb - fa)

/-- The windows from number `step` on, after the given events; after this one, `remaining` more
are allowed. -/
def iterate (f : α → Option α) (tolerance : α) (remaining step : Nat) (a b : α)
    (past : Array (Event α)) : Run α :=
  let past := (past.push (.sample a)).push (.sample b)
  match f a, f b with
  | some fa, some fb =>
    if fa == fb then ⟨none, past.push (.level step)⟩
    else
      let x := project a b fa fb
      let past := past.push (.sample x)
      match f x with
      | none => ⟨none, past⟩
      | some fx =>
        let past := past.push (.projected step)
        if Scalar.abs fx ≤ tolerance then
          if a ≤ x ∧ x ≤ b then ⟨some x, past⟩ else ⟨none, past.push .outside⟩
        else
          match remaining with
          | 0 => ⟨none, past.push (.exhausted step)⟩
          | remaining + 1 => iterate f tolerance remaining (step + 1) b x past
  | _, _ => ⟨none, past.push (.level step)⟩

/-- The run from the seeds `a` and `b`, with at most `iterations` projections, or one. -/
def run (f : α → Option α) (tolerance : α) (iterations : Nat) (a b : α) : Run α :=
  iterate f tolerance (iterations - 1) 1 a b #[]

def defaultTolerance : Float := 1e-4

def defaultIterations : Nat := 25000

def root (f : Float → Option Float) (a b : Float) : Option Float :=
  (run f defaultTolerance defaultIterations a b).root

end FunctionCalculator.Secant
