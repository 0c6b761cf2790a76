import FunctionCalculator.Solver.Scalar

/-!
# Simpson's rule

The interval from `a` to `b` is divided into panels of equal width. Each panel is sampled at its
ends and in its middle, and contributes a sixth of its width times the weighted sum of the three
values; a panel with an absent value contributes nothing. The sum is the result if it is finite.

A run records where `f` was evaluated, which panels were left out and, when it is watched, its
progress.
-/

namespace FunctionCalculator.Simpson

variable {α : Type}

inductive Event (α : Type) where
  /-- The function is evaluated at `x`. -/
  | sample (x : α)
  /-- Panel number `panel` has an absent value. -/
  | skipped (panel : Nat)
  /-- Panel number `panel` of `total` is done, which is reported. -/
  | progress (panel total : Nat)
  deriving DecidableEq, Repr

/-- How an interval is divided, and after which panels progress is reported: after the multiples
of `every`, or never if that is zero. -/
structure Plan where
  panels : Nat := 25000
  every : Nat := 10000
  deriving DecidableEq, Repr

structure Tally (α : Type) where
  sum : α
  events : Array (Event α)

structure Run (α : Type) where
  integral : Option α
  events : Array (Event α)

def Event.sample? : Event α → Option α
  | sample x => some x
  | _ => none

def Event.progress? : Event α → Option (Nat × Nat)
  | progress i n => some (i, n)
  | _ => none

/-- The points where a run evaluates its function, in order. -/
def Run.samples (r : Run α) : List α := r.events.toList.filterMap Event.sample?

def Run.progress (r : Run α) : List (Nat × Nat) := r.events.toList.filterMap Event.progress?

structure Abscissae (α : Type) where
  left : α
  middle : α
  right : α

variable [Scalar α]

/-- Where panel `i` of width `dx` is sampled. -/
def abscissae (a dx : α) (i : Nat) : Abscissae α :=
  let one : α := Scalar.ofNat 1
  let two := one + one
  let k : α := Scalar.ofNat i
  { left := a + k * dx
    middle := (two * a + (two * k + one) * dx) / two
    right := a + (k + one) * dx }

/-- What a panel of width `dx` contributes: a sixth of the width times the sum of its three
values, the middle one counted four times. -/
def contribution (dx f0 fm f1 : α) : α :=
  let one : α := Scalar.ofNat 1
  let two := one + one
  let four := two + two
  dx / (four + two) * (f0 + four * fm + f1)

/-- Panel `i` added to a tally. All three samples are taken even if one is absent. -/
def addPanel (f : α → Option α) (a dx : α) (plan : Plan) (watched : Bool) (t : Tally α)
    (i : Nat) : Tally α :=
  let p := abscissae a dx i
  let events := ((t.events.push (.sample p.left)).push (.sample p.middle)).push (.sample p.right)
  let t : Tally α :=
    match f p.left, f p.middle, f p.right with
    | some f0, some fm, some f1 => ⟨t.sum + contribution dx f0 fm f1, events⟩
    | _, _, _ => ⟨t.sum, events.push (.skipped i)⟩
  if watched && 0 < plan.every && i % plan.every == 0 then
    { t with events := t.events.push (.progress i plan.panels) }
  else t

/-- The run over all panels, from left to right. -/
def run (f : α → Option α) (plan : Plan) (watched : Bool) (a b : α) : Run α :=
  let dx := (b - a) / Scalar.ofNat plan.panels
  let t := (List.range plan.panels).foldl (addPanel f a dx plan watched) ⟨Scalar.ofNat 0, #[]⟩
  ⟨if Scalar.isFinite t.sum then some t.sum else none, t.events⟩

def integral (f : Float → Option Float) (a b : Float) : Option Float :=
  (run f {} false a b).integral

end FunctionCalculator.Simpson
