import FunctionCalculator.Solver.Simpson

/-!
# A run of Simpson's rule, panel by panel

Panel `i` of width `dx` has its left end at `a + i dx`, its right end at `a + (i + 1) dx`, and its
middle at half of `2 a + (2 i + 1) dx`, in just this order of operations.

What is proved:
  1. `run_events`: what happens in a run is what happens in its panels, from left to right.
  2. `run_progress`: a watched run reports the panels whose numbers are multiples of the step.
  3. `run_progress_ascending`: the numbers that are reported do not decrease.
-/

namespace FunctionCalculator.Simpson

variable {α : Type} [Scalar α]

def Plan.reports (plan : Plan) (i : Nat) : Bool := 0 < plan.every && i % plan.every == 0

def leftEnd (a dx : α) (i : Nat) : α := a + Scalar.ofNat i * dx

def middle (a dx : α) (i : Nat) : α :=
  let two : α := Scalar.ofNat 1 + Scalar.ofNat 1
  (two * a + (two * Scalar.ofNat i + Scalar.ofNat 1) * dx) / two

def rightEnd (a dx : α) (i : Nat) : α := a + (Scalar.ofNat i + Scalar.ofNat 1) * dx

theorem abscissae_eq (a dx : α) (i : Nat) :
    abscissae a dx i = ⟨leftEnd a dx i, middle a dx i, rightEnd a dx i⟩ := rfl

/-- What happens in panel `i`: three samples, a note if one is absent, and a report if it is due. -/
def panelEvents (f : α → Option α) (a dx : α) (plan : Plan) (watched : Bool) (i : Nat) :
    List (Event α) :=
  let x0 := leftEnd a dx i
  let xm := middle a dx i
  let x1 := rightEnd a dx i
  let absent := (f x0).isNone || (f xm).isNone || (f x1).isNone
  [.sample x0, .sample xm, .sample x1]
    ++ (if absent then [.skipped i] else [])
    ++ (if watched && plan.reports i then [.progress i plan.panels] else [])

variable (f : α → Option α) (a b dx : α) (plan : Plan) (watched : Bool)

theorem addPanel_events (t : Tally α) (i : Nat) :
    (addPanel f a dx plan watched t i).events.toList =
      t.events.toList ++ panelEvents f a dx plan watched i := by
  simp only [addPanel, panelEvents, abscissae_eq, Plan.reports, Bool.and_assoc]
  generalize f (leftEnd a dx i) = f0, f (middle a dx i) = fm, f (rightEnd a dx i) = f1
  -- the panel is reported or not, and it is left out or counted
  by_cases due : (watched && (decide (0 < plan.every) && i % plan.every == 0)) = true <;>
    simp only [due] <;> cases f0 <;> cases fm <;> cases f1 <;> simp

theorem foldl_addPanel_events (t : Tally α) (is : List Nat) :
    (is.foldl (addPanel f a dx plan watched) t).events.toList =
      t.events.toList ++ is.flatMap (panelEvents f a dx plan watched) := by
  induction is generalizing t with
  | nil => simp
  | cons i is ih =>
    rw [List.foldl_cons, ih, addPanel_events, List.flatMap_cons, List.append_assoc]

/-- What happens in a run is what happens in its panels, from left to right. -/
theorem run_events : (run f plan watched a b).events.toList =
    (List.range plan.panels).flatMap
      (panelEvents f a ((b - a) / Scalar.ofNat plan.panels) plan watched) := by
  unfold run
  exact foldl_addPanel_events f a _ plan watched ⟨Scalar.ofNat 0, #[]⟩ (List.range plan.panels)

theorem panelEvents_progress (i : Nat) :
    (panelEvents f a dx plan watched i).filterMap Event.progress? =
      if watched && plan.reports i then [(i, plan.panels)] else [] := by
  unfold panelEvents
  simp only [List.filterMap_append]
  split <;> split <;> rfl

theorem flatMap_noted {β : Type} (noted : Nat → Bool) (note : Nat → β) (is : List Nat) :
    (is.flatMap fun i => if noted i then [note i] else []) = (is.filter noted).map note := by
  induction is with
  | nil => rfl
  | cons i is ih =>
    rw [List.flatMap_cons, ih, List.filter_cons]
    split <;> rfl

/-- A watched run reports the panels whose numbers are multiples of the step, from left to right;
one that is not watched reports nothing. -/
theorem run_progress : (run f plan watched a b).progress =
    ((List.range plan.panels).filter fun i => watched && plan.reports i).map
      fun i => (i, plan.panels) := by
  unfold Run.progress
  rw [run_events, List.filterMap_flatMap]
  simp only [panelEvents_progress]
  exact flatMap_noted _ _ _

theorem run_progress_ascending :
    (run f plan watched a b).progress.Pairwise fun p q => p.1 ≤ q.1 := by
  rw [run_progress, List.pairwise_map]
  exact List.pairwise_le_range.filter _

end FunctionCalculator.Simpson
