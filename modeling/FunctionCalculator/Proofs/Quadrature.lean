import FunctionCalculator.Proofs.Panels
import Mathlib.Algebra.Order.Floor.Div

/-!
# What Simpson's rule does and returns

A caller gives Simpson's rule a function and perhaps an onlooker, to whom progress is reported; it
sees the calls of both, and the result. All of it is fixed by the panels, for any type of scalars,
be there laws for it or not.

What is proved:
  1. `run_samples`, `run_calls`, `run_skipped`: the evaluations, the calls and the panels left out
     are those of the panels, from left to right.
  2. `run_reports`, `length_multiples`: which panels are reported, and how many they are.
  3. `addPanel_sum`, `foldl_addPanel_sum`: a panel adds its term to the sum if its three values are
     present; panel after panel, the sum is that of the terms from left to right.
  4. `run_integral`: this sum is the result, if it is finite.
  5. `works_by_panels`: the whole specification of a run.
-/

namespace FunctionCalculator.Simpson

variable {α : Type}

/-- Whether an event is a call, of the function or of the onlooker. -/
def Event.isCall : Event α → Bool
  | sample _ => true
  | skipped _ => false
  | progress _ _ => true

def Event.skipped? : Event α → Option Nat
  | skipped i => some i
  | _ => none

def Run.calls (r : Run α) : List (Event α) := r.events.toList.filter Event.isCall

/-- The panels that a run leaves out, in order. -/
def Run.skipped (r : Run α) : List Nat := r.events.toList.filterMap Event.skipped?

variable [Scalar α]

def Plan.width (plan : Plan) (a b : α) : α := (b - a) / Scalar.ofNat plan.panels

/-- The term of panel `i` of width `dx`: a sixth of the width times the sum of the values at its
ends and of four times the value in its middle, if the three are present. -/
def term? (f : α → Option α) (a dx : α) (i : Nat) : Option α := do
  let two : α := Scalar.ofNat 1 + Scalar.ofNat 1
  let four := two + two
  let six := four + two
  let f0 ← f (leftEnd a dx i)
  let fm ← f (middle a dx i)
  let f1 ← f (rightEnd a dx i)
  return dx / six * (f0 + four * fm + f1)

/-- The calls in panel `i`: three evaluations, and a report if it is due. -/
def panelCalls (a dx : α) (plan : Plan) (watched : Bool) (i : Nat) : List (Event α) :=
  [.sample (leftEnd a dx i), .sample (middle a dx i), .sample (rightEnd a dx i)]
    ++ if watched && plan.reports i then [.progress i plan.panels] else []

variable (f : α → Option α) (a b dx : α) (plan : Plan) (watched : Bool)

/-! ## What happens in a run -/

theorem panelEvents_samples (i : Nat) :
    (panelEvents f a dx plan watched i).filterMap Event.sample? =
      [leftEnd a dx i, middle a dx i, rightEnd a dx i] := by
  unfold panelEvents
  simp only [List.filterMap_append]
  split <;> split <;> rfl

theorem panelEvents_calls (i : Nat) :
    (panelEvents f a dx plan watched i).filter Event.isCall = panelCalls a dx plan watched i := by
  unfold panelEvents panelCalls
  simp only [List.filter_append]
  split <;> split <;> rfl

theorem isNone_term? (i : Nat) : (term? f a dx i).isNone =
    ((f (leftEnd a dx i)).isNone || (f (middle a dx i)).isNone ||
      (f (rightEnd a dx i)).isNone) := by
  unfold term?
  generalize f (leftEnd a dx i) = f0, f (middle a dx i) = fm, f (rightEnd a dx i) = f1
  cases f0 <;> cases fm <;> cases f1 <;> rfl

theorem panelEvents_skipped (i : Nat) :
    (panelEvents f a dx plan watched i).filterMap Event.skipped? =
      if (term? f a dx i).isNone then [i] else [] := by
  unfold panelEvents
  rw [isNone_term?]
  simp only [List.filterMap_append]
  split <;> split <;> rfl

/-- The evaluations of a run are the points of its panels, from left to right. -/
theorem run_samples : (run f plan watched a b).samples =
    (List.range plan.panels).flatMap fun i =>
      [leftEnd a (plan.width a b) i, middle a (plan.width a b) i,
        rightEnd a (plan.width a b) i] := by
  rw [Run.samples, run_events, List.filterMap_flatMap]
  exact List.flatMap_congr fun i _ => panelEvents_samples f a _ plan watched i

theorem length_run_samples : (run f plan watched a b).samples.length = 3 * plan.panels := by
  rw [run_samples, List.length_flatMap]
  show ((List.range plan.panels).map fun _ => 3).sum = 3 * plan.panels
  rw [List.map_const', List.sum_replicate_nat, List.length_range, Nat.mul_comm]

theorem run_calls : (run f plan watched a b).calls =
    (List.range plan.panels).flatMap (panelCalls a (plan.width a b) plan watched) := by
  rw [Run.calls, run_events, List.filter_flatMap]
  exact List.flatMap_congr fun i _ => panelEvents_calls f a _ plan watched i

theorem run_skipped : (run f plan watched a b).skipped =
    (List.range plan.panels).filter fun i => (term? f a (plan.width a b) i).isNone := by
  rw [Run.skipped, run_events, List.filterMap_flatMap]
  simp only [panelEvents_skipped]
  exact (flatMap_noted _ _ _).trans (List.map_id _)

/-! ## The reports -/

theorem reports_iff (i : Nat) : plan.reports i = true ↔ 0 < plan.every ∧ plan.every ∣ i := by
  rw [Plan.reports, Bool.and_eq_true, decide_eq_true_iff, beq_iff_eq, Nat.dvd_iff_mod_eq_zero]

/-- Of the numbers below `n`, as many are multiples of `p` as `p` goes into `n`, rounded up. -/
theorem length_multiples (n p : Nat) :
    ((List.range n).filter fun i => 0 < p ∧ p ∣ i).length = n ⌈/⌉ p := by
  obtain rfl | positive := Nat.eq_zero_or_pos p
  · simp
  induction n with
  | zero => simp
  | succ n ih =>
    have next : (n + 1) ⌈/⌉ p = n ⌈/⌉ p + if p ∣ n then 1 else 0 := by
      rw [Nat.ceilDiv_eq_add_pred_div, Nat.ceilDiv_eq_add_pred_div,
        show n + 1 + p - 1 = n + p - 1 + 1 by omega, Nat.succ_div,
        show n + p - 1 + 1 = n + p by omega]
      simp only [Nat.dvd_add_self_right]
    rw [List.range_succ, List.filter_append, List.length_append, ih, next, List.filter_singleton]
    by_cases multiple : p ∣ n <;> simp [positive, multiple]

/-- A run that is watched reports the multiples of the step, one that is not reports nothing. -/
theorem run_reports : (run f plan watched a b).progress =
    if watched then
      ((List.range plan.panels).filter fun i => 0 < plan.every ∧ plan.every ∣ i).map
        fun i => (i, plan.panels)
    else [] := by
  rw [run_progress]
  cases watched with
  | false => simp
  | true =>
    rw [if_pos rfl]
    congr 1
    refine List.filter_congr fun i _ => ?_
    rw [Bool.true_and, Bool.eq_iff_iff, reports_iff, decide_eq_true_iff]

/-! ## The sum -/

/-- A panel adds its term, if it has one. -/
theorem addPanel_sum (t : Tally α) (i : Nat) :
    (addPanel f a dx plan watched t i).sum = (term? f a dx i).elim t.sum (t.sum + ·) := by
  simp only [addPanel, abscissae_eq, term?]
  generalize f (leftEnd a dx i) = f0, f (middle a dx i) = fm, f (rightEnd a dx i) = f1
  -- a report leaves the sum as it is
  split <;> cases f0 <;> cases fm <;> cases f1 <;> rfl

/-- The induction is on the panels to come: the terms are added to the sum of those before. -/
theorem foldl_addPanel_sum (t : Tally α) (is : List Nat) :
    (is.foldl (addPanel f a dx plan watched) t).sum =
      (is.filterMap (term? f a dx)).foldl (· + ·) t.sum := by
  induction is generalizing t with
  | nil => rfl
  | cons i is ih =>
    rw [List.foldl_cons, ih, addPanel_sum]
    cases h : term? f a dx i with
    | none => rw [List.filterMap_cons_none h, Option.elim_none]
    | some v => rw [List.filterMap_cons_some h, Option.elim_some, List.foldl_cons]

/-- The terms of a run, from left to right. -/
def terms (f : α → Option α) (plan : Plan) (a b : α) : List α :=
  (List.range plan.panels).filterMap (term? f a (plan.width a b))

theorem run_integral : (run f plan watched a b).integral =
    let sum := (terms f plan a b).foldl (· + ·) (Scalar.ofNat 0)
    if Scalar.isFinite sum then some sum else none := by
  have sum := foldl_addPanel_sum f a (plan.width a b) plan watched ⟨Scalar.ofNat 0, #[]⟩
    (List.range plan.panels)
  unfold run terms
  rw [← sum]
  rfl

/-- The function is evaluated three times a panel, at its points, panel by panel from left to right,
be there values or not. A run that is watched reports the panels whose numbers are multiples of the
step, each behind the evaluations of the panel; one that is not watched reports nothing and returns
the same. The result is the sum of the terms from left to right, if it is finite. -/
theorem works_by_panels (f : α → Option α) (plan : Plan) (a b : α) :
    let sum := (terms f plan a b).foldl (· + ·) (Scalar.ofNat 0)
    let dx := plan.width a b
    (∀ watched,
      (run f plan watched a b).samples = (List.range plan.panels).flatMap
        (fun i => [leftEnd a dx i, middle a dx i, rightEnd a dx i]) ∧
      (run f plan watched a b).samples.length = 3 * plan.panels ∧
      (run f plan watched a b).calls = (List.range plan.panels).flatMap
        (panelCalls a dx plan watched) ∧
      (∀ v, (run f plan watched a b).integral = some v ↔ Scalar.isFinite sum = true ∧ v = sum) ∧
      ((run f plan watched a b).integral = none ↔ Scalar.isFinite sum = false)) ∧
    (run f plan true a b).progress =
      ((List.range plan.panels).filter fun i => 0 < plan.every ∧ plan.every ∣ i).map
        (fun i => (i, plan.panels)) ∧
    (run f plan true a b).progress.length = plan.panels ⌈/⌉ plan.every ∧
    (run f plan false a b).progress = [] ∧
    (run f plan true a b).integral = (run f plan false a b).integral := by
  intro sum dx
  have value (watched : Bool) : (run f plan watched a b).integral =
      if Scalar.isFinite sum then some sum else none := run_integral f a b plan watched
  have reports : (run f plan true a b).progress = _ := run_reports f a b plan true
  refine ⟨fun watched => ⟨run_samples f a b plan watched, length_run_samples f a b plan watched,
    run_calls f a b plan watched, fun v => ?_, ?_⟩, reports, ?_, run_reports f a b plan false, ?_⟩
  · rw [value]
    cases Scalar.isFinite sum <;> simp [eq_comm]
  · rw [value]
    cases Scalar.isFinite sum <;> simp
  · rw [reports, if_pos rfl, List.length_map, length_multiples]
  · rw [value, value]

end FunctionCalculator.Simpson
