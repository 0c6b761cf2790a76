import FunctionCalculator.Proofs.ExactScalar
import FunctionCalculator.Proofs.Projections
import Mathlib.Tactic.FieldSimp
import Mathlib.Tactic.NormNum
import Mathlib.Tactic.Ring

/-!
# The secant method in exact arithmetic

Without rounding, the line through two points of a line is that line, and the first projection is
its root.

What is proved:
  1. `exists_slope_line_iff`: which windows on a line have a slope.
  2. `project_line`, `value_project_line`: from such a window, the projection is the root of the
     line, and its value is zero.
  3. `run_line`, `run_line_flat`: a run on a line makes one projection, or none where there is no
     slope.
  4. `solves_affine`: which affine equations are solved, and by what.
-/

namespace FunctionCalculator.Secant

def line (m c : ℚ) (x : ℚ) : Option ℚ := some (m * x + c)

section Line

variable {m c a b : ℚ}

theorem exists_slope_line_iff :
    (∃ fa fb, Slope (line m c) a b fa fb) ↔ m ≠ 0 ∧ a ≠ b := by
  constructor
  · intro ⟨fa, fb, left, right, differ⟩
    cases left
    cases right
    have differ := (Scalar.bne_exact _ _).mp differ
    constructor
    · intro level
      exact differ (by rw [level, zero_mul, zero_mul])
    · intro same
      exact differ (by rw [same])
  · intro ⟨rises, apart⟩
    refine ⟨m * a + c, m * b + c, rfl, rfl, (Scalar.bne_exact _ _).mpr fun same => apart ?_⟩
    exact mul_left_cancel₀ rises (add_right_cancel same)

variable {fa fb : ℚ}

theorem project_line (slope : Slope (line m c) a b fa fb) : project a b fa fb = -c / m := by
  obtain ⟨rises, apart⟩ := exists_slope_line_iff.mp ⟨fa, fb, slope⟩
  obtain ⟨left, right, -⟩ := slope
  cases left
  cases right
  have width : b - a ≠ 0 := sub_ne_zero.mpr apart.symm
  have rise : m * b + c - (m * a + c) = m * (b - a) := by ring
  show a - (b - a) * (m * a + c) / (m * b + c - (m * a + c)) = -c / m
  rw [rise]
  field_simp
  ring

theorem value_project_line (slope : Slope (line m c) a b fa fb) :
    line m c (project a b fa fb) = some 0 := by
  obtain ⟨rises, -⟩ := exists_slope_line_iff.mp ⟨fa, fb, slope⟩
  rw [project_line slope, line, mul_div_cancel₀ _ rises, neg_add_cancel]

variable (c) (tolerance : ℚ) (iterations : Nat)

/-- Where there is a slope, the first projection ends the run, as its value is zero. -/
theorem run_line (rises : m ≠ 0) (apart : a ≠ b) (tolerant : 0 ≤ tolerance) :
    (run (line m c) tolerance iterations a b).root =
        (if a ≤ -c / m ∧ -c / m ≤ b then some (-c / m) else none) ∧
      (run (line m c) tolerance iterations a b).samples = [a, b, -c / m] := by
  have unfolds := run_unfolds (line m c) tolerance iterations a b
  have close {fa fb y} (slope : Slope (line m c) a b fa fb)
      (value : line m c (project a b fa fb) = some y) : Scalar.abs y ≤ tolerance := by
    cases (value_project_line slope).symm.trans value
    rw [Scalar.abs_exact, abs_zero]
    exact tolerant
  generalize run (line m c) tolerance iterations a b = r at unfolds
  cases unfolds with
  | level flat =>
    obtain ⟨fa, fb, slope⟩ := exists_slope_line_iff.mpr ⟨rises, apart⟩
    exact absurd slope (flat fa fb)
  | absent slope value =>
    rw [value_project_line slope] at value
    cases value
  | near slope _ _ root samples =>
    rw [project_line slope] at root samples
    exact ⟨root, samples⟩
  | exhausted slope value away => exact absurd (close slope value) away
  | onward slope value away => exact absurd (close slope value) away

theorem run_line_flat (flat : ¬ (m ≠ 0 ∧ a ≠ b)) :
    (run (line m c) tolerance iterations a b).root = none ∧
      (run (line m c) tolerance iterations a b).samples = [a, b] := by
  have unfolds := run_unfolds (line m c) tolerance iterations a b
  have no_slope {fa fb} : ¬ Slope (line m c) a b fa fb :=
    fun slope => flat (exists_slope_line_iff.mp ⟨fa, fb, slope⟩)
  generalize run (line m c) tolerance iterations a b = r at unfolds
  cases unfolds with
  | level _ root samples => exact ⟨root, samples⟩
  | absent slope => exact absurd slope no_slope
  | near slope => exact absurd slope no_slope
  | exhausted slope => exact absurd slope no_slope
  | onward slope => exact absurd slope no_slope

end Line

/-- An affine equation is solved if its root lies between the seeds, in their order, with one
projection. There is no root where the line is level, where the seeds are one point or in decreasing
order, and where the root lies outside. -/
theorem solves_affine (m c a b tolerance : ℚ) (iterations : Nat) (tolerant : 0 ≤ tolerance) :
    (run (fun x => some (m * x + c)) tolerance iterations a b).root =
        (if m ≠ 0 ∧ a < b ∧ a ≤ -c / m ∧ -c / m ≤ b then some (-c / m) else none) ∧
      (run (fun x => some (m * x + c)) tolerance iterations a b).samples =
        (if m ≠ 0 ∧ a ≠ b then [a, b, -c / m] else [a, b]) := by
  by_cases sloped : m ≠ 0 ∧ a ≠ b
  · obtain ⟨rises, apart⟩ := sloped
    obtain ⟨root, samples⟩ := run_line c tolerance iterations rises apart tolerant
    refine ⟨root.trans (if_congr ?_ rfl rfl), samples.trans (if_pos ⟨rises, apart⟩).symm⟩
    constructor
    · intro ⟨left, right⟩
      exact ⟨rises, lt_of_le_of_ne (left.trans right) apart, left, right⟩
    · intro ⟨_, _, within⟩
      exact within
  · obtain ⟨root, samples⟩ := run_line_flat c tolerance iterations sloped
    have unordered : ¬ (m ≠ 0 ∧ a < b ∧ a ≤ -c / m ∧ -c / m ≤ b) :=
      fun ⟨rises, below, _⟩ => sloped ⟨rises, below.ne⟩
    exact ⟨root.trans (if_neg unordered).symm, samples.trans (if_neg sloped).symm⟩

/-- A root on a seed is found without tolerance, and without any projection allowed. -/
theorem solves_affine_on_seed :
    (0 : ℚ) ≤ 0 ∧
      (run (fun x : ℚ => some (2 * x + -3)) 0 0 (3 / 2) 5).root = some (3 / 2) ∧
      (run (fun x : ℚ => some (2 * x + -3)) 0 0 (3 / 2) 5).samples = [3 / 2, 5, 3 / 2] := by
  obtain ⟨root, samples⟩ := solves_affine 2 (-3) (3 / 2) 5 0 0 (le_refl 0)
  refine ⟨le_refl 0, root.trans ?_, samples.trans ?_⟩
  · norm_num
  · norm_num

end FunctionCalculator.Secant
