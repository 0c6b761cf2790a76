import FunctionCalculator.Proofs.ExactScalar
import FunctionCalculator.Proofs.Quadrature
import Mathlib.Algebra.BigOperators.Group.List.Basic
import Mathlib.Tactic.NormNum
import Mathlib.Tactic.Ring

/-!
# Simpson's rule in exact arithmetic

Without rounding, the points of the panels are equally spaced, half a width apart, and the result is
the sum of the terms.

What is proved:
  1. `abscissae_exact`, `term?_exact`, `run_integral_exact`: the points, the term of a panel and the
     result over rational numbers.
  2. `Cubic.simpson`: over one panel, the term of a cubic is the growth of its primitive.
  3. `Cubic.sum_terms`: over the first panels, the terms add up to the growth of the primitive.
  4. `exact_on_cubics`: the integral of a cubic is exact.
  5. `abscissae_reverse`, `term?_reverse`: from the other end of the interval, the panels are met
     last first, each with its ends exchanged, and a term changes its sign only.
  6. `terms_reverse`, `run_samples_reverse`, `run_skipped_reverse`: so the run back takes the same
     samples and leaves out the same panels, last first.
  7. `negates_reversed`: the integral back is the negated one, where the function is absent or not.
-/

namespace FunctionCalculator.Simpson

/-! ## Panels of rational numbers -/

theorem abscissae_exact (a dx : ℚ) (i : Nat) :
    abscissae a dx i = ⟨a + i * dx, a + i * dx + dx / 2, a + i * dx + dx⟩ := by
  have middle : ((1 + 1) * a + ((1 + 1) * i + 1) * dx) / (1 + 1) = a + i * dx + dx / 2 := by ring
  have right : a + (i + 1) * dx = a + i * dx + dx := by ring
  rw [← middle, ← right]
  rfl

/-- A sixth of the width `dx` times the weighted values at the points of a panel, if they are
present. -/
def weighted (f : ℚ → Option ℚ) (dx : ℚ) (p : Abscissae ℚ) : Option ℚ := do
  let f0 ← f p.left
  let fm ← f p.middle
  let f1 ← f p.right
  return dx / 6 * (f0 + 4 * fm + f1)

theorem term?_exact (f : ℚ → Option ℚ) (a dx : ℚ) (i : Nat) :
    term? f a dx i = weighted f dx (abscissae a dx i) := by
  have four : (1 + 1 + (1 + 1) : ℚ) = 4 := by norm_num
  have six : (4 + (1 + 1) : ℚ) = 6 := by norm_num
  rw [weighted, ← six, ← four]
  rfl

theorem width_exact (plan : Plan) (a b : ℚ) : plan.width a b = (b - a) / plan.panels := rfl

theorem panels_mul_width (plan : Plan) (a b : ℚ) (divided : 1 ≤ plan.panels) :
    plan.panels * plan.width a b = b - a := by
  have nonzero : (plan.panels : ℚ) ≠ 0 := Nat.cast_ne_zero.mpr (by omega)
  rw [width_exact, mul_div_cancel₀ _ nonzero]

theorem width_swap (plan : Plan) (a b : ℚ) : plan.width b a = -plan.width a b := by
  rw [width_exact, width_exact]
  ring

theorem run_integral_exact (f : ℚ → Option ℚ) (plan : Plan) (watched : Bool) (a b : ℚ) :
    (run f plan watched a b).integral = some (terms f plan a b).sum := by
  rw [run_integral, List.sum_eq_foldl]
  exact if_pos (Scalar.isFinite_exact _)

/-! ## Cubics -/

/-- A polynomial of degree three at most. -/
structure Cubic where
  c0 : ℚ
  c1 : ℚ
  c2 : ℚ
  c3 : ℚ

namespace Cubic

def value (p : Cubic) (x : ℚ) : ℚ := p.c0 + p.c1 * x + p.c2 * x ^ 2 + p.c3 * x ^ 3

/-- The primitive that vanishes at zero. -/
def primitive (p : Cubic) (x : ℚ) : ℚ :=
  p.c0 * x + p.c1 * x ^ 2 / 2 + p.c2 * x ^ 3 / 3 + p.c3 * x ^ 4 / 4

/-- Over one panel, the rule gives the growth of the primitive. -/
theorem simpson (p : Cubic) (x dx : ℚ) :
    dx / 6 * (p.value x + 4 * p.value (x + dx / 2) + p.value (x + dx)) =
      p.primitive (x + dx) - p.primitive x := by
  simp only [value, primitive]
  ring

/-- The terms of the first panels add up to the growth of the primitive over them: each panel begins
where the one before ends. -/
theorem sum_terms (p : Cubic) (a dx : ℚ) (n : Nat) :
    ((List.range n).filterMap (term? (fun x => some (p.value x)) a dx)).sum =
      p.primitive (a + n * dx) - p.primitive a := by
  induction n with
  | zero => simp
  | succ n ih =>
    have term : term? (fun x => some (p.value x)) a dx n =
        some (p.primitive (a + n * dx + dx) - p.primitive (a + n * dx)) := by
      rw [term?_exact, abscissae_exact, ← p.simpson]
      rfl
    have next : a + ((n + 1 : Nat) : ℚ) * dx = a + n * dx + dx := by
      push_cast
      ring
    rw [List.range_succ, List.filterMap_append, List.sum_append, ih,
      List.filterMap_cons_some term, List.filterMap_nil, List.sum_singleton, next]
    ring

end Cubic

/-- The integral of a cubic is exact, over an interval in either direction and however many panels
it is divided into. -/
theorem exact_on_cubics (p : Cubic) (plan : Plan) (watched : Bool) (a b : ℚ)
    (divided : 1 ≤ plan.panels) :
    (run (fun x => some (p.value x)) plan watched a b).integral =
      some (p.primitive b - p.primitive a) := by
  have fills : a + plan.panels * plan.width a b = b := by
    rw [panels_mul_width plan a b divided]
    ring
  rw [run_integral_exact, terms, p.sum_terms, fills]

/-- From right to left, in three panels. -/
theorem exact_on_cubics_leftward :
    1 ≤ (⟨3, 0⟩ : Plan).panels ∧
      (run (fun x => some ((⟨1, 2, 3, 4⟩ : Cubic).value x)) ⟨3, 0⟩ false 2 (-1)).integral =
        some (-30) := by
  have plan : 1 ≤ (⟨3, 0⟩ : Plan).panels := by decide
  refine ⟨plan, (exact_on_cubics ⟨1, 2, 3, 4⟩ ⟨3, 0⟩ false 2 (-1) plan).trans ?_⟩
  norm_num [Cubic.primitive]

/-! ## The run back -/

def Abscissae.reverse {α : Type} (p : Abscissae α) : Abscissae α := ⟨p.right, p.middle, p.left⟩

/-- Back over a panel, the term changes its sign, or is absent as before. -/
theorem weighted_reverse (f : ℚ → Option ℚ) (dx : ℚ) (p : Abscissae ℚ) :
    weighted f (-dx) p.reverse = (weighted f dx p).map Neg.neg := by
  unfold weighted Abscissae.reverse
  cases f p.left with
  | none => cases f p.right <;> cases f p.middle <;> rfl
  | some f0 =>
    cases f p.right with
    | none => cases f p.middle <;> rfl
    | some f1 =>
      cases f p.middle with
      | none => rfl
      | some fm =>
        have sign : -dx / 6 * (f1 + 4 * fm + f0) = -(dx / 6 * (f0 + 4 * fm + f1)) := by ring
        exact congrArg some sign

theorem reverse_range (n : Nat) : (List.range n).reverse = (List.range n).map (n - 1 - ·) := by
  rw [List.range_eq_range', List.reverse_range', ← List.range_eq_range', Nat.zero_add]

section Back

variable (f : ℚ → Option ℚ) (plan : Plan) (watched : Bool) (a b : ℚ) {i : Nat}

/-- From the other end, panel `i` is the one that is `i`-th from the right, its ends exchanged. -/
theorem abscissae_reverse (h : i < plan.panels) : abscissae b (plan.width b a) i =
    (abscissae a (plan.width a b) (plan.panels - 1 - i)).reverse := by
  have other : b = a + plan.panels * plan.width a b := by
    rw [panels_mul_width plan a b (by omega)]
    ring
  have mirrored : ((plan.panels - 1 - i : Nat) : ℚ) = plan.panels - 1 - i := by
    rw [Nat.cast_sub (by omega), Nat.cast_sub (by omega), Nat.cast_one]
  rw [abscissae_exact, abscissae_exact, Abscissae.reverse, width_swap, mirrored]
  generalize plan.width a b = dx at other
  rw [other, Abscissae.mk.injEq]
  refine ⟨?_, ?_, ?_⟩ <;> ring

theorem term?_reverse (h : i < plan.panels) : term? f b (plan.width b a) i =
    (term? f a (plan.width a b) (plan.panels - 1 - i)).map Neg.neg := by
  rw [term?_exact, term?_exact, abscissae_reverse plan a b h, width_swap, weighted_reverse]

theorem terms_reverse : terms f plan b a = (terms f plan a b).reverse.map Neg.neg := by
  calc terms f plan b a
      = (List.range plan.panels).filterMap fun i =>
          (term? f a (plan.width a b) (plan.panels - 1 - i)).map Neg.neg :=
        List.filterMap_congr fun i h => term?_reverse f plan a b (List.mem_range.mp h)
    _ = ((List.range plan.panels).reverse.filterMap (term? f a (plan.width a b))).map Neg.neg := by
        rw [reverse_range, List.filterMap_map, List.map_filterMap]
        rfl
    _ = (terms f plan a b).reverse.map Neg.neg := by
        rw [List.filterMap_reverse, terms]

theorem run_samples_reverse :
    (run f plan watched b a).samples = (run f plan watched a b).samples.reverse := by
  rw [run_samples, run_samples, List.reverse_flatMap, reverse_range, List.flatMap_map]
  refine List.flatMap_congr fun i h => ?_
  exact congrArg (fun p => [p.left, p.middle, p.right])
    (abscissae_reverse plan a b (List.mem_range.mp h))

theorem run_skipped_reverse : (run f plan watched b a).skipped =
    (run f plan watched a b).skipped.reverse.map (plan.panels - 1 - ·) := by
  have absent : ∀ i ∈ List.range plan.panels, (term? f b (plan.width b a) i).isNone =
      (term? f a (plan.width a b) (plan.panels - 1 - i)).isNone := by
    intro i h
    rw [term?_reverse f plan a b (List.mem_range.mp h), Option.isNone_map]
  rw [run_skipped, run_skipped, ← List.filter_reverse, reverse_range, List.filter_map, List.map_map,
    List.filter_congr absent]
  -- counted from the other end twice, a panel has its number again
  refine ((List.map_congr_left fun i h => ?_).trans (List.map_id _)).symm
  have below := List.mem_range.mp (List.mem_of_mem_filter h)
  show plan.panels - 1 - (plan.panels - 1 - i) = i
  omega

end Back

/-- The integral back is the negated one, whatever the function and wherever it is absent: the run
back takes the same samples and leaves out the same panels, counted from the other end. -/
theorem negates_reversed (f : ℚ → Option ℚ) (plan : Plan) (watched : Bool) (a b : ℚ) :
    (∃ v, (run f plan watched a b).integral = some v ∧
      (run f plan watched b a).integral = some (-v)) ∧
    (run f plan watched b a).samples = (run f plan watched a b).samples.reverse ∧
    (run f plan watched b a).skipped =
      (run f plan watched a b).skipped.reverse.map (plan.panels - 1 - ·) := by
  refine ⟨⟨(terms f plan a b).sum, run_integral_exact f plan watched a b, ?_⟩,
    run_samples_reverse f plan watched a b, run_skipped_reverse f plan watched a b⟩
  rw [run_integral_exact, terms_reverse, ← List.sum_neg, List.sum_reverse]

example : (run (fun x : ℚ => if x = 0 then none else some x) ⟨4, 0⟩ false 0 1).skipped = [0] ∧
    (run (fun x : ℚ => if x = 0 then none else some x) ⟨4, 0⟩ false 1 0).skipped = [3] := by
  decide +kernel

end FunctionCalculator.Simpson
