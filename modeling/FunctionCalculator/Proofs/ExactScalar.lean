import FunctionCalculator.Solver.Scalar
import Mathlib.Algebra.Order.Ring.Rat

/-!
# Exact scalars

Rational numbers as scalars. Nothing is rounded and every value is finite, so that what a solver
computes with them is what its formulas mean.
-/

namespace FunctionCalculator

instance : Scalar ℚ where
  decLe := inferInstance
  ofNat n := n
  abs x := |x|
  isFinite _ := true

@[simp] theorem Scalar.abs_exact (x : ℚ) : Scalar.abs x = |x| := rfl

@[simp] theorem Scalar.isFinite_exact (x : ℚ) : Scalar.isFinite x = true := rfl

theorem Scalar.bne_exact (x y : ℚ) : (x != y) = true ↔ x ≠ y := bne_iff_ne

end FunctionCalculator
