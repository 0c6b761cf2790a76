/-!
# Scalars

What the solvers ask of their numbers. Doubles and single-precision floats compare as IEEE
numbers do: a value that is not a number differs from all, itself included, and is not below any.
-/

namespace FunctionCalculator

/-- A type of numbers that the solvers can compute with. -/
class Scalar (α : Type) extends Add α, Sub α, Mul α, Div α, BEq α, LE α where
  decLe : (x y : α) → Decidable (x ≤ y)
  ofNat : Nat → α
  abs : α → α
  isFinite : α → Bool

instance Scalar.instDecidableLe {α : Type} [Scalar α] (x y : α) : Decidable (x ≤ y) :=
  Scalar.decLe x y

instance : Scalar Float where
  decLe := inferInstance
  ofNat := Float.ofNat
  abs := Float.abs
  isFinite := Float.isFinite

instance : Scalar Float32 where
  decLe := inferInstance
  ofNat := Float32.ofNat
  abs := Float32.abs
  isFinite := Float32.isFinite

end FunctionCalculator
