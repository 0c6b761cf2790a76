import Mathlib

/-!
# Signs of floating-point values

Negation, multiplication and division of doubles: a value is unpacked from its bits, the exact
result is rounded, and the rounded result is packed again. Rounding does not look at the sign.

What is proved:
  1. `unpack_neg`, `neg_pack`: a value may be negated unpacked or packed.
  2. `neg_neg`, `neg_mul`, `neg_div`, `isFinite_neg`: a sign goes out of a product and out of a
     dividend, and changes nothing about being finite. All of them hold for every double, those
     that are not finite included.
-/

namespace FunctionCalculator.FloatSign

open Float.Model (Format UnpackedFloat)
open Float.Model.UnpackedFloat

variable {F : Format}

/-! ## The sign bit -/

/-- The bits `b` with the other sign. -/
def flip (b : BitVec F.numBits) : BitVec F.numBits :=
  packComponents F (-(Sign.ofBitVec (unpackSign b))) (unpackExponent b) (unpackMantissa b)

theorem flip_packComponents (s : Sign) (e : BitVec F.exponentBits)
    (m : BitVec F.mantissaBitsWithoutImplicit) :
    flip (packComponents F s e m) = packComponents F (-s) e m := by
  rw [flip, unpackSign_packComponents, Sign.ofBitVec_toBitVec, unpackExponent_packComponents,
    unpackMantissa_packComponents]

theorem unpack_flip (b : BitVec F.numBits) : unpack F (flip b) = (unpack F b).neg := by
  simp only [unpack, flip, unpackSign_packComponents, Sign.ofBitVec_toBitVec,
    unpackExponent_packComponents, unpackMantissa_packComponents]
  split
  · -- infinity or no number
    split <;> rfl
  · split
    · -- zero or below the normal numbers
      split <;> rfl
    · rfl

theorem pack_neg {u : UnpackedFloat} (h : u ≠ .notANumber) :
    pack F u.neg = flip (pack F u) := by
  cases u with
  | notANumber => exact absurd rfl h
  | infinity s => exact (flip_packComponents s _ _).symm
  | zero s => exact (flip_packComponents s _ _).symm
  | finite s m e hm =>
    simp only [neg, pack]
    split
    · exact (flip_packComponents s _ _).symm
    · split
      · exact (flip_packComponents s _ _).symm
      · exact (flip_packComponents s _ _).symm

theorem pack_unpack (f : Float.Model) : Float.Model.pack f.unpack = f := by
  obtain ⟨bits, valid⟩ := f
  simp only [Float.Model.pack, Float.Model.unpack, pack_unpack_of_valid valid]

theorem unpack_neg (f : Float.Model) : (-f).unpack = f.unpack.neg := by
  show unpack .binary64 (pack .binary64 f.unpack.neg) = f.unpack.neg
  by_cases h : f.unpack = .notANumber
  · rw [h]
    exact unpack_packedNaN
  · rw [pack_neg h, unpack_flip, Float.Model.unpack, pack_unpack_of_valid f.valid]

theorem neg_pack (u : UnpackedFloat) : -Float.Model.pack u = Float.Model.pack u.neg := by
  have bits : pack .binary64 (unpack .binary64 (pack .binary64 u)).neg = pack .binary64 u.neg := by
    by_cases h : u = .notANumber
    · rw [h]
      exact congrArg (fun v => pack .binary64 (neg v)) unpack_packedNaN
    · -- the flipped bits are those of a value too
      rw [← unpack_flip, ← pack_neg h, pack_unpack_of_valid valid_pack]
  show Float.Model.pack (unpack .binary64 (pack .binary64 u)).neg = Float.Model.pack u.neg
  simp only [Float.Model.pack, bits]

/-! ## Exact results -/

theorem sign_neg_neg (s : Sign) : - -s = s := by cases s <;> rfl

theorem sign_neg_mul (s t : Sign) : -s * t = -(s * t) := by cases s <;> cases t <;> rfl

theorem sign_neg_div (s t : Sign) : -s / t = -(s / t) := by cases s <;> cases t <;> rfl

theorem unpacked_neg_neg (u : UnpackedFloat) : u.neg.neg = u := by
  cases u <;> simp [neg, sign_neg_neg]

theorem neg_round (s : Sign) (m : Nat) (e : Int) (a : Accuracy) :
    roundWithAccuracy F (-s) m e a = (roundWithAccuracy F s m e a).neg := by
  simp only [roundWithAccuracy]
  split <;> rfl

theorem unpacked_neg_mul (u v : UnpackedFloat) : mul F u.neg v = (mul F u v).neg := by
  cases u <;> cases v <;> simp [neg, mul, sign_neg_mul, neg_round]

theorem unpacked_neg_div (u v : UnpackedFloat) : div F u.neg v = (div F u v).neg := by
  cases u <;> cases v <;> simp [neg, div, sign_neg_div, neg_round]

/-! ## Doubles -/

theorem neg_neg (x : Float) : - -x = x := by
  show Float.ofModel (Float.Model.pack (-x.toModel).unpack.neg) = x
  rw [unpack_neg, unpacked_neg_neg, pack_unpack]

theorem neg_mul (x y : Float) : -x * y = -(x * y) := by
  show Float.ofModel (Float.Model.pack (mul .binary64 (-x.toModel).unpack y.toModel.unpack))
    = Float.ofModel (-Float.Model.pack (mul .binary64 x.toModel.unpack y.toModel.unpack))
  rw [unpack_neg, unpacked_neg_mul, neg_pack]

theorem neg_div (x y : Float) : -x / y = -(x / y) := by
  show Float.ofModel (Float.Model.pack (div .binary64 (-x.toModel).unpack y.toModel.unpack))
    = Float.ofModel (-Float.Model.pack (div .binary64 x.toModel.unpack y.toModel.unpack))
  rw [unpack_neg, unpacked_neg_div, neg_pack]

theorem isFinite_neg (x : Float) : (-x).isFinite = x.isFinite := by
  show (-x.toModel).unpack.isFinite = x.toModel.unpack.isFinite
  rw [unpack_neg]
  cases x.toModel.unpack <;> rfl

end FunctionCalculator.FloatSign
