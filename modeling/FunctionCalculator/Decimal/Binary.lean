/-!
# Binary values

A double as what its bits say: not a number, an infinity, or a sign with a natural mantissa and
a power of two. Zero keeps its sign.
-/

namespace FunctionCalculator.Decimal

/-- What a double stands for. -/
inductive Binary where
  | nan
  | infinite (negative : Bool)
  /-- The mantissa times two to the exponent. -/
  | finite (negative : Bool) (mantissa : Nat) (exponent : Int)
  deriving DecidableEq, Repr

namespace Binary

/-- The bit in front of the fraction of a normal double, as part of the mantissa. -/
def hiddenBit : Nat := 1 <<< 52

/-- The least exponent of a finite double. -/
def leastExponent : Int := -1074

/-- Reads the sign bit, the eleven bits of the exponent and the 52 bits of the fraction. -/
def ofFloat (x : Float) : Binary :=
  let bits := x.toBits.toNat
  let negative := bits >>> 63 == 1
  let field : Nat := (bits >>> 52) % 2048
  let fraction := bits % hiddenBit
  if field = 2047 then if fraction = 0 then infinite negative else nan
  else if field = 0 then finite negative fraction leastExponent
  else finite negative (hiddenBit + fraction) (Int.ofNat field - 1075)

end Binary

/-- The numerator and the denominator of `m` times two to `e`. -/
def ratio (m : Nat) (e : Int) : Nat × Nat := (m <<< e.toNat, 1 <<< (-e).toNat)

def tenTo (k : Nat) : Nat := Nat.pow 10 k

def signText (negative : Bool) : String := if negative then "-" else ""

def digits (n : Nat) : List Char := Nat.toDigits 10 n

end FunctionCalculator.Decimal
