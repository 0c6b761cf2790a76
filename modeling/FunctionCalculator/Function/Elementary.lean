/-!
# Elementary functions

Functions of one real variable that are composed of the basic ones: truncation, conversions of
angles, the exponential and the logarithm near zero and one, and the inverse of the hyperbolic
tangent. Outside its domain a function is not a number; where the exact value is too large it is
infinite.
-/

namespace FunctionCalculator.Elementary

def pi : Float := 3.14159265358979323846264338327950288

/-- The whole number next to `x` towards zero. -/
def trunc (x : Float) : Float := if x < 0 then x.ceil else x.floor

/-- Radians to degrees, the factor being one double. -/
def degrees (x : Float) : Float := x * (180 / pi)

/-- Degrees to radians, the factor being one double. -/
def radians (x : Float) : Float := x * (pi / 180)

/-- The exponential of `x` less one. The rounding error of the exponential `u` is undone by
comparing `x` with the logarithm of `u`. -/
def expm1 (x : Float) : Float :=
  let u := x.exp
  if u == 1 then x
  else if u - 1 == -1 then -1
  else if u.isInf then u
  else (u - 1) * (x / u.log)

/-- The logarithm of one more than `x`. The rounding error of the sum `u` is undone by comparing
`x` with `u - 1`. -/
def log1p (x : Float) : Float :=
  let u := 1 + x
  if u == 1 then x
  else if u.isInf then u.log
  else u.log * (x / (u - 1))

/-- The inverse of the hyperbolic tangent: half the logarithm of `(1 + x) / (1 - x)`, which is one
more than `2 * x / (1 - x)`. -/
def atanh (x : Float) : Float := 0.5 * log1p (2 * x / (1 - x))

end FunctionCalculator.Elementary
