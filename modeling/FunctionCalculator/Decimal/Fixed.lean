import FunctionCalculator.Decimal.Binary

/-!
# Numbers with fixed places

A double written with a given number of places behind the point. The exact binary value is
rounded, a half to the even neighbour; no exponent is ever written, and the sign stays even
where all digits are zero.
-/

namespace FunctionCalculator.Decimal

/-- The quotient `n / d` to the nearest natural number, a half to the even one. -/
def roundHalfEven (n d : Nat) : Nat :=
  let q := n / d
  let r := n % d
  if d < 2 * r ∨ (2 * r = d ∧ q % 2 = 1) then q + 1 else q

theorem roundHalfEven_near (n : Nat) {d : Nat} (h : 0 < d) :
    2 * (d * roundHalfEven n d) ≤ 2 * n + d ∧ 2 * n ≤ 2 * (d * roundHalfEven n d) + d := by
  have hn := Nat.div_add_mod n d
  have hr := Nat.mod_lt n h
  simp only [roundHalfEven]
  split
  · rw [Nat.mul_add, Nat.mul_one]; omega
  · omega

/-- A half goes to the even neighbour. -/
theorem roundHalfEven_half {n d : Nat} (h : 2 * (n % d) = d) : roundHalfEven n d % 2 = 0 := by
  simp only [roundHalfEven]
  split <;> omega

/-- The number `k` with its last `places` digits behind the point. -/
def pointed (places k : Nat) : String :=
  String.ofList
    (digits (k / tenTo places) ++ '.' :: (digits (k % tenTo places)).leftpad places '0')

def fixed (places : Nat) (x : Float) : String :=
  match Binary.ofFloat x with
  | .nan => "NaN"
  | .infinite negative => signText negative ++ "inf"
  | .finite negative m e =>
    let v := ratio m e
    signText negative ++ pointed places (roundHalfEven (v.1 * tenTo places) v.2)

example : fixed 2 0.125 = "0.12" := by decide +kernel

example : fixed 2 (-0.001) = "-0.00" := by decide +kernel

end FunctionCalculator.Decimal
