import FunctionCalculator.Decimal.Binary

/-!
# Shortest numbers

A double written with as few digits as read back as the same double, and of those the nearest.
The result is positional: no exponent, and no point behind a whole number.

The decimals that read back fill an interval around the value. On a grid of multiples of a power
of ten only the two neighbours of the value need a look: if any multiple lies in the interval, one
of them does.
-/

namespace FunctionCalculator.Decimal

/-- The interval of the magnitudes that read as `m` times two to `e`, in quarters of the last
binary place: its ends, which belong to it if `m` is even. Below a power of two the doubles are
twice as dense, so the lower end is nearer. -/
structure Interval where
  low : Nat
  middle : Nat
  high : Nat
  closed : Bool

def Interval.of (m : Nat) (e : Int) : Interval where
  low := if m = Binary.hiddenBit ∧ Binary.leastExponent < e then 4 * m - 1 else 4 * m - 2
  middle := 4 * m
  high := 4 * m + 2
  closed := m % 2 == 0

/-- The multiple `c` of ten to `k` that reads as the middle of the interval `i`, whose quarters
are two to `q`: the nearer one if there are two, the larger one if they are equally near. -/
def onGrid (i : Interval) (q k : Int) : Option Nat :=
  let binary := tenTo (-k).toNat <<< q.toNat
  let decimal := tenTo k.toNat <<< (-q).toNat
  let within (c : Nat) : Bool :=
    if i.closed then i.low * binary ≤ c * decimal && c * decimal ≤ i.high * binary
    else i.low * binary < c * decimal && c * decimal < i.high * binary
  let below := i.middle * binary / decimal
  let nearerBelow : Bool := 2 * (i.middle * binary % decimal) < decimal
  if within below && (nearerBelow || !within (below + 1)) then some below
  else if within (below + 1) then some (below + 1)
  else none

/-- The coarsest grid with a hit, from the exponent `k` down, for `fuel` grids. -/
def coarsest (i : Interval) (q : Int) : Nat → Int → Option (Nat × Int)
  | 0, _ => none
  | fuel + 1, k =>
    match onGrid i q k with
    | some c => some (c, k)
    | none => coarsest i q fuel (k - 1)

/-- An exponent `k` such that ten to `k` exceeds `m` times two to `e`, at most two above the least
one: 30103 / 100000 is the logarithm of two. -/
def exponentAbove (m : Nat) (e : Int) : Int :=
  ((Nat.log2 m : Int) + e + 1) * 30103 / 100000 + 2

/-- The digits of `c` times ten to `k`, with zeros up to the point or behind it. -/
def positional (c : Nat) (k : Int) : List Char :=
  if 0 ≤ k then digits c ++ List.replicate k.toNat '0'
  else
    let places := (-k).toNat
    let ds := (digits c).leftpad (places + 1) '0'
    ds.take (ds.length - places) ++ '.' :: ds.drop (ds.length - places)

/-- A double with as few digits as read back. Seventeen digits always do, and the first grids may
be too coarse for any. -/
def shortest (x : Float) : String :=
  match Binary.ofFloat x with
  | .nan => "NaN"
  | .infinite negative => signText negative ++ "inf"
  | .finite negative m e =>
    signText negative ++ String.ofList
      (if m = 0 then ['0']
       else match coarsest (.of m e) (e - 2) 24 (exponentAbove m e) with
         | some (c, k) => positional c k
         | none => [])

example : shortest (1 / 10) = "0.1" := by decide +kernel

example : shortest (-0.0) = "-0" := by decide +kernel

example : shortest 1e21 = "1000000000000000000000" := by decide +kernel

end FunctionCalculator.Decimal
