/-!
# Number literals

The text of a number: an optional sign, then digits with at most one point and at least one digit
on either side of it, then an optional exponent; or one of the words for infinity and for not a
number, in any case. The value is the nearest double, a half to the even one.
-/

namespace FunctionCalculator.Decimal

def natOfDigits (ds : List Char) : Nat :=
  ds.foldl (fun n c => 10 * n + (c.toNat - '0'.toNat)) 0

/-- Takes a sign off, a minus read as `true`. -/
def splitSign : List Char → Bool × List Char
  | '+' :: t => (false, t)
  | '-' :: t => (true, t)
  | t => (false, t)

/-- Reads an exponent, which ends the text. No text is the exponent zero. -/
def exponent? : List Char → Option Int
  | [] => some 0
  | c :: t =>
    let (negative, ds) := splitSign t
    if (c = 'e' ∨ c = 'E') ∧ ds ≠ [] ∧ ds.all Char.isDigit then
      some (if negative then -natOfDigits ds else natOfDigits ds)
    else none

/-- Splits a text behind its leading digits: the digits, and behind a point more digits. -/
def splitPoint (t : List Char) : List Char × List Char × List Char :=
  let whole := t.takeWhile Char.isDigit
  match t.dropWhile Char.isDigit with
  | '.' :: r => (whole, r.takeWhile Char.isDigit, r.dropWhile Char.isDigit)
  | r => (whole, [], r)

/-- The double nearest to `m` times ten to `e`. -/
def ofScientific (m : Nat) (e : Int) : Float :=
  Float.ofScientific m (e < 0) e.natAbs

/-- Reads digits with a point and an exponent. -/
def unsigned? (t : List Char) : Option Float :=
  let (whole, fraction, rest) := splitPoint t
  if whole = [] ∧ fraction = [] then none
  else (exponent? rest).map fun e =>
    ofScientific (natOfDigits (whole ++ fraction)) (e - fraction.length)

/-- Reads a word for a value that is not finite. -/
def word? (t : List Char) : Option Float :=
  let lower := t.map Char.toLower
  if lower = ['i', 'n', 'f'] ∨ lower = ['i', 'n', 'f', 'i', 'n', 'i', 't', 'y'] then
    some (1.0 / 0.0)
  else if lower = ['n', 'a', 'n'] then some (0.0 / 0.0)
  else none

def literal? (t : List Char) : Option Float :=
  let (negative, rest) := splitSign t
  ((word? rest).or (unsigned? rest)).map fun v => if negative then -v else v

end FunctionCalculator.Decimal
