/-!
# Leading signs

An operand is written with any number of minus signs in front. An odd number negates it, an
even number does not.
-/

namespace FunctionCalculator.Text

/-- The minus signs a text begins with. -/
def signs (t : List Char) : List Char := t.takeWhile (· == '-')

def unsigned (t : List Char) : List Char := t.dropWhile (· == '-')

/-- Whether a text begins with an odd number of minus signs. -/
def isNegative (t : List Char) : Bool := (signs t).length % 2 == 1

theorem signs_append_unsigned (t : List Char) : signs t ++ unsigned t = t :=
  List.takeWhile_append_dropWhile

theorem signs_cons_minus (t : List Char) : signs ('-' :: t) = '-' :: signs t := rfl

theorem unsigned_cons_minus (t : List Char) : unsigned ('-' :: t) = unsigned t := rfl

end FunctionCalculator.Text
