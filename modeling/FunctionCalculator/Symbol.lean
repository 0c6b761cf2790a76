/-!
# Symbols

The characters an expression is written with: five binary operators, two brackets, the
decimal separators, the variable and the letters of function names. Texts are lists of
characters, so that a position in a text counts characters.
-/

namespace FunctionCalculator

inductive Operator where
  | plus
  | minus
  | times
  | divide
  | power
  deriving DecidableEq, Repr

namespace Operator

def symbol : Operator → Char
  | plus => '+'
  | minus => '-'
  | times => '*'
  | divide => '/'
  | power => '^'

def ofChar? : Char → Option Operator
  | '+' => some plus
  | '-' => some minus
  | '*' => some times
  | '/' => some divide
  | '^' => some power
  | _ => none

/-- The operator a text writes: the text is its one character. -/
def ofText? : List Char → Option Operator
  | [c] => ofChar? c
  | _ => none

theorem ofChar?_symbol (o : Operator) : ofChar? o.symbol = some o := by
  cases o <;> rfl

theorem ofChar?_eq_some_iff {c : Char} {o : Operator} : ofChar? c = some o ↔ c = o.symbol := by
  constructor
  · intro h
    unfold ofChar? at h
    split at h <;> cases h <;> rfl
  · rintro rfl
    exact ofChar?_symbol o

end Operator

def isOperator (c : Char) : Bool := (Operator.ofChar? c).isSome

def variableChar : Char := 'x'

/-- The letters of function names: ASCII letters and the underscore. The variable's letter is
one of them. -/
def isNameLetter (c : Char) : Bool := c.isAlpha || c = '_'

/-- The decimal separators: both read as a point. -/
def isSeparator (c : Char) : Bool := c = '.' || c = ','

theorem isOperator_iff {c : Char} : isOperator c = true ↔ ∃ o : Operator, c = o.symbol := by
  simp only [isOperator, Option.isSome_iff_exists, Operator.ofChar?_eq_some_iff]

end FunctionCalculator
