import FunctionCalculator.Lexeme.Basic
import FunctionCalculator.Text.Sign

/-!
# Tokens

A token is a lexeme with its kind. The kind is read off the text alone; every text has one, and
whether a function is known is not asked here.
-/

namespace FunctionCalculator

inductive Token.Kind where
  /-- A number, its signs kept in the text. -/
  | number
  | var
  | operator
  | function
  | opening
  | closing
  deriving DecidableEq, Repr

structure Token where
  text : List Char
  kind : Token.Kind
  position : Nat
  deriving DecidableEq, Repr

namespace Token

/-- The kind of a text that is neither an operator nor a bracket: behind the signs, the
variable alone, letters alone, or else a number. -/
def Kind.ofOperand (t : List Char) : Kind :=
  let operand := Text.unsigned t
  if operand = [variableChar] then var
  else if operand ≠ [] ∧ operand.all isNameLetter then function
  else number

def Kind.ofText : List Char → Kind
  | [c] =>
    if isOperator c then operator
    else if c = '(' then opening
    else if c = ')' then closing
    else ofOperand [c]
  | t => ofOperand t

def ofLexeme (l : Lexeme) : Token := ⟨l.text, Kind.ofText l.text, l.position⟩

/-- The texts of some tokens, with single spaces between them. -/
def listing (ts : List Token) : List Char := [' '].intercalate (ts.map Token.text)

end Token

end FunctionCalculator
