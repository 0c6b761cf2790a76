import FunctionCalculator.Symbol

/-!
# Lexemes

A lexeme is a piece of the expression: a number, the variable or a function name, each with the
minus signs written before it, or a single operator or bracket.
-/

namespace FunctionCalculator

/-- A piece of an expression and the index of its first character. -/
structure Lexeme where
  text : List Char
  position : Nat
  deriving DecidableEq, Repr

namespace Lexeme

/-- A lexeme as it is shown: a lone operator other than the power stands between spaces. -/
def spaced : List Char → List Char
  | [c] => if isOperator c && c != Operator.power.symbol then [' ', c, ' '] else [c]
  | t => t

/-- The normal form of a list of lexemes: their shown texts, one after the other. -/
def normalForm (ls : List Lexeme) : List Char := ls.flatMap fun l => spaced l.text

end Lexeme

end FunctionCalculator
