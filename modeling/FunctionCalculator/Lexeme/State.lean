/-!
# States of the reading automaton

What has just been read decides which characters may come next. The names of those characters
are what an error message tells the user.
-/

namespace FunctionCalculator.Lexeme

/-- Where the automaton stands between two characters. -/
inductive State where
  /-- At the start, after a binary operator or after an opening bracket: an operand is due. -/
  | start
  /-- In a number, before any decimal separator. -/
  | integer
  /-- In a number, after its decimal separator. -/
  | decimal
  /-- After a closing bracket. -/
  | afterBracket
  /-- In the name of a function. -/
  | name
  /-- After the variable. -/
  | afterVariable
  deriving DecidableEq, Repr

/-- The characters a state lets pass, in the words of an error message. -/
def State.expected : State → String
  | start => "nombre, lettre, moins unaire ou parenthèse ouvrante"
  | integer => "chiffre, opérateur, virgule ou parenthèse fermante"
  | decimal => "chiffre, opérateur ou parenthèse fermante"
  | afterBracket => "opérateur ou parenthèse fermante"
  | name => "lettre ou parenthèse ouvrante"
  | afterVariable => "parenthèse fermante ou opérateur"

end FunctionCalculator.Lexeme
