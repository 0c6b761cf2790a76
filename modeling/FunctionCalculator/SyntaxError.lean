import FunctionCalculator.Lexeme.State

/-!
# Errors in a written expression

An expression that is not well formed is refused with a cause and the index of a character.
The index counts characters from zero, blanks included. At the end of the text, brackets left
open are reported at the last character that is not blank, and a missing operand one place
after the end.
-/

namespace FunctionCalculator

open Lexeme (State)

inductive SyntaxError.Cause where
  /-- A character that the state of the automaton does not let pass. -/
  | unexpected (state : State) (found : Char)
  /-- Nothing but blanks. -/
  | empty
  /-- Brackets still open at the end, and how many. -/
  | unclosed (depth : Nat)
  /-- A closing bracket where none is open. -/
  | unopened
  /-- An operator or a sign at the end. -/
  | missingOperand
  /-- The name of a function at the end. -/
  | missingArgument
  /-- A function that is not in the registry. -/
  | unknownFunction (name : List Char)
  deriving DecidableEq, Repr

/-- A cause and the place it is reported at. -/
structure SyntaxError where
  cause : SyntaxError.Cause
  position : Nat
  deriving DecidableEq, Repr

namespace SyntaxError

def Cause.message : Cause → String
  | unexpected state found =>
    "attendu: " ++ state.expected ++ ", reçu '" ++ String.singleton found ++ "'"
  | empty => "entrée vide"
  | unclosed depth => "parenthèses déséquilibrées (solde " ++ toString depth ++ ")"
  | unopened => "parenthèse fermante sans ouvrante"
  | missingOperand =>
    "attendu: " ++ State.start.expected ++ ", opérateur en fin d’expression"
  | missingArgument =>
    "attendu: " ++ State.start.expected ++ ", fonction sans argument en fin d’expression"
  | unknownFunction name => "fonction inconnue: '" ++ String.ofList name ++ "'"

/-- The words for an error, without its position. -/
def message (e : SyntaxError) : String := e.cause.message

/-- The words for an error, its position in brackets at the end. -/
def located (e : SyntaxError) : String :=
  e.message ++ " (position " ++ toString e.position ++ ")"

end SyntaxError

end FunctionCalculator
