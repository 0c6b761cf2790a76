import FunctionCalculator.Symbol
import FunctionCalculator.SyntaxError

/-!
# Transitions of the reading automaton

`transition` is a pure table: from a state and a character to the next state and what the
character does to the lexemes under construction. The brackets are only counted here by way of
effects; whether they match is not a matter of the state.
-/

namespace FunctionCalculator.Lexeme

/-- What the automaton distinguishes among characters. -/
inductive CharClass where
  | digit
  | opening
  | closing
  | minus
  | operator
  | var
  | letter
  | separator
  | other
  deriving DecidableEq, Repr

/-- The class of a character. The variable's letter is a class of its own, and so is the minus,
which is both a sign and an operator. -/
def CharClass.ofChar (c : Char) : CharClass :=
  if c.isDigit then digit
  else if c = '(' then opening
  else if c = ')' then closing
  else if c = '-' then minus
  else if c = variableChar then var
  else if isOperator c then operator
  else if isNameLetter c then letter
  else if isSeparator c then separator
  else other

inductive Effect where
  /-- The character goes to the buffer. -/
  | append
  /-- A decimal point goes to the buffer, whichever separator was written. -/
  | appendPoint
  /-- The buffer becomes a lexeme, unless it is empty. -/
  | flush
  /-- The character becomes a lexeme by itself. -/
  | emit
  /-- One more bracket is open. -/
  | openBracket
  /-- One bracket fewer is open. -/
  | closeBracket
  /-- The expression depends on the variable. -/
  | markVariable
  deriving DecidableEq, Repr

/-- A row of the table: the next state, and the effects in their order. -/
structure Transition where
  next : State
  effects : List Effect
  deriving DecidableEq, Repr

/-- The table. Away from the start a minus is the binary operator; at the start it is a sign
and waits in the buffer for its operand. -/
def Transition.of? : State → CharClass → Option Transition
  | .start, .digit => some ⟨.integer, [.append]⟩
  | .start, .opening => some ⟨.start, [.emit, .openBracket]⟩
  | .start, .minus => some ⟨.start, [.append]⟩
  | .start, .letter => some ⟨.name, [.append]⟩
  | .start, .var => some ⟨.afterVariable, [.append, .flush, .markVariable]⟩
  | .integer, .digit => some ⟨.integer, [.append]⟩
  | .integer, .separator => some ⟨.decimal, [.appendPoint]⟩
  | .decimal, .digit => some ⟨.decimal, [.append]⟩
  | .integer, .closing | .decimal, .closing =>
    some ⟨.afterBracket, [.flush, .emit, .closeBracket]⟩
  | .afterBracket, .closing | .afterVariable, .closing =>
    some ⟨.afterBracket, [.emit, .closeBracket]⟩
  | .integer, .operator | .integer, .minus | .decimal, .operator | .decimal, .minus
  | .afterBracket, .operator | .afterBracket, .minus
  | .afterVariable, .operator | .afterVariable, .minus => some ⟨.start, [.flush, .emit]⟩
  | .name, .letter | .name, .var => some ⟨.name, [.append]⟩
  | .name, .opening => some ⟨.start, [.flush, .emit, .openBracket]⟩
  | _, _ => none

/-- The transition at the character `c` of index `index`, or the error there. -/
def transition (s : State) (c : Char) (index : Nat) : Except SyntaxError Transition :=
  match Transition.of? s (CharClass.ofChar c) with
  | some t => .ok t
  | none => .error ⟨.unexpected s c, index⟩

end FunctionCalculator.Lexeme
