import FunctionCalculator.Token

/-!
# Postorder

The tokens of an expression put behind their operands. Operators wait on a stack: an operator
releases those of its own priority or a higher one, so that a chain groups by priority and, at
equal priority, to the left, powers included. A function waits as the highest operators do. A
bracket holds everything below it back until it is closed.

The conversion is a list of moves. Its output and its log are two views of them.
-/

namespace FunctionCalculator

def Operator.priority : Operator → Nat
  | plus | minus => 2
  | times | divide => 3
  | power => 4

/-- The priority of a token on the stack, or of an operator about to go there. Brackets and
operands are never released by priority; an operator of an unknown text releases everything. -/
def Token.priority (t : Token) : Nat :=
  match t.kind with
  | .function => 4
  | .opening => 1
  | .operator => ((Operator.ofText? t.text).map Operator.priority).getD 0
  | .number | .var | .closing => 0

namespace Postorder

inductive Move where
  /-- An operand goes straight to the output. -/
  | copy (t : Token)
  /-- A function or an opening bracket goes to the stack. -/
  | push (t : Token)
  /-- A token leaves the stack because an operator of the given priority comes in. -/
  | release (t : Token) (priority : Nat)
  /-- A token leaves the stack at a closing bracket or at the end. -/
  | drain (t : Token)
  deriving DecidableEq, Repr

def Move.output? : Move → Option Token
  | copy t => some t
  | push _ => none
  | release t _ => some t
  | drain t => some t

/-- The moves from a stack, its top first, and the tokens still to come. A closing bracket drops
the nearest opening one; where there is none it empties the stack. -/
def moves : List Token → List Token → List Move
  | stack, [] => stack.map .drain
  | stack, t :: rest =>
    match t.kind with
    | .number | .var => .copy t :: moves stack rest
    | .function | .opening => .push t :: moves (t :: stack) rest
    | .operator =>
      let p := t.priority
      (stack.takeWhile fun s => p ≤ s.priority).map (.release · p)
        ++ moves (t :: stack.dropWhile fun s => p ≤ s.priority) rest
    | .closing =>
      (stack.takeWhile fun s => s.kind != .opening).map .drain
        ++ moves (stack.dropWhile fun s => s.kind != .opening).tail rest

end Postorder

def Token.postorder (ts : List Token) : List Token :=
  (Postorder.moves [] ts).filterMap Postorder.Move.output?

end FunctionCalculator
