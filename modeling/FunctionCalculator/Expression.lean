import FunctionCalculator.Lexeme.Scan
import FunctionCalculator.Postorder
import FunctionCalculator.Program

/-!
# Expressions

A text becomes an expression in four steps: it is read as lexemes, these are told apart as tokens,
the names of functions are checked, and the tokens are put in postorder. An expression is checked
once and evaluated as often as need be.
-/

namespace FunctionCalculator

/-- How an expression was understood: its normal form, its tokens and its tokens in postorder. -/
structure Derivation where
  normalForm : String := ""
  tokens : String := ""
  postorder : String := ""
  deriving DecidableEq, Repr

structure Expression where
  program : Program
  /-- Whether the variable stands in it as an operand. -/
  dependsOnX : Bool
  derivation : Derivation

namespace Expression

/-- The error at the first function that is not in the registry, reported behind its signs. -/
def unknownFunction? (ts : List Token) : Option SyntaxError :=
  (ts.find? fun t => t.kind == .function && !Registry.isKnown (Text.unsigned t.text)).map fun t =>
    ⟨.unknownFunction (Text.unsigned t.text), t.position + (Text.signs t.text).length⟩

def ofReading (r : Lexeme.Reading) : Except SyntaxError Expression :=
  let ts := r.lexemes.map Token.ofLexeme
  match unknownFunction? ts with
  | some e => .error e
  | none =>
    let out := Token.postorder ts
    .ok
      { program := Program.ofTokens out
        dependsOnX := r.dependsOnX
        derivation :=
          { normalForm := String.ofList (Lexeme.normalForm r.lexemes)
            tokens := String.ofList (Token.listing ts)
            postorder := String.ofList (Token.listing out) } }

def ofChars (s : List Char) : Except SyntaxError Expression :=
  match Lexeme.Reading.ofChars s with
  | .ok r => ofReading r
  | .error e => .error e

/-- The expression that a text writes. -/
def ofString (s : String) : Except SyntaxError Expression := ofChars s.toList

def postorder (e : Expression) : List Token := e.program.tokens

/-- The value at `x`, with the faults that a checked expression cannot have. -/
def value (e : Expression) (x : Float) : Except Fault (Option Float) := e.program.value x

/-- The value at `x`, `none` where the expression is undefined. -/
def value? (e : Expression) (x : Float) : Option Float :=
  match e.value x with
  | .ok v => v
  | .error _ => none

/-- The value at a single-precision `x`, computed in double precision and then rounded. -/
def singleValue? (e : Expression) (x : Float32) : Option Float32 :=
  (e.value? x.toFloat).map Float.toFloat32

end Expression

end FunctionCalculator
