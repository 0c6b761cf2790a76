import FunctionCalculator.Lexeme.Basic
import FunctionCalculator.Lexeme.Transition
import FunctionCalculator.Text.Blank

/-!
# Scanning an expression

A run of the automaton over the visible characters of a text. The configuration holds the state,
the lexeme under construction, the count of open brackets and what was emitted so far; each
emission remembers whether it left the buffer, and in which state. A run that fails keeps the
configuration it had reached.
-/

namespace FunctionCalculator.Lexeme

/-- How a lexeme came out. -/
inductive Origin where
  /-- From the buffer, flushed in the given state. -/
  | buffered (state : State)
  /-- As a single character. -/
  | single
  deriving DecidableEq, Repr

structure Emission where
  lexeme : Lexeme
  origin : Origin
  deriving DecidableEq, Repr

/-- Where a run stands. The buffer holds the signs and characters of an unfinished operand,
`bufferStart` the index of the first of them. -/
structure Configuration where
  state : State := .start
  buffer : List Char := []
  bufferStart : Nat := 0
  depth : Nat := 0
  dependsOnX : Bool := false
  emissions : Array Emission := #[]
  deriving DecidableEq, Repr

/-- A run that failed: what it had reached, and the error. -/
structure Stop where
  reached : Configuration
  error : SyntaxError
  deriving DecidableEq, Repr

namespace Configuration

def lexemes (k : Configuration) : List Lexeme := k.emissions.toList.map Emission.lexeme

/-- The buffer becomes a lexeme, unless it is empty. -/
def flush (k : Configuration) : Configuration :=
  if k.buffer.isEmpty then k
  else
    { k with
      buffer := []
      emissions := k.emissions.push ⟨⟨k.buffer, k.bufferStart⟩, .buffered k.state⟩ }

/-- One effect of the character `c` at index `i`. A bracket closes only if one is open. -/
def apply (c : Char) (i : Nat) (k : Configuration) : Effect → Except Stop Configuration
  | .append =>
    .ok { k with
      buffer := k.buffer ++ [c]
      bufferStart := if k.buffer.isEmpty then i else k.bufferStart }
  | .appendPoint => .ok { k with buffer := k.buffer ++ ['.'] }
  | .flush => .ok k.flush
  | .emit => .ok { k with emissions := k.emissions.push ⟨⟨[c], i⟩, .single⟩ }
  | .openBracket => .ok { k with depth := k.depth + 1 }
  | .closeBracket =>
    if k.depth = 0 then .error ⟨k, ⟨.unopened, i⟩⟩ else .ok { k with depth := k.depth - 1 }
  | .markVariable => .ok { k with dependsOnX := true }

/-- One character: its effects in order, then the next state. -/
def advance (k : Configuration) (p : Char × Nat) : Except Stop Configuration :=
  match transition k.state p.1 p.2 with
  | .error e => .error ⟨k, e⟩
  | .ok t => do
    let reached ← t.effects.foldlM (apply p.1 p.2) k
    .ok { reached with state := t.next }

/-- The characters one after the other, up to the first error. -/
def scan (k : Configuration) (cs : List (Char × Nat)) : Except Stop Configuration :=
  cs.foldlM advance k

theorem scan_append (k : Configuration) (u v : List (Char × Nat)) :
    scan k (u ++ v) = scan k u >>= fun k => scan k v :=
  List.foldlM_append

/-- The end of a text of `length` characters whose last visible one has index `last`. Open
brackets are reported before a missing operand. -/
def finish (last length : Nat) (k : Configuration) : Except Stop Configuration :=
  let k := k.flush
  if k.depth ≠ 0 then .error ⟨k, ⟨.unclosed k.depth, last⟩⟩
  else match k.state with
    | .start => .error ⟨k, ⟨.missingOperand, length + 1⟩⟩
    | .name => .error ⟨k, ⟨.missingArgument, length + 1⟩⟩
    | _ => .ok k

end Configuration

/-- The run over a whole text. A text that shows nothing is refused at index 0. -/
def run (s : List Char) : Except Stop Configuration :=
  match (Text.visible s).getLast? with
  | none => .error ⟨{}, ⟨.empty, 0⟩⟩
  | some (_, last) => do
    let k ← Configuration.scan {} (Text.visible s)
    k.finish last s.length

structure Reading where
  lexemes : List Lexeme
  /-- Whether the variable stands somewhere as an operand. -/
  dependsOnX : Bool
  deriving DecidableEq, Repr

def Reading.ofChars (s : List Char) : Except SyntaxError Reading :=
  match run s with
  | .ok k => .ok ⟨k.lexemes, k.dependsOnX⟩
  | .error stop => .error stop.error

end FunctionCalculator.Lexeme
