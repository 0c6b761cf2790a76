import FunctionCalculator.Decimal.Literal
import FunctionCalculator.Function.Registry
import FunctionCalculator.Token

/-!
# Programs

A list of tokens as a program of a stack machine. A run over all instructions ends in one of three
ways: with a value, which is finite; at a token whose value is undefined; or with a fault, where the
tokens are no expression in postorder or name something unknown. An undefined value ends the run at
once, whatever would follow.

Each token is looked up and read once, when the program is made; what is wrong with it shows when
the run reaches it.
-/

namespace FunctionCalculator

/-- What is wrong with a list of tokens as a program. -/
inductive Fault where
  | unknownOperator (text : List Char)
  | unknownFunction (name : List Char)
  | malformedNumber (text : List Char)
  | strayBracket (text : List Char)
  /-- An operand is missing. -/
  | emptyStack
  /-- The run leaves this number of values, which is not one. -/
  | leftover (count : Nat)
  deriving DecidableEq, Repr

def Fault.message : Fault → String
  | unknownOperator t => "opérateur inconnu: '" ++ String.ofList t ++ "'"
  | unknownFunction t => "fonction inconnue: '" ++ String.ofList t ++ "'"
  | malformedNumber t => "nombre invalide: '" ++ String.ofList t ++ "'"
  | strayBracket t => "parenthèse inattendue en RPN: '" ++ String.ofList t ++ "'"
  | emptyStack => "pile vide"
  | leftover n => "pile incohérente en fin d’évaluation (" ++ toString n ++ " valeurs)"

def finite? (v : Float) : Option Float := if v.isFinite then some v else none

def signed (negative : Bool) (v : Float) : Float := if negative then -v else v

/-- Whether an operator divides by zero, of either sign. -/
def Operator.dividesByZero (o : Operator) (right : Float) : Bool := o == divide && right == 0

/-- The value of an operator, before it is looked at. -/
def Operator.apply : Operator → Float → Float → Float
  | plus, l, r => l + r
  | minus, l, r => l - r
  | times, l, r => l * r
  | divide, l, r => l / r
  | power, l, r => l.pow r

def Operator.value? (o : Operator) (l r : Float) : Option Float :=
  if o.dividesByZero r then none else finite? (o.apply l r)

/-- What a token does. The parts that a text may fail to give carry the fault in their place. -/
inductive Action where
  | constant (v : Except Fault Float)
  | var (negative : Bool)
  | operator (o : Except Fault Operator)
  | function (negative : Bool) (f : Except Fault UnaryFunction)
  | bracket (f : Fault)

structure Instruction where
  token : Token
  action : Action

namespace Action

/-- The number that a token writes: the literal behind its signs, negated if they are odd. -/
def number? (t : List Char) : Option Float :=
  (Decimal.literal? (Text.unsigned t)).map (signed (Text.isNegative t))

def ofToken (t : Token) : Action :=
  match t.kind with
  | .number =>
    constant (match number? t.text with
      | some v => .ok v
      | none => .error (.malformedNumber t.text))
  | .var => var (Text.isNegative t.text)
  | .operator =>
    operator (match Operator.ofText? t.text with
      | some o => .ok o
      | none => .error (.unknownOperator t.text))
  | .function =>
    function (Text.isNegative t.text) (match Registry.find? (Text.unsigned t.text) with
      | some f => .ok f
      | none => .error (.unknownFunction (Text.unsigned t.text)))
  | .opening | .closing => bracket (.strayBracket t.text)

end Action

abbrev Program := List Instruction

namespace Program

inductive Halt where
  /-- The value of a token is undefined, perhaps as a division by zero. -/
  | undefined (token : Token) (byZero : Bool)
  | fault (f : Fault)

def ofTokens (ts : List Token) : Program := ts.map fun t => ⟨t, Action.ofToken t⟩

def tokens (p : Program) : List Token := p.map Instruction.token

theorem tokens_ofTokens (ts : List Token) : (ofTokens ts).tokens = ts := by
  simp [tokens, ofTokens, Function.comp_def]

/-- The value of a token goes to the stack; where there is none, the run ends. -/
def push (t : Token) (byZero : Bool) (v : Option Float) (stack : List Float) :
    Except Halt (List Float) :=
  match v with
  | some v => .ok (v :: stack)
  | none => .error (.undefined t byZero)

/-- One instruction on a stack, its top first. Missing operands are noticed before an unknown
name. -/
def step (x : Float) (i : Instruction) (stack : List Float) : Except Halt (List Float) :=
  match i.action, stack with
  | .constant (.ok v), s => push i.token false (finite? v) s
  | .constant (.error f), _ => .error (.fault f)
  | .var negative, s => push i.token false (finite? (signed negative x)) s
  | .operator (.ok o), r :: l :: s => push i.token (o.dividesByZero r) (o.value? l r) s
  | .operator (.error f), _ :: _ :: _ => .error (.fault f)
  | .operator _, _ => .error (.fault .emptyStack)
  | .function negative (.ok f), a :: s =>
    push i.token false (finite? (signed negative (f.apply a))) s
  | .function _ (.error f), _ :: _ => .error (.fault f)
  | .function _ _, [] => .error (.fault .emptyStack)
  | .bracket f, _ => .error (.fault f)

def exec (x : Float) : Program → List Float → Except Halt (List Float)
  | [], stack => .ok stack
  | i :: p, stack =>
    match step x i stack with
    | .ok s => exec x p s
    | .error h => .error h

theorem exec_append (x : Float) (p q : Program) (stack : List Float) :
    exec x (p ++ q) stack = (exec x p stack).bind (exec x q) := by
  induction p generalizing stack with
  | nil => rfl
  | cons i p ih =>
    simp only [List.cons_append, exec]
    cases step x i stack with
    | ok s => exact ih s
    | error h => rfl

/-- The end of a run from the empty stack: one value, or the reason why there is none. -/
def run (p : Program) (x : Float) : Except Halt Float :=
  match exec x p [] with
  | .ok [v] => .ok v
  | .ok s => .error (.fault (.leftover s.length))
  | .error h => .error h

/-- The value of a program at `x`, `none` where it is undefined. -/
def value (p : Program) (x : Float) : Except Fault (Option Float) :=
  match p.run x with
  | .ok v => .ok (some v)
  | .error (.undefined _ _) => .ok none
  | .error (.fault f) => .error f

end Program

end FunctionCalculator
