import FunctionCalculator.Function.Elementary

/-!
# Functions of the calculator

Twenty-seven base functions; to each of them its reciprocal, named with "co" in front; and five
other names for logarithms. The other names have no reciprocal of their own. A name is looked up as
it is written, upper and lower case apart.
-/

namespace FunctionCalculator

/-- The functions that have a name of their own. -/
inductive BaseFunction where
  | acos
  | acosh
  | asin
  | asinh
  | atan
  | atanh
  | cbrt
  | ceil
  | cos
  | cosh
  | degrees
  | exp
  | exp2
  | expm1
  | fabs
  | floor
  | log
  | log10
  | log1p
  | log2
  | radians
  | sin
  | sinh
  | sqrt
  | tan
  | tanh
  | trunc
  deriving DecidableEq, Repr

namespace BaseFunction

/-- The base functions in the order of their names. -/
def all : List BaseFunction :=
  [acos, acosh, asin, asinh, atan, atanh, cbrt, ceil, cos, cosh, degrees, exp, exp2, expm1, fabs,
   floor, log, log10, log1p, log2, radians, sin, sinh, sqrt, tan, tanh, trunc]

def name : BaseFunction → String
  | acos => "acos"
  | acosh => "acosh"
  | asin => "asin"
  | asinh => "asinh"
  | atan => "atan"
  | atanh => "atanh"
  | cbrt => "cbrt"
  | ceil => "ceil"
  | cos => "cos"
  | cosh => "cosh"
  | degrees => "degrees"
  | exp => "exp"
  | exp2 => "exp2"
  | expm1 => "expm1"
  | fabs => "fabs"
  | floor => "floor"
  | log => "log"
  | log10 => "log10"
  | log1p => "log1p"
  | log2 => "log2"
  | radians => "radians"
  | sin => "sin"
  | sinh => "sinh"
  | sqrt => "sqrt"
  | tan => "tan"
  | tanh => "tanh"
  | trunc => "trunc"

def apply : BaseFunction → Float → Float
  | acos => Float.acos
  | acosh => Float.acosh
  | asin => Float.asin
  | asinh => Float.asinh
  | atan => Float.atan
  | atanh => Elementary.atanh
  | cbrt => Float.cbrt
  | ceil => Float.ceil
  | cos => Float.cos
  | cosh => Float.cosh
  | degrees => Elementary.degrees
  | exp => Float.exp
  | exp2 => Float.exp2
  | expm1 => Elementary.expm1
  | fabs => Float.abs
  | floor => Float.floor
  | log => Float.log
  | log10 => Float.log10
  | log1p => Elementary.log1p
  | log2 => Float.log2
  | radians => Elementary.radians
  | sin => Float.sin
  | sinh => Float.sinh
  | sqrt => Float.sqrt
  | tan => Float.tan
  | tanh => Float.tanh
  | trunc => Elementary.trunc

theorem mem_all (f : BaseFunction) : f ∈ all := by
  cases f <;> decide

end BaseFunction

inductive UnaryFunction where
  | direct (f : BaseFunction)
  /-- One divided by the base function. -/
  | reciprocal (f : BaseFunction)
  deriving DecidableEq, Repr

/-- The value of a function, which need not be finite. -/
def UnaryFunction.apply : UnaryFunction → Float → Float
  | direct f, x => f.apply x
  | reciprocal f, x => 1 / f.apply x

namespace Registry

def aliases : List (String × BaseFunction) :=
  [("ln", .log), ("lb", .log2), ("lg", .log10), ("log_two", .log2), ("log_ten", .log10)]

def entries : List (String × UnaryFunction) :=
  BaseFunction.all.map (fun f => (f.name, .direct f))
    ++ BaseFunction.all.map (fun f => ("co" ++ f.name, .reciprocal f))
    ++ aliases.map (fun a => (a.1, .direct a.2))

def sorted : List (String × UnaryFunction) := entries.mergeSort fun a b => a.1 ≤ b.1

def find? (name : List Char) : Option UnaryFunction :=
  (entries.find? fun e => e.1.toList == name).map Prod.snd

def isKnown (name : List Char) : Bool := (find? name).isSome

end Registry

end FunctionCalculator
