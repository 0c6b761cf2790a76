import FunctionCalculator.Task

/-!
# Sessions

The state of the calculator: the entry, the options, what is shown of the last evaluation, the
pending task, and whether the entry asks for the keyboard. Every operation is a function from a
session to a session. An error is never shown beside a result, and the bounds and the point are
finite and of limited size.
-/

namespace FunctionCalculator

/-- What to do with an expression that depends on the variable. -/
inductive Mode where
  | root
  | integral
  | expression
  deriving DecidableEq, Repr

def Mode.label : Mode → String
  | root => "Racine"
  | integral => "Intégrale"
  | expression => "Expression"

/-- An error that is shown: its words, and the place of the caret. -/
structure ShownError where
  message : String
  position : Nat
  deriving DecidableEq, Repr

structure Session where
  entry : String := ""
  mode : Mode := .root
  /-- The bounds of a root or an integral. -/
  a : Float := -10
  b : Float := 10
  /-- The point where an expression is evaluated. -/
  x : Float := 0
  result : String := ""
  error : Option ShownError := none
  dependsOnX : Bool := false
  derivation : Derivation := {}
  task : Option Task := none
  /-- Whether the entry asks for the keyboard at the next frame. -/
  wantsFocus : Bool := true

namespace Session

/-- The largest magnitude of a bound or a point. -/
def limit : Float := 1e9

/-- A number that a bound or the point may have. -/
def Fits (v : Float) : Prop := v.isFinite ∧ -limit ≤ v ∧ v ≤ limit

instance (v : Float) : Decidable (Fits v) := inferInstanceAs (Decidable (_ ∧ _))

/-- The nearest number that fits; zero for one that is not finite. -/
def bounded (v : Float) : Float :=
  if Fits v then v else if v.isFinite then if v < 0 then -limit else limit else 0

theorem fits_bounded (v : Float) : Fits (bounded v) := by
  unfold bounded
  split
  · assumption
  · split
    · split <;> decide +kernel
    · decide +kernel

def reset (_ : Session) : Session := {}

/-- Clears what is shown of an evaluation, and drops the task. -/
def clearResults (s : Session) : Session :=
  { s with
    result := ""
    error := none
    dependsOnX := false
    derivation := {}
    task := none
    wantsFocus := true }

/-- Clears the entry and what is shown of an evaluation. -/
def clearEntry (s : Session) : Session := { s with entry := "" }.clearResults

/-- Shows an error in place of everything else. -/
def setError (s : Session) (message : String) (position : Nat) : Session :=
  { s.clearResults with error := some ⟨message, position⟩ }

def setResult (s : Session) (result : String) (dependsOnX : Bool) (derivation : Derivation) :
    Session :=
  { s with error := none, result, dependsOnX, derivation }

def setInterval (s : Session) (a b : Float) : Session := { s with a := bounded a, b := bounded b }

def setX (s : Session) (x : Float) : Session := { s with x := bounded x }

/-- What the mode asks of an expression; nothing if only its value is to be shown. -/
def request? (s : Session) (e : Expression) : Option Request :=
  if e.dependsOnX then
    match s.mode with
    | .root => some (.root s.a s.b)
    | .integral => some (.integral s.a s.b)
    | .expression => none
  else none

/-- Evaluates the entry. An error is shown at its place; a value is shown at once; for a root or
an integral a task takes over and a text holds the place of its result. -/
def evaluate (s : Session) : Session :=
  let s := { s with wantsFocus := true }
  match Expression.ofString s.entry with
  | .error e => s.setError e.message e.position
  | .ok e =>
    match s.request? e with
    | none =>
      let v := e.value? (if e.dependsOnX then s.x else 0)
      { s.setResult (Report.value e.dependsOnX v) e.dependsOnX e.derivation with task := none }
    | some r =>
      { s.setResult Report.waiting e.dependsOnX e.derivation with task := some ⟨e, r⟩ }

/-- Looks at the pending task, in two readings: its result, if it is finished, and else its last
progress. Answers whether a task is still pending. -/
def poll (s : Session) (finished : Option String) (progress : Option (Nat × Nat)) :
    Session × Bool :=
  match s.task with
  | none => (s, false)
  | some _ =>
    match finished with
    | some text => ({ s with result := text, task := none }, false)
    | none =>
      match progress with
      | some (i, n) => ({ s with result := Report.progress i n }, true)
      | none => (s, true)

/-- Waits for the pending task, if there is one, and takes its result. -/
def await (s : Session) : Session :=
  match s.task with
  | none => s
  | some t => (s.poll (some t.solution.text) none).1

end Session

end FunctionCalculator
