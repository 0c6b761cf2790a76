import FunctionCalculator.Session.Basic

/-!
# The window

What the user sees of a session and does to it. Beside the session the window knows whether the
entry has the keyboard and whether the derivation is unfolded. A gesture finds the window freshly
drawn, and drawing it grants the entry the keyboard if it asks for it. Only a field of another mode
is known to be absent without a look at the window.

The options are on screen while the expression depends on the variable.
-/

namespace FunctionCalculator

structure Window where
  session : Session := {}
  /-- Whether the entry has the keyboard. -/
  hasKeyboard : Bool := false
  /-- Whether the section with the derivation is unfolded. -/
  unfolded : Bool := false

/-- A button, or an entry of the mode selector. -/
inductive Button where
  | clearEntry
  | clearResults
  | reset
  | evaluate
  /-- Appends a character to the entry. -/
  | symbol (c : Char)
  /-- Appends a function name and an opening bracket to the entry. -/
  | function (name : String)
  /-- Folds or unfolds the derivation. -/
  | fold
  | mode (m : Mode)
  deriving DecidableEq, Repr

namespace Button

def label : Button → String
  | clearEntry => "C"
  | clearResults => "CLR"
  | reset => "AC"
  | evaluate => "="
  | symbol c => String.singleton c
  | function name => name
  | fold => "Démarche"
  | mode m => m.label

def all : List Button :=
  [clearEntry, clearResults, reset, evaluate]
    ++ ['(', ')', '+', '-', '*', '/', '^', 'x'].map symbol
    ++ ["sin", "cos", "tan", "cotan", "exp", "ln", "lg", "sqrt"].map function
    ++ [fold, mode .root, mode .integral, mode .expression]

def ofLabel? (label : String) : Option Button := all.find? fun b => b.label == label

end Button

inductive Field where
  | a
  | b
  | x
  deriving DecidableEq, Repr

def Field.label : Field → String
  | a => "a ="
  | b => "b ="
  | x => "x ="

def Field.get (s : Session) : Field → Float
  | a => s.a
  | b => s.b
  | x => s.x

def Field.set (s : Session) (v : Float) : Field → Session
  | a => s.setInterval v s.b
  | b => s.setInterval s.a v
  | x => s.setX v

/-- The fields that a mode needs. -/
def Mode.fields : Mode → List Field
  | root | integral => [.a, .b]
  | expression => [.x]

inductive Gesture where
  /-- Replaces the entry. -/
  | type (text : String)
  /-- Clicks the button with the given words. -/
  | click (label : String)
  /-- Enters a number into a field. -/
  | enter (field : Field) (v : Float)
  | escapeKey
  | enterKey (control : Bool)
  /-- Waits for the pending task. -/
  | await
  /-- Looks at the window. -/
  | look

namespace Window

def draw (w : Window) : Window :=
  if w.session.wantsFocus then
    { w with session := { w.session with wantsFocus := false }, hasKeyboard := true }
  else w

/-- Whether a button is on screen: the modes only while the expression depends on the variable. -/
def shows (s : Session) : Button → Bool
  | .mode _ => s.dependsOnX
  | _ => true

/-- What a button does to the session. A mode is evaluated only if it is a new one. -/
def press (s : Session) : Button → Session
  | .clearEntry => { s.clearEntry with wantsFocus := true }
  | .clearResults => { s.clearResults with wantsFocus := true }
  | .reset => { s.reset with wantsFocus := true }
  | .evaluate => s.evaluate
  | .symbol c => { s with entry := s.entry.push c, wantsFocus := true }
  | .function name => { s with entry := s.entry ++ name ++ "(", wantsFocus := true }
  | .fold => s
  | .mode m => if m = s.mode then s else { s with mode := m }.evaluate

def click (w : Window) (b : Button) : Window :=
  { w with
    session := press w.session b
    unfolded := if b = .fold then !w.unfolded else w.unfolded }

/-- The nearest number that a field takes. What is not a number counts as too large. -/
def clamp (v : Float) : Float :=
  if v < -Session.limit then -Session.limit else if v ≤ Session.limit then v else Session.limit

/-- A number entered into a field; a new one is stored, and the entry is evaluated. -/
def store (s : Session) (field : Field) (v : Float) : Session :=
  let v := clamp v
  if v == field.get s then s else (field.set s v).evaluate

/-- A gesture, and whether what it aims at was on screen. -/
def perform (w : Window) : Gesture → Window × Bool
  | .type text => ({ w with session := { w.session with entry := text } }, true)
  | .click label =>
    let w := w.draw
    match Button.ofLabel? label with
    | some b => if shows w.session b then (w.click b, true) else (w, false)
    | none => (w, false)
  | .enter field v =>
    if field ∈ w.session.mode.fields then
      let w := w.draw
      if w.session.dependsOnX then ({ w with session := store w.session field v }, true)
      else (w, false)
    else (w, false)
  | .escapeKey =>
    let w := w.draw
    ({ w with session := w.session.clearEntry }.draw, true)
  | .enterKey control =>
    let w := w.draw
    if control then
      if w.hasKeyboard then ({ w with session := w.session.evaluate }, true) else (w, true)
    else ({ w with hasKeyboard := false }, true)
  | .await => ({ w with session := w.session.await }, true)
  | .look => (w.draw, true)

/-- The texts on screen for an error: the entry, a caret under the place, and the words. -/
def errorTexts (s : Session) : List String :=
  match s.error with
  | none => []
  | some e => [s.entry, "".pushn ' ' e.position ++ "^", e.message]

def optionTexts (s : Session) : List String :=
  if s.dependsOnX then "Mode :" :: s.mode.fields.map Field.label else []

def derivationTexts (d : Derivation) : List String :=
  ["Normalisée :", d.normalForm, "Jetons :", d.tokens, "RPN :", d.postorder]

/-- The texts on screen, from top to bottom. -/
def texts (w : Window) : List String :=
  ["Calculatrice f(x)", "f(x) ="]
    ++ errorTexts w.session
    ++ optionTexts w.session
    ++ ["Résultat :", w.session.result]
    ++ (if w.unfolded then derivationTexts w.session.derivation else [])

end Window

end FunctionCalculator
