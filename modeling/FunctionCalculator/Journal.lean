import FunctionCalculator.Decimal.Shortest
import FunctionCalculator.Expression
import FunctionCalculator.Solver.Secant
import FunctionCalculator.Solver.Simpson

/-!
# The journal

What each computation has to say, line by line. The lines are read off the records that the
computations keep: the emissions of a scan, the moves of a conversion, the end of a run, the events
of a solver.
-/

namespace FunctionCalculator.Journal

inductive Level where
  | debug
  | trace
  deriving DecidableEq, Repr

structure Line where
  level : Level
  message : String
  deriving DecidableEq, Repr

/-- The lines that a reader at the given level sees: at the level of debugging, no traces. -/
def upTo (level : Level) (ls : List Line) : List Line :=
  ls.filter fun l => l.level == .debug || level == .trace

def quoted (t : List Char) : String := "\"" ++ String.ofList t ++ "\""

/-- The line of an emission, if it left the buffer. -/
def ofEmission (e : Lexeme.Emission) : Option Line :=
  match e.origin with
  | .buffered _ => some ⟨.debug, "lexeur: vide le tampon " ++ quoted e.lexeme.text⟩
  | .single => none

/-- The lines of a scan: the emissions from the buffer, and last an error. -/
def ofScan (s : List Char) : List Line :=
  let lines (k : Lexeme.Configuration) := k.emissions.toList.filterMap ofEmission
  match Lexeme.run s with
  | .ok k => lines k
  | .error stop => lines stop.reached ++ [⟨.debug, "lexeur: " ++ stop.error.located⟩]

def kindName : Token.Kind → String
  | .number => "Entier"
  | .var => "Variable"
  | .operator => "Operateur"
  | .function => "Fonction"
  | .opening => "ParentheseOuvrante"
  | .closing => "ParentheseFermante"

def ofTokens (ts : List Token) : List Line :=
  ts.map fun t => ⟨.debug, "jetons: " ++ quoted t.text ++ " est " ++ kindName t.kind⟩

def ofMove : Postorder.Move → Option Line
  | .push t => some ⟨.debug, "rpn: empile " ++ quoted t.text⟩
  | .release t p =>
    some ⟨.debug, "rpn: sort " ++ quoted t.text ++ " (priorité >= " ++ toString p ++ ")"⟩
  | .copy _ | .drain _ => none

def ofConversion (ts : List Token) : List Line :=
  (Postorder.moves [] ts).filterMap ofMove

/-- The lines of a text that becomes an expression. An unknown function ends them before the
conversion. -/
def ofCompilation (s : List Char) : List Line :=
  ofScan s ++
    match Lexeme.Reading.ofChars s with
    | .error _ => []
    | .ok r =>
      let ts := r.lexemes.map Token.ofLexeme
      ofTokens ts ++
        match Expression.ofReading r with
        | .error _ => []
        | .ok e =>
          ofConversion ts ++
            [⟨.debug, "compilé: " ++ e.derivation.normalForm ++ " => " ++ e.derivation.postorder⟩]

/-- The lines of a run at `x`: something is said of an undefined token only. -/
def ofRun (p : Program) (x : Float) : List Line :=
  match p.run x with
  | .error (.undefined t byZero) =>
    (if byZero then [⟨.debug, "évaluation: division par zéro"⟩] else []) ++
      [⟨.debug, "évaluation: " ++ quoted t.text ++ " indéfini pour x = " ++ Decimal.shortest x⟩]
  | _ => []

/-- The lines of an event of the secant method; `sampled` says those of an evaluation. -/
def ofSecantEvent {α : Type} (sampled : α → List Line) : Secant.Event α → List Line
  | .sample x => sampled x
  | .projected n => [⟨.trace, "sécante: étape " ++ toString n⟩]
  | .level n =>
    [⟨.debug, "sécante: f(a) == f(b) ou indéfini (étape " ++ toString n ++ ")"⟩]
  | .outside => [⟨.debug, "sécante: racine hors de la fenêtre finale"⟩]
  | .exhausted n => [⟨.debug, "sécante: pas de convergence en " ++ toString n ++ " étapes"⟩]

def ofSecant {α : Type} (sampled : α → List Line) (r : Secant.Run α) : List Line :=
  r.events.toList.flatMap (ofSecantEvent sampled)

def ofSimpsonEvent {α : Type} (sampled : α → List Line) : Simpson.Event α → List Line
  | .sample x => sampled x
  | .skipped i => [⟨.trace, "simpson: subdivision " ++ toString i ++ " ignorée (indéfini)"⟩]
  | .progress _ _ => []

def ofSimpson {α : Type} (sampled : α → List Line) (r : Simpson.Run α) : List Line :=
  r.events.toList.flatMap (ofSimpsonEvent sampled)

end FunctionCalculator.Journal
