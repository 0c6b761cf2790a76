import FunctionCalculator.Proofs.Changes
import FunctionCalculator.Proofs.Refusal

/-!
# The caret belongs to the text last evaluated

An evaluation stores an error, and the window draws it below the entry as long as nothing clears
it. The entry may be edited meanwhile, and the caret then stands below another text than the one
that was refused.

What is proved:
  1. `ofChars_append`: an error that was found at a character stays whatever is put behind the text.
  2. `entry_perform`: apart from typing and clearing, the entry only grows, and only by the buttons
     that insert something.
  3. `LastEvaluated.text`, `LastEvaluated.entry`: the text last evaluated is the entry in front of
     the last gesture that evaluates, and the entry goes on with it unless something is typed.
  4. `caret_tells_evaluated`: an error on screen is that of the text last evaluated, and it is the
     error of the entry as well as long as no edit has got in its way.
  5. `caret_under_edited`: else the caret may stand below an entry that is not refused at all.
-/

namespace FunctionCalculator

/-- Whether an error is found at one of the characters. The others are found at the end of the text
or behind it. -/
def SyntaxError.Cause.atCharacter : SyntaxError.Cause → Bool
  | unexpected _ _ | unopened => true
  | empty | unclosed _ | missingOperand | missingArgument | unknownFunction _ => false

/-! ## Errors that stay -/

namespace Lexeme

theorem exists_visible_append (s t : List Char) :
    ∃ rest, Text.visible (s ++ t) = Text.visible s ++ rest := by
  unfold Text.visible
  rw [List.zipIdx_append, List.filter_append]
  exact ⟨_, rfl⟩

/-- A scan that fails never comes to what is put behind the text. -/
theorem scan_append_of_error {s : List Char} {stop : Stop}
    (h : Configuration.scan {} (Text.visible s) = .error stop) (t : List Char) :
    Configuration.scan {} (Text.visible (s ++ t)) = .error stop := by
  obtain ⟨rest, split⟩ := exists_visible_append s t
  rw [split, Configuration.scan_append, h]
  rfl

theorem Reading.ofChars_append {s : List Char} {e : SyntaxError} (h : ofChars s = .error e)
    (place : e.cause.atCharacter = true) (t : List Char) : ofChars (s ++ t) = .error e := by
  have refused : refusal? s = some e := by rw [refusal?, h]
  cases hs : Configuration.scan {} (Text.visible s) with
  | error stop =>
    rw [refusal?_of_stop hs] at refused
    have longer := refusal?_of_stop (scan_append_of_error hs t)
    rw [refused, refusal?] at longer
    split at longer
    · cases longer
    · next failed => rw [failed, Option.some.inj longer]
  | ok k =>
    -- then the error is one of the end of the text
    rw [refusal?_of_scan hs] at refused
    obtain ⟨opened, expected⟩ := cause_of_endRefusal? refused
    cases cause : e.cause with
    | unexpected state c => exact absurd cause (expected state c)
    | unopened => exact absurd cause opened
    | empty | unclosed | missingOperand | missingArgument | unknownFunction =>
      rw [cause] at place
      cases place

end Lexeme

namespace Expression

open Lexeme (Reading)

theorem ofChars_append {s : List Char} {e : SyntaxError} (h : ofChars s = .error e)
    (place : e.cause.atCharacter = true) (t : List Char) : ofChars (s ++ t) = .error e := by
  unfold ofChars at h ⊢
  cases hr : Reading.ofChars s with
  | error e' =>
    rw [hr] at h
    cases h
    rw [Reading.ofChars_append hr place t]
  | ok r =>
    -- an unknown function is found behind the last character
    simp only [hr, ofReading] at h
    split at h
    · next unknown =>
      cases h
      obtain ⟨_, -, rfl⟩ := Option.map_eq_some_iff.mp unknown
      cases place
    · cases h

end Expression

/-! ## Edits of the entry -/

def Button.inserts : Button → Bool
  | symbol _ | function _ => true
  | clearEntry | clearResults | reset | evaluate | fold | mode _ => false

/-- Whether a gesture replaces the entry by another text. -/
def Gesture.types : Gesture → Bool
  | type _ => true
  | _ => false

def Gesture.inserts : Gesture → Bool
  | click label => (Button.ofLabel? label).any Button.inserts
  | _ => false

/-- An error is shown only of a text that is refused with it. -/
theorem Session.Answers.exists_refused {s : Session} {text : Option String} {shown : ShownError}
    (h : s.Answers text) (error : s.error = some shown) :
    ∃ t e, text = some t ∧ Expression.ofString t = .error e ∧
      shown = ⟨e.message, e.position⟩ := by
  cases text with
  | none =>
    rw [h.2] at error
    cases error
  | some t =>
    unfold Answers at h
    simp only at h
    cases he : Expression.ofString t with
    | error e =>
      rw [he, error] at h
      exact ⟨t, e, rfl, he, Option.some.inj h.2⟩
    | ok e =>
      rw [he] at h
      rw [h.1] at error
      cases error

namespace Window

def Event.types : Event → Bool
  | gesture g => g.types
  | poll _ _ => false

def Event.inserts : Event → Bool
  | gesture g => g.inserts
  | poll _ _ => false

/-- A text that goes on with another one, which is empty if nothing is inserted. -/
def GoesOn (s t : String) (inserts : Bool) : Prop :=
  ∃ more, t.toList = s.toList ++ more ∧ (inserts = false → more = [])

theorem GoesOn.of_eq {s t : String} (h : t = s) (inserts : Bool) : GoesOn s t inserts :=
  ⟨[], by rw [h, List.append_nil], fun _ => rfl⟩

theorem GoesOn.trans {s t u : String} {i j : Bool} (h : GoesOn s t i) (h' : GoesOn t u j) :
    GoesOn s u (i || j) := by
  obtain ⟨more, text, nothing⟩ := h
  obtain ⟨more', text', nothing'⟩ := h'
  refine ⟨more ++ more', by rw [text', text, List.append_assoc], fun edits => ?_⟩
  obtain ⟨first, second⟩ := Bool.or_eq_false_iff.mp edits
  rw [nothing first, nothing' second]
  rfl

/-- One more event behind some. -/
theorem GoesOn.concat {s t u : String} {ws : List Event} {e : Event}
    (h : ws.any Event.types = false → GoesOn s t (ws.any Event.inserts))
    (next : e.types = false → GoesOn t u e.inserts)
    (typed : (ws ++ [e]).any Event.types = false) :
    GoesOn s u ((ws ++ [e]).any Event.inserts) := by
  rw [List.any_append, List.any_cons, List.any_nil, Bool.or_false] at typed ⊢
  obtain ⟨first, last⟩ := Bool.or_eq_false_iff.mp typed
  exact (h first).trans (next last)

theorem GoesOn.eq {s t : String} (h : GoesOn s t false) : t = s := by
  obtain ⟨more, text, nothing⟩ := h
  rw [nothing rfl, List.append_nil] at text
  exact String.toList_inj.mp text

variable {w : Window} {g : Gesture}

theorem entry_draw (w : Window) : w.draw.session.entry = w.session.entry := by
  rw [session_draw]

theorem entry_press {s : Session} {b : Button} (h : buttonTurn s b ≠ .clears) :
    GoesOn s.entry (press s b).entry b.inserts := by
  cases b with
  | clearEntry | clearResults | reset => exact absurd rfl h
  | evaluate => exact .of_eq s.entry_evaluate _
  | symbol c => exact ⟨[c], by simp [press], by simp [Button.inserts]⟩
  | function name => exact ⟨name.toList ++ ['('], by simp [press], by simp [Button.inserts]⟩
  | fold => exact .of_eq rfl _
  | mode m =>
    simp only [press]
    split
    · exact .of_eq rfl _
    · exact .of_eq (Session.entry_evaluate _) _

theorem entry_store (s : Session) (field : Field) (v : Float) :
    (store s field v).entry = s.entry := by
  unfold store
  simp only
  split
  · rfl
  · rw [Session.entry_evaluate, entry_set]

/-- Apart from typing and clearing, the entry only grows, and only by an insertion. -/
theorem entry_perform (turn : w.turn g ≠ .clears) (typed : g.types = false) :
    GoesOn w.session.entry (w.perform g).1.session.entry g.inserts := by
  have drawn := w.entry_draw
  cases g with
  | type text => cases typed
  | click label =>
    simp only [perform, Gesture.inserts, Window.turn] at turn ⊢
    cases hb : Button.ofLabel? label with
    | none => exact .of_eq drawn _
    | some b =>
      obtain ⟨visible, pressed, -⟩ := w.button_draw b
      simp only [hb, visible] at turn ⊢
      split
      · next shown =>
        rw [if_pos shown, ← pressed] at turn
        rw [← drawn]
        exact entry_press turn
      · exact .of_eq drawn _
  | enter field v =>
    refine .of_eq ?_ _
    simp only [perform]
    split
    · split
      · rw [entry_store, drawn]
      · exact drawn
    · rfl
  | escapeKey => exact absurd rfl turn
  | enterKey control =>
    refine .of_eq ?_ _
    simp only [perform]
    split
    · split
      · rw [Session.entry_evaluate, drawn]
      · exact drawn
    · exact drawn
  | await =>
    refine .of_eq ?_ _
    simp only [perform, Session.await]
    split
    · rfl
    · exact w.session.entry_poll _ _
  | look => exact .of_eq drawn _

/-- A gesture that evaluates edits nothing. -/
theorem entry_of_evaluates (h : w.turn g = .evaluates) :
    (w.perform g).1.session.entry = w.session.entry := by
  have turn : w.turn g ≠ .clears := by
    rw [h]
    exact Turn.noConfusion
  have edits : g.types = false ∧ g.inserts = false := by
    cases g with
    | type text => cases h
    | click label =>
      simp only [Window.turn, Gesture.inserts] at h ⊢
      cases hb : Button.ofLabel? label with
      | none => exact ⟨rfl, rfl⟩
      | some b =>
        simp only [hb] at h
        split at h
        · cases b with
          | symbol | function => cases h
          | clearEntry | clearResults | reset | evaluate | fold | mode => exact ⟨rfl, rfl⟩
        · cases h
    | enter | escapeKey | enterKey | await | look => exact ⟨rfl, rfl⟩
  have same := entry_perform turn edits.1
  rw [edits.2] at same
  exact same.eq

theorem entry_poll (w : Window) (finished : Bool) (report : Nat) :
    (w.poll finished report).session.entry = w.session.entry := by
  unfold poll
  split
  · rfl
  · exact w.session.entry_poll _ _

/-! ## The last evaluation -/

theorem Watched.run_concat (es : List Event) (e : Event) :
    Watched.run (es ++ [e]) = (Watched.run es).observe e :=
  List.foldl_append

theorem Watched.run_behind (us ws : List Event) (e e' : Event) :
    Watched.run (us ++ e :: (ws ++ [e'])) = (Watched.run (us ++ e :: ws)).observe e' := by
  rw [← run_concat, List.append_assoc, List.cons_append]

/-- The gesture `g` behind the events `us` evaluates the entry, and it is the last one that does:
of the events behind it, no gesture evaluates or clears. -/
inductive LastEvaluated (us : List Event) (g : Gesture) : List Event → Prop where
  | now (evaluates : (Watched.run us).window.turn g = .evaluates) : LastEvaluated us g []
  | gesture {ws g'} (since : LastEvaluated us g ws)
      (keeps : (Watched.run (us ++ .gesture g :: ws)).window.turn g' = .keeps) :
      LastEvaluated us g (ws ++ [.gesture g'])
  | poll {ws} (since : LastEvaluated us g ws) (finished : Bool) (report : Nat) :
      LastEvaluated us g (ws ++ [.poll finished report])

namespace LastEvaluated

variable {us ws : List Event}

/-- The text last evaluated is the entry in front of the gesture. -/
theorem text (h : LastEvaluated us g ws) :
    (Watched.run (us ++ .gesture g :: ws)).text = some (Watched.run us).window.session.entry := by
  induction h with
  | now evaluates =>
    rw [Watched.run_concat]
    simp only [Watched.observe, evaluates, Turn.text]
  | gesture since keeps ih =>
    rw [Watched.run_behind]
    simp only [Watched.observe, keeps, Turn.text, ih]
  | poll since finished report ih =>
    rw [Watched.run_behind]
    exact ih

/-- Unless something is typed, the entry goes on with the text last evaluated. -/
theorem entry (h : LastEvaluated us g ws) (typed : ws.any Event.types = false) :
    GoesOn (Watched.run us).window.session.entry
      (Watched.run (us ++ .gesture g :: ws)).window.session.entry (ws.any Event.inserts) := by
  induction h with
  | now evaluates =>
    rw [Watched.run_concat]
    exact .of_eq (entry_of_evaluates evaluates) _
  | gesture since keeps ih =>
    rw [Watched.run_behind]
    exact .concat ih (fun last => entry_perform (by simp [keeps]) last) typed
  | poll since finished report ih =>
    rw [Watched.run_behind]
    exact .concat ih (fun _ => .of_eq (entry_poll _ finished report) _) typed

end LastEvaluated

/-- If there is a text last evaluated, a gesture evaluated it. The induction is on the run from its
end. -/
theorem exists_lastEvaluated (es : List Event) {t : String} (h : (Watched.run es).text = some t) :
    ∃ us g ws, es = us ++ .gesture g :: ws ∧ LastEvaluated us g ws := by
  induction es using List.reverseRecOn with
  | nil => cases h
  | append_singleton es e ih =>
    rw [Watched.run_concat] at h
    cases e with
    | poll finished report =>
      obtain ⟨us, g, ws, parts, last⟩ := ih h
      refine ⟨us, g, _, ?_, last.poll finished report⟩
      rw [parts, List.append_assoc, List.cons_append]
    | gesture g' =>
      cases turn : (Watched.run es).window.turn g' with
      | keeps =>
        simp only [Watched.observe, turn, Turn.text] at h
        obtain ⟨us, g, ws, parts, last⟩ := ih h
        rw [parts] at turn
        refine ⟨us, g, _, ?_, last.gesture turn⟩
        rw [parts, List.append_assoc, List.cons_append]
      | clears =>
        simp only [Watched.observe, turn, Turn.text] at h
        cases h
      | evaluates => exact ⟨es, g', [], rfl, .now turn⟩

/-- An error on screen, drawn below the entry, is the one that the text last evaluated is refused
with. The entry is refused with it as well if it was not edited since, or if the error was found at
a character and the entry was edited by insertions only. -/
theorem caret_tells_evaluated (es : List Event) {shown : ShownError}
    (h : (Watched.run es).window.session.error = some shown) :
    errorTexts (Watched.run es).window.session =
        [(Watched.run es).window.session.entry, "".pushn ' ' shown.position ++ "^",
          shown.message] ∧
      (∃ us g ws, es = us ++ .gesture g :: ws ∧ LastEvaluated us g ws) ∧
      ∀ us g ws, es = us ++ .gesture g :: ws → LastEvaluated us g ws →
        ∃ e, Expression.ofString (Watched.run us).window.session.entry = .error e ∧
          shown = ⟨e.message, e.position⟩ ∧
          (ws.any Event.types = false →
            GoesOn (Watched.run us).window.session.entry (Watched.run es).window.session.entry
              (ws.any Event.inserts)) ∧
          (ws.any Event.types = false →
            ws.any Event.inserts = false ∨ e.cause.atCharacter = true →
            Expression.ofString (Watched.run es).window.session.entry = .error e) := by
  have answer : (Watched.run es).window.session.Answers (Watched.run es).text :=
    answers_foldl es ⟨⟨rfl, rfl, rfl, rfl⟩, rfl⟩
  obtain ⟨t, e, text, refused, same⟩ := answer.exists_refused h
  refine ⟨by simp only [errorTexts, h], exists_lastEvaluated es text, ?_⟩
  intro us g ws parts last
  subst parts
  obtain rfl := Option.some.inj (last.text.symm.trans text)
  refine ⟨e, refused, same, last.entry, fun typed edits => ?_⟩
  have goesOn := last.entry typed
  rcases edits with none | place
  · rw [none] at goesOn
    rw [goesOn.eq, refused]
  · obtain ⟨more, entry, -⟩ := goesOn
    rw [Expression.ofString, entry]
    exact Expression.ofChars_append refused place more

/-- A bracket too many, with an operator inserted behind it. -/
def strayBracket : List Event :=
  [.gesture (.type "1)"), .gesture (.click "="), .gesture (.click "+")]

theorem caret_tells_evaluated_stray :
    LastEvaluated [.gesture (.type "1)")] (.click "=") [.gesture (.click "+")] ∧
      ∃ e, (Watched.run strayBracket).window.session.error = some ⟨e.message, e.position⟩ ∧
        errorTexts (Watched.run strayBracket).window.session = ["1)+", " ^", e.message] ∧
        Expression.ofString (Watched.run strayBracket).window.session.entry = .error e := by
  have last : LastEvaluated [.gesture (.type "1)")] (.click "=") [.gesture (.click "+")] :=
    .gesture (.now rfl) rfl
  obtain ⟨drawn, -, tells⟩ := caret_tells_evaluated strayBracket rfl
  obtain ⟨e, refused, same, -, stays⟩ := tells _ _ _ rfl last
  cases refused
  exact ⟨last, _, rfl, drawn, stays rfl (.inr rfl)⟩

/-- An operator without its right operand, and the operand inserted behind it. -/
def lateOperand : List Event :=
  [.gesture (.type "1+"), .gesture (.click "="), .gesture (.click "x"), .gesture .look]

/-- The caret stands below an entry that is an expression: it was found at the end of the text
before. -/
theorem caret_under_edited :
    (Watched.run lateOperand).window.session.error =
        some ⟨SyntaxError.Cause.missingOperand.message, 3⟩ ∧
      errorTexts (Watched.run lateOperand).window.session =
        ["1+x", "   ^", SyntaxError.Cause.missingOperand.message] ∧
      ∃ e, Expression.ofString (Watched.run lateOperand).window.session.entry = .ok e :=
  ⟨rfl, rfl, _, rfl⟩

end Window

end FunctionCalculator
