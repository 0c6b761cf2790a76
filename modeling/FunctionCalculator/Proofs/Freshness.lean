import FunctionCalculator.Proofs.Constant
import FunctionCalculator.Session.Window

/-!
# What is shown answers the text last evaluated

A run is any list of gestures, with looks at the pending task at any moment between them. Beside
the window it keeps the text that was last evaluated, as long as nothing has cleared the window
since. Typing does not change that text: what is shown may answer another text than the entry.

What is proved:
  1. `answers_evaluate`, `Answers.poll`: an evaluation answers the entry, and a look at the task
     keeps the answer.
  2. `Answers.observe`: no gesture leaves an old answer, whether it clears, evaluates or does
     neither.
  3. `always_fresh`: after every run, what is shown answers the text last evaluated, with the mode,
     the bounds and the point as they are then.
-/

namespace FunctionCalculator

namespace Session

/-- Nothing is shown of an expression, and none is worked on. -/
def Blank (s : Session) : Prop :=
  s.result = "" ∧ s.derivation = {} ∧ s.dependsOnX = false ∧ s.task = none

/-- A task is pending, behind a text that holds the place of its result or tells its progress, or
its result is shown. -/
def Follows (s : Session) (t : Task) : Prop :=
  (s.task = some t ∧
      (s.result = Report.waiting ∨ ∃ p ∈ t.solution.progress, s.result = Report.progress p.1 p.2)) ∨
    (s.task = none ∧ s.result = t.solution.text)

/-- An expression is shown, with the options as they are. -/
def Shows (s : Session) (e : Expression) : Prop :=
  s.error = none ∧ s.dependsOnX = e.dependsOnX ∧ s.derivation = e.derivation ∧
    match e.dependsOnX, s.mode with
    | true, .root => s.Follows ⟨e, .root s.a s.b⟩
    | true, .integral => s.Follows ⟨e, .integral s.a s.b⟩
    | _, _ => s.task = none ∧ s.result = Report.value e.dependsOnX (e.value? s.x)

/-- What is shown answers a text; without a text nothing is shown. -/
def Answers (s : Session) : Option String → Prop
  | none => s.Blank ∧ s.error = none
  | some text =>
    match Expression.ofString text with
    | .error e => s.Blank ∧ s.error = some ⟨e.message, e.position⟩
    | .ok e => s.Shows e

/-! ## The operations -/

theorem answers_clearResults (s : Session) : s.clearResults.Answers none :=
  ⟨⟨rfl, rfl, rfl, rfl⟩, rfl⟩

/-- Neither the entry nor the wish for the keyboard matters to what is shown. -/
theorem Answers.relabel {s : Session} {text : Option String} (h : s.Answers text) (entry : String)
    (wantsFocus : Bool) : { s with entry, wantsFocus }.Answers text :=
  h

/-- An expression that depends on the variable goes to a task, unless its value is asked for. -/
theorem shows_evaluate {s : Session} {e : Expression} (he : Expression.ofString s.entry = .ok e) :
    s.evaluate.Shows e := by
  simp only [evaluate, he, request?, Shows]
  cases hx : e.dependsOnX with
  | false =>
    have constant := Expression.value?_of_not_dependsOnX he hx 0 s.x
    simp [setResult, constant]
  | true =>
    cases hm : s.mode with
    | root => exact ⟨rfl, rfl, rfl, .inl ⟨rfl, .inl rfl⟩⟩
    | integral => exact ⟨rfl, rfl, rfl, .inl ⟨rfl, .inl rfl⟩⟩
    | expression => exact ⟨rfl, rfl, rfl, rfl, rfl⟩

theorem answers_evaluate (s : Session) : s.evaluate.Answers (some s.entry) := by
  cases he : Expression.ofString s.entry with
  | error e =>
    simp only [evaluate, Answers, he]
    exact ⟨⟨rfl, rfl, rfl, rfl⟩, rfl⟩
  | ok e =>
    simp only [Answers, he]
    exact shows_evaluate he

/-! ## Looks at the task -/

/-- What a look at a task may find: its result or none yet, and one of its reports or none. -/
structure Found (t : Task) (finished : Option String) (progress : Option (Nat × Nat)) : Prop where
  result : ∀ u ∈ finished, u = t.solution.text
  report : ∀ p ∈ progress, p ∈ t.solution.progress

variable {s : Session} {t : Task} {finished : Option String} {progress : Option (Nat × Nat)}

theorem Follows.poll {t' : Task} (h : s.Follows t') (ht : s.task = some t)
    (found : Found t finished progress) : (s.poll finished progress).1.Follows t' := by
  rcases h with ⟨ht', shown⟩ | ⟨idle, -⟩
  · obtain rfl : t = t' := Option.some.inj (ht.symm.trans ht')
    simp only [Session.poll, ht]
    cases finished with
    | some u => exact .inr ⟨rfl, found.result u rfl⟩
    | none =>
      cases progress with
      | some p => exact .inl ⟨rfl, .inr ⟨p, found.report p rfl, rfl⟩⟩
      | none => exact .inl ⟨ht, shown⟩
  · rw [ht] at idle
    cases idle

theorem poll_eq (s : Session) (finished : Option String) (progress : Option (Nat × Nat)) :
    ∃ result task, (s.poll finished progress).1 = { s with result, task } := by
  unfold Session.poll
  split
  · exact ⟨_, _, rfl⟩
  · cases finished with
    | some u => exact ⟨_, _, rfl⟩
    | none => cases progress <;> exact ⟨_, _, rfl⟩

theorem Shows.poll {e : Expression} (h : s.Shows e) (ht : s.task = some t)
    (found : Found t finished progress) : (s.poll finished progress).1.Shows e := by
  obtain ⟨error, mark, derivation, shown⟩ := h
  have follows {t'} (h : s.Follows t') := h.poll ht found
  obtain ⟨result, task, same⟩ := s.poll_eq finished progress
  rw [same] at follows ⊢
  refine ⟨error, mark, derivation, ?_⟩
  have idle {P : Prop} (h : s.task = none ∧ P) : False := by
    rw [ht] at h
    cases h.1
  show match e.dependsOnX, s.mode with | true, .root => _ | true, .integral => _ | _, _ => _
  match e.dependsOnX, s.mode, shown with
  | true, .root, shown => exact follows shown
  | true, .integral, shown => exact follows shown
  | true, .expression, shown => exact (idle shown).elim
  | false, _, shown => exact (idle shown).elim

theorem Answers.poll {text : Option String} (h : s.Answers text) (ht : s.task = some t)
    (found : Found t finished progress) : (s.poll finished progress).1.Answers text := by
  have idle (h : s.Blank) : False := by
    obtain ⟨-, -, -, idle⟩ := h
    rw [ht] at idle
    cases idle
  cases text with
  | none => exact (idle h.1).elim
  | some text =>
    unfold Answers at h ⊢
    simp only at h ⊢
    cases he : Expression.ofString text with
    | error e =>
      rw [he] at h
      exact (idle h.1).elim
    | ok e =>
      rw [he] at h
      exact h.poll ht found

end Session

/-! ## Gestures -/

namespace Window

/-- What a gesture does to the answer that is shown. -/
inductive Turn where
  | keeps
  | clears
  | evaluates
  deriving DecidableEq

/-- The text that an answer is for after a turn. -/
def Turn.text (entry : String) (old : Option String) : Turn → Option String
  | keeps => old
  | clears => none
  | evaluates => some entry

/-- The turn of a button: a mode is evaluated if it is a new one. -/
def buttonTurn (s : Session) : Button → Turn
  | .clearEntry | .clearResults | .reset => .clears
  | .evaluate => .evaluates
  | .mode m => if m = s.mode then .keeps else .evaluates
  | .symbol _ | .function _ | .fold => .keeps

/-- The turn of a gesture: a button or a field must be on screen, a number must be a new one, and
the enter key must find the keyboard at the entry. -/
def turn (w : Window) : Gesture → Turn
  | .click label =>
    match Button.ofLabel? label with
    | some b => if shows w.session b then buttonTurn w.session b else .keeps
    | none => .keeps
  | .enter field v =>
    if field ∈ w.session.mode.fields ∧ w.session.dependsOnX = true ∧
        (clamp v == field.get w.session) = false then .evaluates
    else .keeps
  | .escapeKey => .clears
  | .enterKey control => if control && w.draw.hasKeyboard then .evaluates else .keeps
  | .type _ | .await | .look => .keeps

variable {w : Window} {text : Option String}

theorem draw_eq (w : Window) : ∃ wantsFocus hasKeyboard,
    w.draw = { w with session := { w.session with wantsFocus }, hasKeyboard } := by
  unfold draw
  split
  · exact ⟨_, _, rfl⟩
  · exact ⟨_, _, rfl⟩

theorem answers_draw (h : w.session.Answers text) : w.draw.session.Answers text := by
  obtain ⟨focus, keyboard, same⟩ := w.draw_eq
  rw [same]
  exact h.relabel _ focus

theorem answers_press {s : Session} (h : s.Answers text) (b : Button) :
    (press s b).Answers ((buttonTurn s b).text s.entry text) := by
  cases b with
  | clearEntry => exact { s with entry := "" }.answers_clearResults
  | clearResults => exact s.answers_clearResults
  | reset => exact ⟨⟨rfl, rfl, rfl, rfl⟩, rfl⟩
  | evaluate => exact s.answers_evaluate
  | symbol c => exact h.relabel _ true
  | function name => exact h.relabel _ true
  | fold => exact h
  | mode m =>
    simp only [press, buttonTurn]
    split
    · exact h
    · exact { s with mode := m }.answers_evaluate

theorem entry_set (s : Session) (field : Field) (v : Float) : (field.set s v).entry = s.entry := by
  cases field <;> rfl

theorem answers_store {s : Session} (h : s.Answers text) (field : Field) (v : Float) :
    (store s field v).Answers (if clamp v == field.get s then text else some s.entry) := by
  unfold store
  simp only
  split
  · exact h
  · have := (field.set s (clamp v)).answers_evaluate
    rwa [entry_set] at this

theorem answers_await {s : Session} (h : s.Answers text) : s.await.Answers text := by
  unfold Session.await
  split
  · exact h
  · next t ht =>
    exact h.poll ht ⟨fun u hu => (Option.some.inj hu).symm, fun p hp => nomatch hp⟩

/-- Whether drawing has come first does not matter to a button. -/
theorem button_draw (w : Window) (b : Button) : shows w.draw.session b = shows w.session b ∧
    buttonTurn w.draw.session b = buttonTurn w.session b ∧
      w.draw.session.entry = w.session.entry := by
  obtain ⟨focus, keyboard, same⟩ := w.draw_eq
  rw [same]
  exact ⟨by cases b <;> rfl, by cases b <;> rfl, rfl⟩

/-- Nor to a field. -/
theorem field_draw (w : Window) (field : Field) :
    w.draw.session.dependsOnX = w.session.dependsOnX ∧
      field.get w.draw.session = field.get w.session ∧
        w.draw.session.entry = w.session.entry := by
  obtain ⟨focus, keyboard, same⟩ := w.draw_eq
  rw [same]
  exact ⟨rfl, by cases field <;> rfl, rfl⟩

theorem answers_click (h : w.session.Answers text) (label : String) :
    (w.perform (.click label)).1.session.Answers
      ((w.turn (.click label)).text w.session.entry text) := by
  have drawn := answers_draw h
  simp only [perform, turn]
  cases Button.ofLabel? label with
  | none => exact drawn
  | some b =>
    obtain ⟨visible, turn, entry⟩ := w.button_draw b
    simp only [visible]
    split
    · rw [← turn, ← entry]
      exact answers_press drawn b
    · exact drawn

theorem answers_enter (h : w.session.Answers text) (field : Field) (v : Float) :
    (w.perform (.enter field v)).1.session.Answers
      ((w.turn (.enter field v)).text w.session.entry text) := by
  have drawn := answers_draw h
  obtain ⟨visible, number, entry⟩ := w.field_draw field
  have stored := answers_store drawn field v
  rw [number, entry] at stored
  simp only [perform, turn, visible]
  by_cases needed : field ∈ w.session.mode.fields
  · by_cases depends : w.session.dependsOnX = true
    · cases same : clamp v == field.get w.session <;>
        simpa [needed, depends, same, Turn.text] using stored
    · simpa [needed, depends, Turn.text] using drawn
  · simpa [needed, Turn.text] using h

theorem answers_enterKey (h : w.session.Answers text) (control : Bool) :
    (w.perform (.enterKey control)).1.session.Answers
      ((w.turn (.enterKey control)).text w.session.entry text) := by
  have drawn := answers_draw h
  have evaluated := w.draw.session.answers_evaluate
  rw [(w.field_draw .x).2.2] at evaluated
  simp only [perform, turn]
  cases control with
  | false => exact drawn
  | true =>
    cases keyboard : w.draw.hasKeyboard with
    | false => simpa [keyboard, Turn.text] using drawn
    | true => simpa [keyboard, Turn.text] using evaluated

/-- A gesture keeps the answer, clears it, or gives a new one. -/
theorem answers_perform (h : w.session.Answers text) (g : Gesture) :
    (w.perform g).1.session.Answers ((w.turn g).text w.session.entry text) := by
  cases g with
  | type entry => exact h.relabel entry _
  | click label => exact answers_click h label
  | enter field v => exact answers_enter h field v
  | escapeKey =>
    exact answers_draw (w := { w.draw with session := _ }) (Session.answers_clearResults _)
  | enterKey control => exact answers_enterKey h control
  | await => exact answers_await h
  | look => exact answers_draw h

/-! ## Runs -/

/-- What happens to a window: the user does something, or the window looks at the pending task.
The task may be finished by then, and if not, any of its reports may be the last one. -/
inductive Event where
  | gesture (g : Gesture)
  | poll (finished : Bool) (report : Nat)

def poll (w : Window) (finished : Bool) (report : Nat) : Window :=
  match w.session.task with
  | none => w
  | some t =>
    { w with
      session := (w.session.poll (if finished then some t.solution.text else none)
        t.solution.progress[report]?).1 }

/-- A window and the text last evaluated, unless it was cleared since. -/
structure Watched where
  window : Window := {}
  text : Option String := none

def Watched.observe (k : Watched) : Event → Watched
  | .gesture g =>
    { window := (k.window.perform g).1
      text := (k.window.turn g).text k.window.session.entry k.text }
  | .poll finished report => { k with window := k.window.poll finished report }

def Watched.run (es : List Event) : Watched := es.foldl Watched.observe {}

theorem answers_poll (h : w.session.Answers text) (finished : Bool) (report : Nat) :
    (w.poll finished report).session.Answers text := by
  unfold poll
  split
  · exact h
  · next t ht =>
    refine h.poll ht ⟨fun u hu => ?_, fun p hp => List.mem_of_getElem? hp⟩
    cases finished with
    | false => cases hu
    | true => exact (Option.some.inj hu).symm

theorem answers_observe {k : Watched} (h : k.window.session.Answers k.text) (e : Event) :
    (k.observe e).window.session.Answers (k.observe e).text := by
  cases e with
  | gesture g => exact answers_perform h g
  | poll finished report => exact answers_poll h finished report

theorem answers_foldl (es : List Event) {k : Watched} (h : k.window.session.Answers k.text) :
    (es.foldl Watched.observe k).window.session.Answers (es.foldl Watched.observe k).text := by
  induction es generalizing k with
  | nil => exact h
  | cons e es ih => exact ih (answers_observe h e)

/-- After every run, what is shown answers the text that was last evaluated, with the options as
they are then; nothing is shown if the window was cleared since, or nothing was evaluated yet. -/
theorem always_fresh (es : List Event) :
    (Watched.run es).window.session.Answers (Watched.run es).text := by
  have initial : ({} : Watched).window.session.Answers ({} : Watched).text :=
    ⟨⟨rfl, rfl, rfl, rfl⟩, rfl⟩
  exact answers_foldl es initial

end Window

end FunctionCalculator
