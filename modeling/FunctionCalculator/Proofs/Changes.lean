import FunctionCalculator.Proofs.Crew
import FunctionCalculator.Proofs.Freshness

/-!
# Gestures as changes of a session

Whatever the user does, a session changes in three ways only: by a command, by a look at the pending
task, and by the wish for the keyboard, which drawing takes away. The changes of a gesture can be
told from the window in front of it.

What is proved:
  1. `evaluate_of_error`, `evaluate_of_value`, `evaluate_of_request`: the three ends of an
     evaluation. None of them touches the entry or the options (`evaluate_eq`).
  2. `pending_foldl`: a task that is pending behind some changes was pending before, or one of them
     launched it.
  3. `session_perform`: a gesture does to the session what its changes do.
-/

namespace FunctionCalculator

namespace Session

inductive Change where
  | command (c : Command)
  /-- A look at the pending task, with what its two readings find. -/
  | poll (finished : Option String) (progress : Option (Nat × Nat))
  | focus (wanted : Bool)

namespace Change

def run (s : Session) : Change → Session
  | command c => c.run s
  | poll finished progress => (s.poll finished progress).1
  | focus wanted => { s with wantsFocus := wanted }

/-- Whether a change may launch a task. -/
def launches : Change → Bool
  | command c => c.launches
  | _ => false

end Change

variable {s : Session}

theorem evaluate_of_error {e : SyntaxError} (h : Expression.ofString s.entry = .error e) :
    s.evaluate =
      { s with
        wantsFocus := true
        error := some ⟨e.message, e.position⟩
        result := ""
        dependsOnX := false
        derivation := {}
        task := none } := by
  simp only [evaluate, h]
  rfl

theorem evaluate_of_value {e : Expression} (h : Expression.ofString s.entry = .ok e)
    (hr : s.request? e = none) :
    s.evaluate =
      { s with
        wantsFocus := true
        error := none
        result := Report.value e.dependsOnX (e.value? (if e.dependsOnX then s.x else 0))
        dependsOnX := e.dependsOnX
        derivation := e.derivation
        task := none } := by
  have request : { s with wantsFocus := true }.request? e = none := hr
  simp only [evaluate, h, request]
  rfl

theorem evaluate_of_request {e : Expression} {r : Request}
    (h : Expression.ofString s.entry = .ok e) (hr : s.request? e = some r) :
    s.evaluate =
      { s with
        wantsFocus := true
        error := none
        result := Report.waiting
        dependsOnX := e.dependsOnX
        derivation := e.derivation
        task := some ⟨e, r⟩ } := by
  have request : { s with wantsFocus := true }.request? e = some r := hr
  simp only [evaluate, h, request]
  rfl

/-- No evaluation touches the entry or the options, and each asks for the keyboard. -/
theorem evaluate_eq (s : Session) :
    ∃ error result dependsOnX derivation task,
      s.evaluate =
        { s with wantsFocus := true, error, result, dependsOnX, derivation, task } := by
  cases h : Expression.ofString s.entry with
  | error e => exact ⟨_, _, _, _, _, evaluate_of_error h⟩
  | ok e =>
    cases hr : s.request? e with
    | none => exact ⟨_, _, _, _, _, evaluate_of_value h hr⟩
    | some r => exact ⟨_, _, _, _, _, evaluate_of_request h hr⟩

theorem entry_evaluate (s : Session) : s.evaluate.entry = s.entry := by
  obtain ⟨_, _, _, _, _, same⟩ := s.evaluate_eq
  rw [same]

theorem wantsFocus_evaluate (s : Session) : s.evaluate.wantsFocus = true := by
  obtain ⟨_, _, _, _, _, same⟩ := s.evaluate_eq
  rw [same]

theorem entry_poll (s : Session) (finished : Option String) (progress : Option (Nat × Nat)) :
    (s.poll finished progress).1.entry = s.entry := by
  obtain ⟨result, task, same⟩ := s.poll_eq finished progress
  rw [same]

/-- A look at the task keeps it or takes its result. -/
theorem task_poll (s : Session) (finished : Option String) (progress : Option (Nat × Nat)) :
    (s.poll finished progress).1.task = none ∨ (s.poll finished progress).1.task = s.task := by
  cases ht : s.task with
  | none => exact .inl (by simp [poll, ht])
  | some t => cases finished <;> cases progress <;> simp [poll, ht]

theorem task_run (s : Session) {c : Change} (h : c.launches = false) :
    (c.run s).task = none ∨ (c.run s).task = s.task := by
  cases c with
  | command c => exact Command.task_run s h
  | poll finished progress => exact s.task_poll finished progress
  | focus wanted => exact .inr rfl

/-- The tasks that changes launch on their way. -/
def launched (s : Session) : List Change → List Task
  | [] => []
  | c :: cs => (if c.launches then (c.run s).task.toList else []) ++ launched (c.run s) cs

/-- A task that is pending behind some changes was pending before, or was launched by them. -/
theorem pending_foldl (s : Session) (cs : List Change) {t : Task}
    (h : t ∈ (cs.foldl Change.run s).task) : t ∈ s.task ∨ t ∈ s.launched cs := by
  induction cs generalizing s with
  | nil => exact .inl h
  | cons c cs ih =>
    rw [launched, List.mem_append]
    rcases ih (c.run s) h with pending | later
    · cases hc : c.launches with
      | true => exact .inr (.inl (by simpa using pending))
      | false =>
        rcases s.task_run hc with dropped | kept
        · rw [dropped] at pending
          cases pending
        · exact .inl (kept ▸ pending)
    · exact .inr (.inr later)

end Session

/-! ## Gestures -/

namespace Window

open Session (Change)

def buttonChanges (s : Session) : Button → List Change
  | .clearEntry => [.command .clearEntry]
  | .clearResults => [.command .clearResults]
  | .reset => [.command .reset]
  | .evaluate => [.command .evaluate]
  | .symbol c => [.command (.type (s.entry.push c)), .focus true]
  | .function name => [.command (.type (s.entry ++ name ++ "(")), .focus true]
  | .fold => []
  | .mode m => if m = s.mode then [] else [.command (.setMode m), .command .evaluate]

def fieldCommand (s : Session) (v : Float) : Field → Session.Command
  | .a => .setInterval v s.b
  | .b => .setInterval s.a v
  | .x => .setX v

def fieldChanges (s : Session) (field : Field) (v : Float) : List Change :=
  if clamp v == field.get s then []
  else [.command (fieldCommand s (clamp v) field), .command .evaluate]

/-- The changes that a gesture makes. All but typing and waiting find the window drawn. -/
def changes (w : Window) : Gesture → List Change
  | .type text => [.command (.type text)]
  | .click label =>
    .focus false ::
      match Button.ofLabel? label with
      | some b => if shows w.session b then buttonChanges w.session b else []
      | none => []
  | .enter field v =>
    if field ∈ w.session.mode.fields then
      .focus false :: if w.session.dependsOnX then fieldChanges w.session field v else []
    else []
  | .escapeKey => [.focus false, .command .clearEntry, .focus false]
  | .enterKey control =>
    .focus false :: if control && w.draw.hasKeyboard then [.command .evaluate] else []
  | .await => (w.session.task.map fun t => .poll (some t.solution.text) none).toList
  | .look => [.focus false]

theorem session_draw (w : Window) :
    w.draw.session = { w.session with wantsFocus := false } := by
  unfold draw
  split
  · rfl
  · next unwanted => rw [← Bool.eq_false_iff.mpr unwanted]

theorem press_eq (s : Session) (b : Button) :
    press s b = (buttonChanges s b).foldl Change.run s := by
  cases b with
  | clearEntry | clearResults | reset | evaluate | symbol | function | fold => rfl
  | mode m =>
    simp only [press, buttonChanges]
    split <;> rfl

theorem store_eq (s : Session) (field : Field) (v : Float) :
    store s field v = (fieldChanges s field v).foldl Change.run s := by
  simp only [store, fieldChanges]
  split
  · rfl
  · cases field <;> rfl

/-- A gesture does to the session what its changes do, one after the other. -/
theorem session_perform (w : Window) (g : Gesture) :
    (w.perform g).1.session = (w.changes g).foldl Change.run w.session := by
  have drawn := w.session_draw
  cases g with
  | type text => rfl
  | click label =>
    simp only [perform, changes, List.foldl_cons]
    cases Button.ofLabel? label with
    | none => exact drawn
    | some b =>
      obtain ⟨visible, -, -⟩ := w.button_draw b
      have pressed : buttonChanges w.draw.session b = buttonChanges w.session b := by
        rw [drawn]
        cases b <;> rfl
      simp only [visible]
      split
      · rw [click, press_eq, pressed, drawn]
        rfl
      · exact drawn
  | enter field v =>
    obtain ⟨visible, number, -⟩ := w.field_draw field
    have stored : fieldChanges w.draw.session field v = fieldChanges w.session field v := by
      rw [fieldChanges, number, fieldChanges, drawn]
      cases field <;> rfl
    simp only [perform, changes, visible]
    split
    · split
      · rw [store_eq, stored, drawn]
        rfl
      · exact drawn
    · rfl
  | escapeKey =>
    simp only [perform, session_draw]
    rfl
  | enterKey control =>
    simp only [perform, changes]
    cases control with
    | false => exact drawn
    | true =>
      cases w.draw.hasKeyboard with
      | false => exact drawn
      | true =>
        simp only [drawn, Bool.and_self, if_true]
        rfl
  | await =>
    simp only [perform, changes, Session.await]
    cases w.session.task <;> rfl
  | look => exact drawn

end Window

end FunctionCalculator
