import FunctionCalculator.Proofs.Changes

/-!
# Sessions stay consistent

An act is a gesture, an operation on the session by itself, or a look at the pending task, whatever
that look finds. Acts come in any order and with any numbers, those that are not finite included. A
history is what a list of acts has led to, with every task that was launched on the way.

What is proved:
  1. `Consistent.run`: every change of a session keeps its numbers in their limits, and an error by
     itself.
  2. `sound_extend`: so does every act, and a task that is pending was launched.
  3. `stays_consistent`: all this holds behind every list of acts. Nothing can come to stand beside
     an error by a look, and an evaluation that fails leaves the entry and the options alone.
-/

namespace FunctionCalculator

/-- Both bounds are finite and of limited size. -/
def Request.Fits : Request → Prop
  | root a b | integral a b => Session.Fits a ∧ Session.Fits b

namespace Session

/-- The numbers are in their limits, those of the pending task included, and nothing stands beside
an error. -/
structure Consistent (s : Session) : Prop where
  a : Fits s.a
  b : Fits s.b
  x : Fits s.x
  request : ∀ t ∈ s.task, t.request.Fits
  error : s.error ≠ none → s.Blank

variable {s : Session}

theorem consistent_initial : Consistent {} where
  a := by decide +kernel
  b := by decide +kernel
  x := by decide +kernel
  request := nofun
  error h := absurd rfl h

/-! ## Changes -/

/-- Without an error there is nothing to keep apart. -/
theorem Consistent.shown (h : s.Consistent) {entry result : String} {dependsOnX : Bool}
    {derivation : Derivation} {task : Option Task} {wantsFocus : Bool}
    (request : ∀ t ∈ task, t.request.Fits) :
    Consistent
      { s with error := none, entry, result, dependsOnX, derivation, task, wantsFocus } where
  a := h.a
  b := h.b
  x := h.x
  request := request
  error none := absurd rfl none

/-- An error takes the place of everything else. -/
theorem Consistent.setError (h : s.Consistent) (message : String) (position : Nat) :
    (s.setError message position).Consistent where
  a := h.a
  b := h.b
  x := h.x
  request := nofun
  error _ := ⟨rfl, rfl, rfl, rfl⟩

theorem Consistent.request? (h : s.Consistent) {e : Expression} {r : Request}
    (hr : s.request? e = some r) : r.Fits := by
  unfold Session.request? at hr
  split at hr
  · split at hr
    · cases hr
      exact ⟨h.a, h.b⟩
    · cases hr
      exact ⟨h.a, h.b⟩
    · cases hr
  · cases hr

theorem Consistent.evaluate (h : s.Consistent) : s.evaluate.Consistent := by
  cases he : Expression.ofString s.entry with
  | error e =>
    rw [evaluate_of_error he]
    exact h.setError e.message e.position
  | ok e =>
    cases hr : s.request? e with
    | none =>
      rw [evaluate_of_value he hr]
      exact h.shown nofun
    | some r =>
      rw [evaluate_of_request he hr]
      refine h.shown fun t ht => ?_
      obtain rfl : ⟨e, r⟩ = t := Option.some.inj ht
      exact h.request? hr

theorem Consistent.command (h : s.Consistent) (c : Command) : (c.run s).Consistent := by
  cases c with
  | type entry => exact ⟨h.a, h.b, h.x, h.request, h.error⟩
  | setMode mode => exact ⟨h.a, h.b, h.x, h.request, h.error⟩
  | setInterval a b => exact ⟨fits_bounded a, fits_bounded b, h.x, h.request, h.error⟩
  | setX x => exact ⟨h.a, h.b, fits_bounded x, h.request, h.error⟩
  | evaluate => exact h.evaluate
  | clearEntry => exact h.shown nofun
  | clearResults => exact h.shown nofun
  | reset => exact consistent_initial
  | setError message position => exact h.setError message position
  | setResult result dependsOnX derivation => exact h.shown h.request

/-- No task is pending beside an error, so a look at the task changes nothing there. -/
theorem Consistent.poll_of_error (h : s.Consistent) (he : s.error ≠ none)
    (finished : Option String) (progress : Option (Nat × Nat)) :
    s.poll finished progress = (s, false) := by
  obtain ⟨-, -, -, idle⟩ := h.error he
  unfold Session.poll
  rw [idle]

theorem Consistent.poll (h : s.Consistent) (finished : Option String)
    (progress : Option (Nat × Nat)) : (s.poll finished progress).1.Consistent := by
  cases he : s.error with
  | some e =>
    rw [h.poll_of_error (by simp [he])]
    exact h
  | none =>
    have request : ∀ t ∈ (s.poll finished progress).1.task, t.request.Fits := by
      rcases s.task_poll finished progress with taken | kept
      · rw [taken]
        exact nofun
      · rw [kept]
        exact h.request
    obtain ⟨result, task, same⟩ := s.poll_eq finished progress
    rw [same] at request ⊢
    exact ⟨h.a, h.b, h.x, request, fun shown => absurd he shown⟩

theorem Consistent.run (h : s.Consistent) (c : Change) : (c.run s).Consistent := by
  cases c with
  | command c => exact h.command c
  | poll finished progress => exact h.poll finished progress
  | focus wanted => exact ⟨h.a, h.b, h.x, h.request, h.error⟩

theorem Consistent.foldl (h : s.Consistent) (cs : List Change) :
    (cs.foldl Change.run s).Consistent := by
  induction cs generalizing s with
  | nil => exact h
  | cons c cs ih => exact ih (h.run c)

/-- The bounds of all tasks that changes launch are in their limits, as each of these tasks is
pending right behind its launch. -/
theorem Consistent.launched (h : s.Consistent) (cs : List Change) :
    ∀ t ∈ s.launched cs, t.request.Fits := by
  induction cs generalizing s with
  | nil => exact nofun
  | cons c cs ih =>
    intro t ht
    rw [Session.launched] at ht
    rcases List.mem_append.mp ht with now | later
    · split at now
      · exact (h.run c).request t (by simpa using now)
      · cases now
    · exact ih (h.run c) t later

end Session

namespace Window

/-! ## Acts -/

inductive Act where
  | gesture (g : Gesture)
  /-- An operation on the session by itself, such as the storing of a number that is still being
  dragged. -/
  | command (c : Session.Command)
  /-- A look at the pending task that finds a result, a report, or neither. -/
  | poll (finished : Option String) (progress : Option (Nat × Nat))

def act (w : Window) : Act → Window
  | .gesture g => (w.perform g).1
  | .command c => { w with session := c.run w.session }
  | .poll finished progress => { w with session := (w.session.poll finished progress).1 }

def actChanges (w : Window) : Act → List Session.Change
  | .gesture g => w.changes g
  | .command c => [.command c]
  | .poll finished progress => [.poll finished progress]

theorem session_act (w : Window) (a : Act) :
    (w.act a).session = (w.actChanges a).foldl Session.Change.run w.session := by
  cases a with
  | gesture g => exact w.session_perform g
  | command c => rfl
  | poll finished progress => rfl

/-- A window, and all tasks that were launched for it. -/
structure History where
  window : Window := {}
  launched : List Task := []

namespace History

def extend (h : History) (a : Act) : History :=
  { window := h.window.act a
    launched := h.launched ++ h.window.session.launched (h.window.actChanges a) }

def run (as : List Act) : History := as.foldl extend {}

/-- The session is consistent, and so were all that launched a task. -/
structure Sound (h : History) : Prop where
  session : h.window.session.Consistent
  launched : ∀ t ∈ h.launched, t.request.Fits
  /-- No task is pending that was not launched. -/
  pending : ∀ t ∈ h.window.session.task, t ∈ h.launched

variable {h : History}

theorem sound_initial : Sound {} where
  session := Session.consistent_initial
  launched := nofun
  pending := nofun

theorem sound_extend (sound : h.Sound) (a : Act) : (h.extend a).Sound := by
  have session := h.window.session_act a
  refine ⟨?_, fun t ht => ?_, fun t ht => ?_⟩
  · rw [extend, session]
    exact sound.session.foldl _
  · rcases List.mem_append.mp ht with earlier | now
    · exact sound.launched t earlier
    · exact sound.session.launched _ t now
  · rw [extend, session] at ht
    rcases Session.pending_foldl _ _ ht with pending | now
    · exact List.mem_append_left _ (sound.pending t pending)
    · exact List.mem_append_right _ now

theorem sound_foldl (sound : h.Sound) (as : List Act) : (as.foldl extend h).Sound := by
  induction as generalizing h with
  | nil => exact sound
  | cons a as ih => exact ih (sound_extend sound a)

/-- Behind every list of acts the numbers of the session are in their limits, and so are the bounds
of every task that was ever launched. An error stands by itself, and no look at a task can put
anything beside it; an evaluation that fails shows its error, and leaves the entry, the mode, the
bounds and the point alone. -/
theorem stays_consistent (as : List Act) :
    (run as).Sound ∧
      ((run as).window.session.error ≠ none → ∀ finished progress,
        (run as).window.session.poll finished progress = ((run as).window.session, false)) ∧
      ∀ e, Expression.ofString (run as).window.session.entry = .error e →
        (run as).window.session.evaluate =
          { (run as).window.session with
            wantsFocus := true
            error := some ⟨e.message, e.position⟩
            result := ""
            dependsOnX := false
            derivation := {}
            task := none } := by
  have sound := sound_foldl sound_initial as
  exact ⟨sound, sound.session.poll_of_error, fun e failed => Session.evaluate_of_error failed⟩

/-- The bounds are set to no numbers at all before a task is launched; the task is dropped for an
error, and its result comes too late. -/
def abandoned : List Act :=
  [.command (.setInterval (0 / 0) (1 / 0)), .gesture (.type "x-1"), .gesture (.click "="),
    .gesture (.type "x-"), .gesture (.enterKey true), .poll (some "x ≈ 1.00") none]

theorem stays_consistent_abandoned :
    (run abandoned).launched.map Task.request = [.root 0 0] ∧
      (run abandoned).window.session.error ≠ none ∧ (run abandoned).Sound ∧
      (run abandoned).window.session.poll (some "x ≈ 1.00") none =
        ((run abandoned).window.session, false) ∧
      (run abandoned).window.session.evaluate.entry = "x-" := by
  obtain ⟨sound, alone, failed⟩ := stays_consistent abandoned
  have shown : (run abandoned).window.session.error ≠ none := by decide +kernel
  refine ⟨by decide +kernel, shown, sound, alone shown _ _, ?_⟩
  rw [failed _ rfl]
  rfl

end History

end Window

end FunctionCalculator
