import FunctionCalculator.Proofs.Changes

/-!
# The enter key

In a frame the entry is drawn, the keyboard is granted if the entry asks for it, and only then the
enter key is looked at. An entry that has the keyboard gives it up at a plain enter while it is
drawn, and keeps it if control is held. So a plain enter finds an entry with the keyboard only in a
frame that has just granted it.

What is proved:
  1. `frame_none`, `perform_enterKey`: a frame without the key draws the window, and the gesture of
     the key is such a frame and one with the key.
  2. `session_frame_some`: in which frames the key evaluates.
  3. `enter_evaluates_iff`: if the entry has the keyboard, the key does what the button does exactly
     if control is held or the entry asks for the keyboard once more. Else nothing happens.
  4. `plain_enter_ignored`: the entry has the keyboard, and a plain enter does not evaluate it.
-/

namespace FunctionCalculator

namespace Window

/-- The entry as it is drawn: a plain enter takes the keyboard from it, and its wish is granted. -/
def drawn (w : Window) (enter : Option Bool) : Window :=
  (if enter = some false then { w with hasKeyboard := false } else w).draw

/-- One frame, in which the enter key is pressed or not, with control held or not. -/
def frame (w : Window) (enter : Option Bool) : Window :=
  let w := w.drawn enter
  if enter.isSome && w.hasKeyboard then { w with session := w.session.evaluate } else w

/-! ## Frames -/

theorem draw_of_not_wantsFocus {w : Window} (h : w.session.wantsFocus = false) : w.draw = w :=
  if_neg (Bool.eq_false_iff.mp h)

theorem wantsFocus_draw (w : Window) : w.draw.session.wantsFocus = false := by
  rw [session_draw]

theorem hasKeyboard_draw (w : Window) :
    w.draw.hasKeyboard = (w.hasKeyboard || w.session.wantsFocus) := by
  cases h : w.session.wantsFocus with
  | true => simp [draw, h]
  | false => rw [draw_of_not_wantsFocus h, Bool.or_false]

theorem session_drawn (w : Window) (enter : Option Bool) :
    (w.drawn enter).session = w.draw.session := by
  rw [drawn, session_draw, session_draw]
  split <;> rfl

theorem hasKeyboard_drawn (w : Window) (control : Bool) :
    (w.drawn (some control)).hasKeyboard = (w.hasKeyboard && control || w.session.wantsFocus) := by
  rw [drawn, hasKeyboard_draw]
  cases control <;> simp

theorem frame_none (w : Window) : w.frame none = w.draw := rfl

/-- The key evaluates if the entry asks for the keyboard, or has it while control is held. -/
theorem session_frame_some (w : Window) (control : Bool) :
    (w.frame (some control)).session =
      if w.hasKeyboard && control || w.session.wantsFocus then w.draw.session.evaluate
      else w.draw.session := by
  simp only [frame, Option.isSome_some, Bool.true_and, hasKeyboard_drawn]
  split
  · exact congrArg Session.evaluate (w.session_drawn _)
  · exact w.session_drawn _

/-- A plain enter that comes without a wish for the keyboard takes it away, and that is all. -/
theorem frame_plain {w : Window} (h : w.session.wantsFocus = false) :
    w.frame (some false) = { w with hasKeyboard := false } := by
  have drawn : w.drawn (some false) = { w with hasKeyboard := false } :=
    draw_of_not_wantsFocus (w := { w with hasKeyboard := false }) h
  simp [frame, drawn]

/-- An evaluation makes the entry ask for the keyboard, so it cannot be mistaken for none. -/
theorem session_frame_some_iff {w : Window} (focused : w.hasKeyboard = true) (control : Bool) :
    (w.frame (some control)).session = w.draw.session.evaluate ↔
      control = true ∨ w.session.wantsFocus = true := by
  have evaluates : w.draw.session ≠ w.draw.session.evaluate := by
    intro same
    have wish := congrArg Session.wantsFocus same
    rw [wantsFocus_draw, Session.wantsFocus_evaluate] at wish
    cases wish
  rw [session_frame_some, focused, Bool.true_and, ← Bool.or_eq_true]
  split
  · next condition => exact iff_of_true rfl condition
  · next condition => exact iff_of_false evaluates condition

/-! ## The gesture and the button -/

theorem perform_enterKey (w : Window) (control : Bool) :
    w.perform (.enterKey control) = ((w.frame none).frame (some control), true) := by
  have quiet := w.wantsFocus_draw
  rw [frame_none]
  cases control with
  | true =>
    have drawn : w.draw.drawn (some true) = w.draw := draw_of_not_wantsFocus quiet
    by_cases keyboard : w.draw.hasKeyboard = true <;> simp [perform, frame, drawn, keyboard]
  | false =>
    rw [frame_plain quiet]
    rfl

theorem session_click_evaluate (w : Window) :
    (w.perform (.click "=")).1.session = w.draw.session.evaluate := by
  have button : Button.ofLabel? "=" = some .evaluate := by decide
  simp only [perform, button]
  rfl

/-- The entry has the keyboard. In the frame in which it is pressed, the key does to the session
what the button does if control is held or the entry asks for the keyboard once more; else it takes
the keyboard away and does nothing. A gesture comes with no such wish, as the window is drawn in
front of it, so there the key evaluates exactly if control is held. -/
theorem enter_evaluates_iff (w : Window) (control : Bool) (focused : w.hasKeyboard = true) :
    ((w.frame (some control)).session = (w.perform (.click "=")).1.session ↔
        control = true ∨ w.session.wantsFocus = true) ∧
      (control = false → w.session.wantsFocus = false →
        w.frame (some control) = { w with hasKeyboard := false }) ∧
      ((w.perform (.enterKey control)).1.session = (w.perform (.click "=")).1.session ↔
        control = true) ∧
      (control = false →
        (w.perform (.enterKey control)).1 = { w.draw with hasKeyboard := false }) := by
  have quiet := w.wantsFocus_draw
  have again : w.draw.draw = w.draw := draw_of_not_wantsFocus quiet
  have focused' : w.draw.hasKeyboard = true := by rw [hasKeyboard_draw, focused, Bool.true_or]
  rw [session_click_evaluate, perform_enterKey, frame_none]
  refine ⟨session_frame_some_iff focused control, ?_, ?_, ?_⟩
  · rintro rfl quiet
    exact frame_plain quiet
  · have second := session_frame_some_iff focused' control
    rw [again, quiet] at second
    rw [second]
    exact or_iff_left Bool.false_ne_true
  · rintro rfl
    exact frame_plain quiet

/-- A sum is typed into the entry, which is given the keyboard at the start. -/
def typedSum : Window := (Watched.run [.gesture (.type "1+1"), .gesture .look]).window

theorem enter_evaluates_iff_sum :
    typedSum.hasKeyboard = true ∧
      ((typedSum.perform (.enterKey true)).1.session = (typedSum.perform (.click "=")).1.session ∧
        (typedSum.perform (.click "=")).1.session.result = "f ≈ 2.00") ∧
      typedSum.frame (some false) = { typedSum with hasKeyboard := false } := by
  have focused : typedSum.hasKeyboard = true := rfl
  obtain ⟨-, -, held, -⟩ := enter_evaluates_iff typedSum true focused
  obtain ⟨-, plain, -, -⟩ := enter_evaluates_iff typedSum false focused
  exact ⟨focused, ⟨held.mpr rfl, by decide +kernel⟩, plain rfl rfl⟩

/-- The entry has the keyboard, but a plain enter shows no result where the button shows one. -/
theorem plain_enter_ignored :
    typedSum.hasKeyboard = true ∧
      (typedSum.perform (.enterKey false)).1.session.result = "" ∧
      (typedSum.perform (.click "=")).1.session.result = "f ≈ 2.00" := by
  refine ⟨rfl, rfl, by decide +kernel⟩

end Window

end FunctionCalculator
