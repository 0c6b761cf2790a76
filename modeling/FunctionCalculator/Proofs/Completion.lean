import FunctionCalculator.Proofs.Recognition

/-!
# Beginnings of readable texts

What is proved:
  1. `View.exists_finish_completion`: from wherever the automaton stands, an operand or an argument
     where one is due and the closing brackets that are missing lead to a good end.
  2. `completable_iff`: a text can be completed exactly if the automaton runs through it. So the
     first character that the automaton refuses is the first behind which no text helps.
-/

namespace FunctionCalculator.Lexeme

def Readable (s : List Char) : Prop := ∃ r, Reading.ofChars s = .ok r

/-- A text that is read if a suitable text is put behind it. -/
def Completable (u : List Char) : Prop := ∃ t, Readable (u ++ t)

theorem readable_iff {s : List Char} : Readable s ↔ ∃ a, View.read (Text.shown s) = some a := by
  have texts := texts_ofChars s
  constructor
  · rintro ⟨r, hr⟩
    rw [hr] at texts
    exact ⟨_, texts.symm⟩
  · rintro ⟨a, ha⟩
    rw [ha] at texts
    cases hr : Reading.ofChars s with
    | ok r => exact ⟨r, hr⟩
    | error e =>
      rw [hr] at texts
      cases texts

/-! ## Completions -/

/-- Behind an operand or in a number: the expression may end here. -/
def State.MayEnd (s : State) : Prop := s.InNumber ∨ s.Closed

/-- A text that brings the expression to a place where it may end. -/
def State.remainder : State → List Char
  | .start => ['1']
  | .name => ['(', '1', ')']
  | .integer | .decimal | .afterBracket | .afterVariable => []

theorem shown_append (u t : List Char) :
    Text.shown (u ++ t) = Text.shown u ++ Text.shown t :=
  List.filter_append u t

namespace View

/-- A text that leads from a view to a good end. -/
def completion (v : View) : List Char := v.state.remainder ++ List.replicate v.depth ')'

theorem finish_of_mayEnd {v : View} (hs : v.state.MayEnd) (hd : v.depth = 0) :
    finish v = some (v.texts ++ pending v.buffer, v.dependsOnX) := by
  refine if_pos ⟨hd, ?_, ?_⟩
  · intro start
    rw [start] at hs
    rcases hs with (h | h) | (h | h) <;> cases h
  · intro name
    rw [name] at hs
    rcases hs with (h | h) | (h | h) <;> cases h

theorem mayEnd_of_finish {v : View} {a : List (List Char) × Bool} (h : finish v = some a) :
    v.depth = 0 ∧ v.state.MayEnd := by
  unfold finish at h
  split at h
  · next good =>
    refine ⟨good.1, ?_⟩
    cases hs : v.state with
    | start => exact absurd hs good.2.1
    | name => exact absurd hs good.2.2
    | integer => exact .inl (.inl rfl)
    | decimal => exact .inl (.inr rfl)
    | afterBracket => exact .inr (.inl rfl)
    | afterVariable => exact .inr (.inr rfl)
  · cases h

/-- Where the expression may end, an open bracket may be closed. -/
theorem exists_step_closing {v : View} {d : Nat} (hs : v.state.MayEnd) (hd : v.depth = d + 1) :
    ∃ w, Step v ')' w ∧ w.state.MayEnd ∧ w.depth = d := by
  obtain ⟨s, b, _, x, ts⟩ := v
  obtain rfl : _ = d + 1 := hd
  rcases hs with number | closed
  · exact ⟨_, .closeNumber number, .inr (.inl rfl), rfl⟩
  · exact ⟨_, .closeAgain closed, .inr (.inl rfl), rfl⟩

/-- The induction is on the number of brackets that are open. -/
theorem exists_finish_closings {v : View} {d : Nat} (hs : v.state.MayEnd) (hd : v.depth = d) :
    ∃ a, (v.run (List.replicate d ')')).bind finish = some a := by
  induction d generalizing v with
  | zero => exact ⟨_, finish_of_mayEnd hs hd⟩
  | succ d ih =>
    obtain ⟨w, step, ended, depth⟩ := exists_step_closing hs hd
    rw [List.replicate_succ, step.run]
    exact ih ended depth

theorem exists_run_remainder (v : View) :
    ∃ w, v.run v.state.remainder = some w ∧ w.state.MayEnd ∧ w.depth = v.depth := by
  obtain ⟨s, b, d, x, ts⟩ := v
  have here (hs : s.MayEnd) :
      ∃ w, run ⟨s, b, d, x, ts⟩ [] = some w ∧ w.state.MayEnd ∧ w.depth = d := ⟨_, rfl, hs, rfl⟩
  cases s with
  | start => exact ⟨_, (Step.firstDigit (c := '1') (by decide)).run [], .inl (.inl rfl), rfl⟩
  | integer => exact here (.inl (.inl rfl))
  | decimal => exact here (.inl (.inr rfl))
  | afterBracket => exact here (.inr (.inl rfl))
  | afterVariable => exact here (.inr (.inr rfl))
  | name =>
    rw [State.remainder, Step.call.run, (Step.firstDigit (c := '1') (by decide)).run,
      (Step.closeNumber (.inl rfl)).run]
    exact ⟨_, rfl, .inr (.inl rfl), rfl⟩

theorem exists_finish_completion (v : View) : ∃ a, (v.run v.completion).bind finish = some a := by
  obtain ⟨w, reached, ended, depth⟩ := v.exists_run_remainder
  rw [completion, run_append, reached, Option.bind_some, ← depth]
  exact exists_finish_closings ended rfl

theorem shown_completion (v : View) : Text.shown v.completion = v.completion := by
  have remainder : Text.shown v.state.remainder = v.state.remainder := by cases v.state <;> rfl
  have closings : Text.shown (List.replicate v.depth ')') = List.replicate v.depth ')' :=
    List.filter_replicate_of_pos (by decide)
  rw [completion, shown_append, remainder, closings]

end View

/-! ## What can be completed -/

/-- The automaton runs through a text exactly if the text can be completed. -/
theorem completable_iff {u : List Char} :
    Completable u ↔ ∃ v, View.run {} (Text.shown u) = some v := by
  constructor
  · rintro ⟨t, ht⟩
    obtain ⟨a, ha⟩ := readable_iff.mp ht
    rw [View.read, shown_append, View.run_append] at ha
    cases hu : View.run {} (Text.shown u) with
    | none =>
      rw [hu] at ha
      cases ha
    | some v => exact ⟨v, rfl⟩
  · rintro ⟨v, hv⟩
    obtain ⟨a, ha⟩ := v.exists_finish_completion
    refine ⟨v.completion, readable_iff.mpr ⟨a, ?_⟩⟩
    rw [View.read, shown_append, v.shown_completion, View.run_append, hv]
    exact ha

theorem Completable.of_append {u t : List Char} (h : Completable (u ++ t)) : Completable u := by
  obtain ⟨w, hw⟩ := h
  rw [List.append_assoc] at hw
  exact ⟨_, hw⟩

theorem completable_nil : Completable [] := completable_iff.mpr ⟨{}, rfl⟩

/-- A name is completed by an argument, an open bracket by a closing one. -/
example : View.completion ⟨.name, ['s', 'i', 'n'], 1, false, [['(']]⟩ = "(1))".toList := by decide

end FunctionCalculator.Lexeme
