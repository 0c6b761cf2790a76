import FunctionCalculator.Proofs.Completion
import FunctionCalculator.Proofs.PhraseTokens
import Mathlib.Data.List.DropRight
import Mathlib.Order.Bounds.Basic

/-!
# Where and why a text is refused

A text is refused at one of its characters, or at its end. No error is reported before a character
that decides it: the text up to there can still be completed, and no longer with that character.

What is proved:
  1. `exists_stop`: a scan that fails splits the text at a character that the configuration
     reached in front of it refuses; `error_of_advance` is what that refusal says.
  2. `Ending.run`: what the last characters of a text and its brackets tell about the automaton.
  3. `refused_earliest`: the place of a refusal at a character, and all the others.
-/

namespace FunctionCalculator.Lexeme

/-- The error that a text is refused with, if it is refused. -/
def refusal? (s : List Char) : Option SyntaxError :=
  match Reading.ofChars s with
  | .ok _ => none
  | .error e => some e

/-- A text is refused at its character number `p`: a bracket that closes a readable text has no
opening one, and any other character is unexpected. -/
def RefusedAt (s : List Char) (p : Nat) : Prop :=
  ∃ e c, refusal? s = some e ∧ e.position = p ∧ s[p]? = some c ∧
    (c = ')' ∧ Readable (s.take p) ∧ e.cause = .unopened ∨
      ¬ (c = ')' ∧ Readable (s.take p)) ∧ ∃ state, e.cause = .unexpected state c)

/-- The characters of a text up to which it cannot be completed. -/
def deadEnds (s : List Char) : Set Nat := {p | p < s.length ∧ ¬ Completable (s.take (p + 1))}

/-- The letters at the end of a text are a function name: the variable is not their first. -/
def endsInName (u : List Char) : Bool :=
  (u.rtakeWhile isNameLetter).head?.any (· != variableChar)

/-- What is wrong with the end of a text, none of whose characters is wrong. -/
def endRefusal? (s : List Char) : Option SyntaxError :=
  match (Text.visible s).getLast? with
  | none => some ⟨.empty, 0⟩
  | some (c, last) =>
    if s.count ')' < s.count '(' then some ⟨.unclosed (s.count '(' - s.count ')'), last⟩
    else if isOperator c then some ⟨.missingOperand, s.length + 1⟩
    else if endsInName (Text.shown s) then some ⟨.missingArgument, s.length + 1⟩
    else none

/-! ## The character that stops a scan -/

theorem visible_concat (s : List Char) (c : Char) :
    Text.visible (s ++ [c]) =
      Text.visible s ++ if Text.isBlank c then [] else [(c, s.length)] := by
  rw [Text.visible, List.zipIdx_append, List.filter_append, Text.visible]
  cases h : Text.isBlank c <;> simp [h]

theorem shown_concat (s : List Char) (c : Char) :
    Text.shown (s ++ [c]) = Text.shown s ++ if Text.isBlank c then [] else [c] := by
  rw [shown_append]
  cases h : Text.isBlank c <;> simp [Text.shown, h]

namespace Configuration

/-- The induction is on the text from its end: the scan of the text without its last character
fails already, or it is that character that is refused. -/
theorem exists_stop {s : List Char} {stop : Stop} (h : scan {} (Text.visible s) = .error stop) :
    ∃ u c v k, s = u ++ c :: v ∧ Text.isBlank c = false ∧ scan {} (Text.visible u) = .ok k ∧
      k.advance (c, u.length) = .error stop := by
  induction s using List.reverseRecOn with
  | nil => cases h
  | append_singleton s d ih =>
    rw [visible_concat, scan_append] at h
    cases hs : scan {} (Text.visible s) with
    | error stop' =>
      rw [hs] at h
      cases h
      obtain ⟨u, c, v, k, rfl, hc, hk, ha⟩ := ih hs
      exact ⟨u, c, v ++ [d], k, by simp, hc, hk, ha⟩
    | ok k =>
      rw [hs] at h
      cases hd : Text.isBlank d with
      | true =>
        rw [hd] at h
        cases h
      | false =>
        rw [hd] at h
        refine ⟨s, d, [], k, rfl, hd, hs, ?_⟩
        change (k.advance (d, s.length)).bind _ = _ at h
        cases ha : k.advance (d, s.length) with
        | error e =>
          rw [ha] at h
          exact h
        | ok k' =>
          rw [ha] at h
          cases h

/-- Of the effects only the closing of a bracket may fail. -/
theorem error_of_effects {c : Char} {i : Nat} {es : List Effect} {k : Configuration} {stop : Stop}
    (h : es.foldlM (apply c i) k = .error stop) :
    .closeBracket ∈ es ∧ stop.error = ⟨.unopened, i⟩ := by
  induction es generalizing k with
  | nil => cases h
  | cons e es ih =>
    rw [List.foldlM_cons] at h
    cases hk : k.apply c i e with
    | ok k' =>
      rw [hk] at h
      obtain ⟨member, error⟩ := ih h
      exact ⟨List.mem_cons_of_mem e member, error⟩
    | error stop' =>
      rw [hk] at h
      cases h
      cases e with
      | closeBracket =>
        rw [apply] at hk
        split at hk <;> cases hk
        exact ⟨List.mem_cons_self, rfl⟩
      | append | appendPoint | flush | emit | openBracket | markVariable => cases hk

theorem closing_of_row {s : State} {k : CharClass} {t : Transition}
    (ht : Transition.of? s k = some t) (hc : .closeBracket ∈ t.effects) :
    k = .closing ∧ s.MayEnd := by
  unfold Transition.of? at ht
  split at ht <;> cases ht <;> simp at hc
  · exact ⟨rfl, .inl (.inl rfl)⟩
  · exact ⟨rfl, .inl (.inr rfl)⟩
  · exact ⟨rfl, .inr (.inl rfl)⟩
  · exact ⟨rfl, .inr (.inr rfl)⟩

/-- A bracket that may be closed is refused only if none is open. -/
theorem depth_of_error {k : Configuration} {i : Nat} {stop : Stop} (hs : k.state.MayEnd)
    (h : k.advance (')', i) = .error stop) : k.depth = 0 := by
  by_contra open'
  obtain ⟨d, hd⟩ := Nat.exists_eq_succ_of_ne_zero open'
  obtain ⟨w, step, -⟩ := View.exists_step_closing (v := k.view) hs hd
  have seen := k.view_advance (')', i)
  rw [h, step.advance_eq] at seen
  cases seen

/-- A character is refused as the state does not let it pass, or as it closes a bracket and none is
open. -/
theorem error_of_advance {k : Configuration} {c : Char} {i : Nat} {stop : Stop}
    (h : k.advance (c, i) = .error stop) :
    stop.error = ⟨.unexpected k.state c, i⟩ ∧ ¬ (c = ')' ∧ k.state.MayEnd) ∨
      stop.error = ⟨.unopened, i⟩ ∧ c = ')' ∧ k.state.MayEnd ∧ k.depth = 0 := by
  have failure := h
  rw [advance, transition] at h
  cases ht : Transition.of? k.state (CharClass.ofChar c) with
  | none =>
    rw [ht] at h
    cases h
    refine .inl ⟨rfl, ?_⟩
    -- behind an operand the table lets every closing bracket pass
    rintro ⟨rfl, (hs | hs) | (hs | hs)⟩ <;> rw [hs] at ht <;> cases ht
  | some t =>
    rw [ht] at h
    right
    cases he : t.effects.foldlM (apply c i) k with
    | ok k' =>
      simp only [he] at h
      cases h
    | error stop' =>
      simp only [he] at h
      cases h
      obtain ⟨member, error⟩ := error_of_effects he
      obtain ⟨class', ended⟩ := closing_of_row ht member
      obtain rfl : c = ')' := (class' ▸ CharClass.holds_ofChar c : CharClass.closing.Holds c)
      exact ⟨error, rfl, ended, depth_of_error ended failure⟩

end Configuration

/-! ## What the end of a text tells -/

theorem endsInName_letter {u : List Char} {c : Char} (hc : isNameLetter c = true) :
    endsInName (u ++ [c]) = (u.rtakeWhile isNameLetter ++ [c]).head?.any (· != variableChar) := by
  rw [endsInName, List.rtakeWhile_concat_pos _ _ _ hc]

theorem endsInName_other {u : List Char} {c : Char} (hc : isNameLetter c = false) :
    endsInName (u ++ [c]) = false := by
  rw [endsInName, List.rtakeWhile_concat_neg _ _ _ (Bool.eq_false_iff.mp hc)]
  rfl

/-- The characters behind which an operand is due. -/
def IsOpener (c : Char) : Prop := isOperator c = true ∨ c = '('

theorem IsOpener.isNameLetter_eq_false {c : Char} (h : IsOpener c) : isNameLetter c = false := by
  rcases h with h | rfl
  · obtain ⟨o, rfl⟩ := isOperator_iff.mp h
    cases o <;> decide
  · decide

theorem rtakeWhile_opener {u : List Char} (h : ∀ c ∈ u.getLast?, IsOpener c) :
    u.rtakeWhile isNameLetter = [] := by
  rw [List.rtakeWhile_eq_nil_iff]
  intro hu
  rw [(h _ (List.getLast?_eq_some_getLast hu)).isNameLetter_eq_false]
  exact Bool.false_ne_true

/-- What the brackets and the last characters of a text tell about the view it leads to. -/
structure Ending (v : View) (u : List Char) : Prop where
  depth : v.depth + u.count ')' = u.count '('
  start : v.state = .start ↔ ∀ c ∈ u.getLast?, IsOpener c
  name : v.state = .name ↔ endsInName u = true
  opening : u.getLast? = some '(' → v.depth ≠ 0

theorem Ending.concat {v w : View} {c : Char} {u : List Char} (h : Ending v u)
    (depth : w.depth + [c].count ')' = v.depth + [c].count '(')
    (start : w.state = .start ↔ IsOpener c) (name : w.state = .name ↔ endsInName (u ++ [c]) = true)
    (opening : c = '(' → w.depth ≠ 0) : Ending w (u ++ [c]) where
  depth := by
    have := h.depth
    rw [List.count_append, List.count_append]
    omega
  start := by
    rw [start, List.getLast?_concat]
    simp
  name := name
  opening := by
    rw [List.getLast?_concat]
    exact fun hc => opening (Option.some.inj hc)

/-- A character of an operand: it changes no bracket, and is no opener. -/
theorem Ending.inside {v w : View} {c : Char} {u : List Char} (h : Ending v u)
    (hc : IsOperandStart c) (depth : w.depth = v.depth) (start : w.state ≠ .start)
    (name : w.state = .name ↔ endsInName (u ++ [c]) = true) : Ending w (u ++ [c]) := by
  obtain ⟨operator, opening, closing⟩ := hc
  refine h.concat ?_ ?_ name fun hc => absurd hc opening
  · simp [opening, closing, depth]
  · simp [start, IsOpener, operator, opening]

theorem Ending.figure {v w : View} {c : Char} {u : List Char} (h : Ending v u)
    (hc : IsOperandStart c) (letter : isNameLetter c = false) (depth : w.depth = v.depth)
    (hs : w.state.InNumber) : Ending w (u ++ [c]) := by
  refine h.inside hc depth ?_ ?_
  · rcases hs with hs | hs <;> rw [hs] <;> decide
  · rw [endsInName_other letter]
    rcases hs with hs | hs <;> rw [hs] <;> decide

theorem Ending.letter {v w : View} {c : Char} {u : List Char} (h : Ending v u)
    (hc : isNameLetter c = true) (depth : w.depth = v.depth) (start : w.state ≠ .start)
    (name : w.state = .name ↔ endsInName (u ++ [c]) = true) : Ending w (u ++ [c]) :=
  h.inside (isOperandStart_of_isNameLetter hc) depth start name

theorem Ending.operator {v w : View} {u : List Char} (h : Ending v u) (o : Operator)
    (depth : w.depth = v.depth) (hs : w.state = .start) : Ending w (u ++ [o.symbol]) := by
  have opener : IsOpener o.symbol := .inl (isOperator_iff.mpr ⟨o, rfl⟩)
  refine h.concat ?_ ?_ ?_ ?_
  · rw [depth]
    cases o <;> rfl
  · simp [hs, opener]
  · simp [hs, endsInName_other opener.isNameLetter_eq_false]
  · cases o <;> simp [Operator.symbol]

theorem Ending.opens {v w : View} {u : List Char} (h : Ending v u) (depth : w.depth = v.depth + 1)
    (hs : w.state = .start) : Ending w (u ++ ['(']) := by
  refine h.concat ?_ ?_ ?_ ?_
  · simp [depth]
  · simp [hs, IsOpener]
  · simp [hs, endsInName_other (c := '(') (by decide)]
  · simp [depth]

theorem Ending.closes {v w : View} {u : List Char} (h : Ending v u) (depth : v.depth = w.depth + 1)
    (hs : w.state = .afterBracket) : Ending w (u ++ [')']) := by
  refine h.concat ?_ ?_ ?_ ?_
  · simp [depth]
  · simp [hs, IsOpener, isOperator, Operator.ofChar?]
  · simp [hs, endsInName_other (c := ')') (by decide)]
  · simp

theorem Ending.step {v w : View} {c : Char} {u : List Char} (h : Ending v u)
    (step : View.Step v c w) : Ending w (u ++ [c]) := by
  -- behind an opener a letter is the first of its run
  have first {d} (hs : v.state = .start) (hd : isNameLetter d = true) :
      endsInName (u ++ [d]) = (d != variableChar) := by
    rw [endsInName_letter hd, rtakeWhile_opener (h.start.mp hs)]
    simp
  have digit {d} (hd : d.isDigit = true) : isNameLetter d = false := by
    rw [Bool.eq_false_iff]
    intro letter
    rw [CharClass.isDigit_eq_false_of_isNameLetter letter] at hd
    cases hd
  cases step with
  | sign => exact h.operator .minus rfl rfl
  | firstDigit hc => exact h.figure (isOperandStart_of_isDigit hc) (digit hc) rfl (.inl rfl)
  | firstLetter hc hx =>
    refine h.letter hc rfl State.noConfusion ?_
    simp [first rfl hc, hx]
  | var =>
    have hx : isNameLetter variableChar = true := by decide
    refine h.letter hx rfl State.noConfusion ?_
    simp [first rfl hx]
  | group => exact h.opens rfl rfl
  | nextDigit hs hc => exact h.figure (isOperandStart_of_isDigit hc) (digit hc) rfl hs
  | point hc =>
    simp only [isSeparator, Bool.or_eq_true, decide_eq_true_eq] at hc
    rcases hc with rfl | rfl
    · exact h.figure ⟨by decide, by decide, by decide⟩ (by decide) rfl (.inr rfl)
    · exact h.figure ⟨by decide, by decide, by decide⟩ (by decide) rfl (.inr rfl)
  | nextLetter hc =>
    refine h.letter hc rfl State.noConfusion ?_
    -- the run of letters keeps its first one
    have name := h.name.mp rfl
    rw [endsInName, Option.any_eq_true] at name
    obtain ⟨d, hd, hx⟩ := name
    simp [endsInName_letter hc, hd, List.head?_append, bne_iff_ne.mp hx]
  | call => exact h.opens rfl rfl
  | closeNumber => exact h.closes rfl rfl
  | closeAgain => exact h.closes rfl rfl
  | operator hs o => exact h.operator o rfl rfl

theorem Ending.run {v : View} {u : List Char} (h : View.run {} u = some v) : Ending v u := by
  have initial : Ending {} [] := by
    refine ⟨rfl, ?_, ?_, ?_⟩ <;> simp [endsInName]
  exact View.run_invariant Ending.step initial h

/-! ## Refusals at a character -/

/-- The scan runs through a text exactly if the text can be completed. -/
theorem exists_scan_iff {s : List Char} :
    (∃ k, Configuration.scan {} (Text.visible s) = .ok k) ↔ Completable s := by
  have seen := Configuration.view_scan {} (Text.visible s)
  rw [Text.map_fst_visible] at seen
  rw [completable_iff, show View.run {} (Text.shown s) = _ from seen.symm]
  cases Configuration.scan {} (Text.visible s) <;> simp [Except.toOption]

/-- The view that a scan reaches. -/
theorem run_shown {s : List Char} {k : Configuration}
    (h : Configuration.scan {} (Text.visible s) = .ok k) :
    View.run {} (Text.shown s) = some k.view := by
  have seen := Configuration.view_scan {} (Text.visible s)
  rw [Text.map_fst_visible, h] at seen
  exact seen.symm

theorem readable_iff_scan {s : List Char} {k : Configuration}
    (h : Configuration.scan {} (Text.visible s) = .ok k) :
    Readable s ↔ k.depth = 0 ∧ k.state.MayEnd := by
  rw [readable_iff, View.read, run_shown h, Option.bind_some]
  constructor
  · rintro ⟨a, ha⟩
    exact View.mayEnd_of_finish ha
  · rintro ⟨depth, ended⟩
    exact ⟨_, View.finish_of_mayEnd ended depth⟩

theorem refusal?_eq_none_iff {s : List Char} : refusal? s = none ↔ Readable s := by
  unfold refusal? Readable
  cases Reading.ofChars s <;> simp

def Stop.error? : Except Stop Configuration → Option SyntaxError
  | .ok _ => none
  | .error stop => some stop.error

theorem refusal?_eq (s : List Char) : refusal? s = Stop.error? (Lexeme.run s) := by
  rw [refusal?, Reading.ofChars]
  cases Lexeme.run s <;> rfl

theorem refusal?_of_stop {s : List Char} {stop : Stop}
    (h : Configuration.scan {} (Text.visible s) = .error stop) :
    refusal? s = some stop.error := by
  rw [refusal?_eq]
  unfold Lexeme.run
  split
  · next nothing =>
    rw [List.getLast?_eq_none_iff.mp nothing] at h
    cases h
  · rw [h]
    rfl

/-- The end of a text is looked at with the last state and the brackets that are open. -/
theorem error?_finish (k : Configuration) (last length : Nat) :
    Stop.error? (k.finish last length) =
      if k.depth ≠ 0 then some ⟨.unclosed k.depth, last⟩
      else if k.state = .start then some ⟨.missingOperand, length + 1⟩
      else if k.state = .name then some ⟨.missingArgument, length + 1⟩
      else none := by
  have flushed := Option.some.inj (k.view_flush ' ')
  have depth : k.flush.depth = k.depth := congrArg View.depth flushed
  have state : k.flush.state = k.state := congrArg View.state flushed
  rw [Configuration.finish, depth, state]
  by_cases hd : k.depth = 0
  · cases k.state <;> simp [hd, Stop.error?]
  · simp [hd, Stop.error?]

/-- A text that stops a scan is refused at the character that stops it, and this is the first one
up to which it cannot be completed. -/
theorem refused_of_stop {s : List Char} {stop : Stop}
    (h : Configuration.scan {} (Text.visible s) = .error stop) :
    RefusedAt s stop.error.position ∧ IsLeast (deadEnds s) stop.error.position := by
  obtain ⟨u, c, v, k, rfl, hc, hk, ha⟩ := Configuration.exists_stop h
  have before : (u ++ c :: v).take u.length = u := List.take_left
  have through : (u ++ c :: v).take (u.length + 1) = u ++ [c] := by
    rw [List.take_length_add_append]
    rfl
  have here : (u ++ c :: v)[u.length]? = some c := by simp
  have readable := readable_iff_scan hk
  have failure := Configuration.error_of_advance ha
  have place : stop.error.position = u.length := by
    rcases failure with ⟨e, -⟩ | ⟨e, -⟩ <;> rw [e]
  rw [place]
  refine ⟨⟨stop.error, c, refusal?_of_stop h, place, here, ?_⟩, ⟨by simp, ?_⟩, ?_⟩
  · rw [before, readable]
    rcases failure with ⟨e, pass⟩ | ⟨e, rfl, ended, depth⟩
    · exact .inr ⟨fun closing => pass ⟨closing.1, closing.2.2⟩, _, congrArg SyntaxError.cause e⟩
    · exact .inl ⟨rfl, ⟨depth, ended⟩, congrArg SyntaxError.cause e⟩
  · rw [through, ← exists_scan_iff, visible_concat, hc, Configuration.scan_append, hk]
    rintro ⟨k', hk'⟩
    change (k.advance (c, u.length)).bind _ = _ at hk'
    rw [ha] at hk'
    cases hk'
  · -- every shorter beginning is one of `u`, which was scanned
    intro q ⟨_, dead⟩
    by_contra earlier
    have begins : (u ++ c :: v).take (q + 1) = u.take (q + 1) :=
      List.take_append_of_le_length (by omega)
    have whole : Completable (u.take (q + 1) ++ u.drop (q + 1)) := by
      rw [List.take_append_drop]
      exact exists_scan_iff.mp ⟨k, hk⟩
    exact dead (begins ▸ whole.of_append)

/-! ## The classification -/

theorem count_shown {s : List Char} {c : Char} (hc : Text.isBlank c = false) :
    (Text.shown s).count c = s.count c :=
  List.count_filter (by rw [hc]; rfl)

/-- A text all of whose characters pass is refused for what is wrong with its end. -/
theorem refusal?_of_scan {s : List Char} {k : Configuration}
    (h : Configuration.scan {} (Text.visible s) = .ok k) : refusal? s = endRefusal? s := by
  rw [refusal?_eq, Lexeme.run, endRefusal?]
  cases final : (Text.visible s).getLast? with
  | none => rfl
  | some p =>
    obtain ⟨c, last⟩ := p
    have shown : (Text.shown s).getLast? = some c := by
      rw [← Text.map_fst_visible, List.getLast?_map, final]
      rfl
    have ending := Ending.run (run_shown h)
    have balance : k.depth + s.count ')' = s.count '(' := by
      have := ending.depth
      rwa [count_shown (by decide), count_shown (by decide)] at this
    have depth : k.depth = s.count '(' - s.count ')' := by omega
    have unclosed : k.depth ≠ 0 ↔ s.count ')' < s.count '(' := by omega
    have name : k.state = .name ↔ endsInName (Text.shown s) = true := ending.name
    rw [h]
    show Stop.error? (k.finish last s.length) = _
    simp only [error?_finish, unclosed, name, ← depth]
    by_cases hd : s.count ')' < s.count '('
    · rw [if_pos hd, if_pos hd]
    · -- no bracket is open, so the last character is not an opening one
      have start : k.state = .start ↔ isOperator c = true := by
        have closed : k.view.depth = 0 := Decidable.not_not.mp (unclosed.not.mpr hd)
        have bracket : c ≠ '(' := fun hc => ending.opening (hc ▸ shown) closed
        have start : k.state = .start ↔ _ := ending.start
        rw [start, shown]
        simp [IsOpener, bracket]
      rw [if_neg hd, if_neg hd]
      simp only [start]

theorem cause_of_endRefusal? {s : List Char} {e : SyntaxError} (h : endRefusal? s = some e) :
    e.cause ≠ .unopened ∧ ∀ state c, e.cause ≠ .unexpected state c := by
  unfold endRefusal? at h
  split at h
  · cases h
    simp
  · split_ifs at h <;> cases h <;> simp

theorem exists_stop_of_least {s : List Char} {p : Nat} (h : IsLeast (deadEnds s) p) :
    ∃ stop, Configuration.scan {} (Text.visible s) = .error stop ∧ stop.error.position = p := by
  cases hs : Configuration.scan {} (Text.visible s) with
  | error stop => exact ⟨stop, rfl, (refused_of_stop hs).2.unique h⟩
  | ok k =>
    have whole : Completable (s.take (p + 1) ++ s.drop (p + 1)) := by
      rw [List.take_append_drop]
      exact exists_scan_iff.mp ⟨k, hs⟩
    exact absurd whole.of_append h.1.2

theorem refusedAt_iff {s : List Char} {p : Nat} : RefusedAt s p ↔ IsLeast (deadEnds s) p := by
  constructor
  · rintro ⟨e, c, refused, place, -, cause⟩
    cases hs : Configuration.scan {} (Text.visible s) with
    | error stop =>
      rw [refusal?_of_stop hs] at refused
      cases refused
      rw [← place]
      exact (refused_of_stop hs).2
    | ok k =>
      rw [refusal?_of_scan hs] at refused
      obtain ⟨opened, expected⟩ := cause_of_endRefusal? refused
      rcases cause with ⟨-, -, cause⟩ | ⟨-, state, cause⟩
      · exact absurd cause opened
      · exact absurd cause (expected state c)
  · intro least
    obtain ⟨stop, hs, rfl⟩ := exists_stop_of_least least
    exact (refused_of_stop hs).1

theorem completable_of_refusedAt {s : List Char} {p : Nat} (h : RefusedAt s p) :
    Completable (s.take p) := by
  have least := refusedAt_iff.mp h
  cases p with
  | zero => exact completable_nil
  | succ q =>
    by_contra dead
    have := least.2 ⟨Nat.lt_of_succ_lt least.1.1, dead⟩
    omega

/-- A text is refused at the first of its characters up to which it cannot be completed; up to
there it can. Where there is no such character, it is refused for what is wrong with its end, and
else it is read. -/
theorem refused_earliest (s : List Char) :
    (∀ p, RefusedAt s p ↔ IsLeast (deadEnds s) p) ∧
      (∀ p, RefusedAt s p → Completable (s.take p)) ∧
      ((∀ p, ¬ IsLeast (deadEnds s) p) →
        refusal? s = endRefusal? s ∧ (Readable s ↔ endRefusal? s = none)) := by
  refine ⟨fun p => refusedAt_iff, fun p => completable_of_refusedAt, fun passes => ?_⟩
  cases hs : Configuration.scan {} (Text.visible s) with
  | error stop => exact absurd (refused_of_stop hs).2 (passes _)
  | ok k =>
    have refusal := refusal?_of_scan hs
    exact ⟨refusal, by rw [← refusal?_eq_none_iff, refusal]⟩

/-- The second character closes a bracket that is not open, although another one is opened later;
and nothing is wrong with the characters of a product without its second factor. -/
theorem refused_earliest_bracket_and_end :
    IsLeast (deadEnds "1)+(2".toList) 1 ∧ Completable ("1)+(2".toList.take 1) ∧
      (∀ p, ¬ IsLeast (deadEnds "2*".toList) p) ∧
      refusal? "2*".toList = some ⟨.missingOperand, 3⟩ := by
  have stray : RefusedAt "1)+(2".toList 1 :=
    ⟨⟨.unopened, 1⟩, ')', by decide, rfl, by decide, .inl ⟨rfl, ⟨_, rfl⟩, rfl⟩⟩
  obtain ⟨place, before, -⟩ := refused_earliest "1)+(2".toList
  obtain ⟨places, -, atEnd⟩ := refused_earliest "2*".toList
  have ends : refusal? "2*".toList = some ⟨.missingOperand, 3⟩ := by decide
  have passes : ∀ p, ¬ IsLeast (deadEnds "2*".toList) p := by
    intro p least
    obtain ⟨e, c, refused, -, -, cause⟩ := (places p).mpr least
    rw [ends] at refused
    cases refused
    rcases cause with ⟨-, -, cause⟩ | ⟨-, state, cause⟩ <;> cases cause
  refine ⟨(place 1).mp stray, before 1 stray, passes, ?_⟩
  rw [(atEnd passes).1]
  decide

end FunctionCalculator.Lexeme
