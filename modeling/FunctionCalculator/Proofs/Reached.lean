import FunctionCalculator.Proofs.Kinds
import FunctionCalculator.Proofs.Noninterference

/-!
# What a scan has reached

A configuration keeps a state, a buffer, a count, a mark and what was put out, each of which could
have any value by itself. Behind a text that is scanned without error each is what the text says.

What is proved:
  1. `View.Step.start_of_variable`: an `x` goes on with a name or is the variable.
  2. `Made.ne_minuses`: signs alone are never put out, but for the binary minus.
  3. `reached_of_scan`: the invariant of all five parts behind every text.
-/

namespace FunctionCalculator.Lexeme

/-- An `x` goes on with a name, or it is the variable and stands where an operand is due. -/
theorem View.Step.start_of_variable {v w : View} (h : Step v variableChar w)
    (name : v.state ≠ .name) : v.state = .start := by
  generalize hc : variableChar = c at h
  cases h with
  | sign | firstDigit | firstLetter | var | group => rfl
  | nextDigit _ digit =>
    subst hc
    cases digit
  | point separator =>
    subst hc
    cases separator
  | nextLetter | call => exact absurd rfl name
  | closeNumber | closeAgain => cases hc
  | operator _ o => cases o <;> cases hc

/-- A text that came out is one character or holds another one than a sign. -/
theorem Made.exists_ne_minus {o : Origin} {t : List Char} {k : Token.Kind} (h : Made o t k) :
    t.length = 1 ∨ ∃ c ∈ t, c ≠ '-' := by
  have digit {c : Char} (hc : c.isDigit = true) : c ≠ '-' := CharClass.ne_of_holds (by decide) hc
  cases h with
  | number hs text =>
    cases text with
    | signs | name | bracket | var => rcases hs with hs | hs <;> cases hs
    | integer n first digits => exact .inr ⟨_, by simp, digit first⟩
    | decimal n first digits places => exact .inr ⟨_, by simp, digit first⟩
  | var n => exact .inr ⟨variableChar, by simp, by decide⟩
  | name text =>
    obtain - | - | - | ⟨n, f⟩ := text
    refine .inr ⟨f.first, by simp [FunctionName.letters], ?_⟩
    exact CharClass.ne_of_holds (p := isNameLetter) (by decide) f.first_ok
  | operator | opening | closing => exact .inl rfl

/-- Signs alone are not put out; a single one is the binary minus. -/
theorem Made.ne_minuses {o : Origin} {t : List Char} {k : Token.Kind} (h : Made o t k) {n : Nat}
    (hn : 2 ≤ n) : t ≠ minuses n := by
  rintro rfl
  rcases h.exists_ne_minus with single | ⟨c, hc, other⟩
  · rw [minuses, List.length_replicate] at single
    omega
  · exact other (List.eq_of_mem_replicate hc)

namespace Configuration

/-- What a configuration tells about the text in front of it. -/
structure Reached (u : List Char) (k : Configuration) : Prop where
  /-- The brackets that are open. -/
  depth : (k.depth : Int) = u.count '(' - u.count ')'
  /-- Nowhere were more brackets closed than opened. -/
  balance : ∀ t, t <+: u → t.count ')' ≤ t.count '('
  /-- What the buffer holds in each state. -/
  buffer : Holds k.state k.buffer
  /-- The mark stands for an `x` that was read where an operand is due. -/
  dependsOnX : k.dependsOnX = true ↔ ∃ t v k', u = t ++ variableChar :: v ∧
    scan {} (Text.visible t) = .ok k' ∧ k'.state = .start
  /-- What came out is an operator, a bracket, or an operand or a name with its signs. -/
  emissions : ∀ m ∈ k.emissions, ∃ kind, Made m.origin m.lexeme.text kind
  /-- Signs wait for their operand. -/
  signs : ∀ m ∈ k.emissions, ∀ n, 2 ≤ n → m.lexeme.text ≠ minuses n

variable {u t : List Char} {k : Configuration}

theorem exists_scan_of_isPrefix (h : scan {} (Text.visible u) = .ok k) (ht : t <+: u) :
    ∃ k', scan {} (Text.visible t) = .ok k' := by
  obtain ⟨v, rfl⟩ := ht
  exact exists_scan_iff.mpr (exists_scan_iff.mp ⟨k, h⟩).of_append

theorem depth_of_scan (h : scan {} (Text.visible u) = .ok k) :
    k.depth + u.count ')' = u.count '(' := by
  have balance := (Ending.run (run_shown h)).depth
  rwa [count_shown (by decide), count_shown (by decide)] at balance

/-- In front of an `x` that is scanned, the state tells whether a name goes on. -/
theorem start_iff_of_scan {v : List Char}
    (h : scan {} (Text.visible (t ++ variableChar :: v)) = .ok k) {k' : Configuration}
    (ht : scan {} (Text.visible t) = .ok k') :
    k'.state = .start ↔ ¬ Text.EndsInName (Text.shown t) := by
  have reached := run_shown h
  rw [shown_append, Text.shown_cons (by decide), View.run_append, run_shown ht, Option.bind_some,
    View.run, List.foldlM_cons] at reached
  obtain ⟨w, advance, -⟩ := Option.bind_eq_some_iff.mp reached
  have step := View.advance_eq_some_iff.mp advance
  have name : k'.state = .name ↔ endsInName (Text.shown t) = true :=
    (Ending.run (run_shown ht)).name
  rw [← endsInName_iff, ← name]
  constructor
  · intro start name
    rw [start] at name
    cases name
  · exact step.start_of_variable

theorem dependsOnX_iff_of_scan (h : scan {} (Text.visible u) = .ok k) :
    k.dependsOnX = true ↔ ∃ t v k', u = t ++ variableChar :: v ∧
      scan {} (Text.visible t) = .ok k' ∧ k'.state = .start := by
  have visible : Text.isBlank variableChar = false := by decide
  have mark : k.dependsOnX = true ↔ _ := View.dependsOnX_iff (run_shown h)
  rw [mark]
  constructor
  · rintro ⟨t, w, text, outside⟩
    obtain ⟨t, v, rfl, rfl, -⟩ := (Text.shown_eq_append_cons_iff visible).mp text
    obtain ⟨k', ht⟩ := exists_scan_of_isPrefix h (List.prefix_append t _)
    exact ⟨t, v, k', rfl, ht, (start_iff_of_scan h ht).mpr outside⟩
  · rintro ⟨t, v, k', rfl, ht, start⟩
    refine ⟨Text.shown t, Text.shown v, ?_, (start_iff_of_scan h ht).mp start⟩
    rw [shown_append, Text.shown_cons visible]

/-- Behind every text that is scanned without error, the count is that of the open brackets and was
never short of one, the buffer holds what the state says, the mark stands for the variable, and what
came out is complete. -/
theorem reached_of_scan (h : scan {} (Text.visible u) = .ok k) : Reached u k := by
  obtain ⟨kinded, buffer⟩ := Kinded.scan (k := {}) nofun (.signs 0) h
  refine ⟨?_, fun t ht => ?_, buffer, dependsOnX_iff_of_scan h, kinded, fun m hm n hn => ?_⟩
  · have balance := depth_of_scan h
    omega
  · obtain ⟨k', hk'⟩ := exists_scan_of_isPrefix h ht
    have balance := depth_of_scan hk'
    omega
  · obtain ⟨kind, made⟩ := kinded m hm
    exact made.ne_minuses hn

/-- A bracket that is open, signs in front of a name that goes on with an `x`, and a variable. -/
theorem reached_of_scan_name :
    ∃ k, scan {} (Text.visible "-(x-(5.*--ex".toList) = .ok k ∧ k.state = .name ∧
      k.buffer = "--ex".toList ∧ k.depth = 2 ∧ k.dependsOnX = true ∧
      k.lexemes.map (fun l => String.ofList l.text) = ["(", "-x", "-", "(", "5.", "*"] ∧
      Reached "-(x-(5.*--ex".toList k :=
  ⟨_, rfl, rfl, rfl, rfl, rfl, rfl, reached_of_scan rfl⟩

end Configuration

end FunctionCalculator.Lexeme
