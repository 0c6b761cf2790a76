import FunctionCalculator.Proofs.Language

/-!
# The meaning of an expression

What is proved, for every text that becomes an expression:
  1. `denotes_tree`: its tokens write exactly one tree, the program lists that tree in postorder,
     and the value at any `x` is the value of the tree.
  2. `never_faults`: no run of the program meets a fault, whatever `x` is, and a value that it
     gives is finite.
-/

namespace FunctionCalculator.Expression

open Lexeme (Reading)

/-- The phrase, the tokens and the tree behind an expression. -/
theorem exists_tree {s : List Char} {e : Expression} (h : ofChars s = .ok e) :
    ∃ (r : Reading) (φ : Phrase .expression) (T : Tree), Reading.ofChars s = .ok r ∧
      φ.text = Text.shown s ∧ r.lexemes.map Lexeme.text = φ.lexemes 0 ∧
      Writes 0 (r.lexemes.map Token.ofLexeme) T ∧ e.postorder = T.postorder ∧
      ∀ x, e.value x = .ok (T.value? x) := by
  obtain ⟨r, hr, he⟩ := ofChars_eq_ok h
  obtain ⟨φ, text, texts, -⟩ := Reading.ofChars_eq_ok hr
  obtain ⟨passed, program⟩ := ofReading_eq_ok he
  have names := (unknownFunction?_eq_none_iff texts).mp passed
  obtain ⟨T, hT⟩ := φ.exists_writes texts
  rw [hT.postorder_eq] at program
  have known : ∀ t ∈ T.postorder, t.Known := by
    intro t ht
    obtain ⟨l, hl, rfl⟩ := List.mem_map.mp (hT.mem_of_mem_postorder ht)
    have member : l.text ∈ φ.lexemes 0 := texts ▸ List.mem_map_of_mem hl
    exact (φ.piece_of_mem_lexemes member).known names l.position
  refine ⟨r, φ, T, hr, text, texts, hT, ?_, fun x => ?_⟩
  · rw [postorder, program, Program.tokens_ofTokens]
  · rw [value, program, Tree.value_postorder hT.typed known]

theorem exists_tree_of_phrase {s : List Char} {φ : Phrase .expression}
    (text : φ.text = Text.shown s) (known : ∀ f ∈ φ.names, Registry.isKnown f.letters = true) :
    ∃ (e : Expression) (r : Reading) (T : Tree), ofChars s = .ok e ∧
      r.lexemes.map Lexeme.text = φ.lexemes 0 ∧ Writes 0 (r.lexemes.map Token.ofLexeme) T ∧
      e.postorder = T.postorder ∧ ∀ x, e.value x = .ok (T.value? x) := by
  obtain ⟨e, he⟩ := (exists_ofChars_iff text).mpr known
  obtain ⟨r, -, T, hr, -, -, hT, listing, value⟩ := exists_tree he
  obtain ⟨r', hr', texts⟩ := Reading.exists_ofChars text
  obtain rfl := Except.ok.inj (hr.symm.trans hr')
  exact ⟨e, r, T, he, texts, hT, listing, value⟩

theorem value?_eq {e : Expression} {x : Float} {v : Option Float} (h : e.value x = .ok v) :
    e.value? x = v := by
  rw [value?, h]

/-- The tokens of an expression are grouped in one way; the program lists the tree in postorder,
and runs to its value. -/
theorem denotes_tree {s : String} {e : Expression} (h : ofString s = .ok e) :
    ∃ r, Reading.ofChars s.toList = .ok r ∧
      ∃ T : Tree, (∀ S, Writes 0 (r.lexemes.map Token.ofLexeme) S ↔ S = T) ∧
        e.postorder = T.postorder ∧
        ∀ x, e.value x = .ok (T.value? x) ∧ e.value? x = T.value? x := by
  obtain ⟨r, φ, T, hr, -, -, hT, listing, value⟩ := exists_tree h
  refine ⟨r, hr, T, fun S => ⟨fun hS => hS.unique hT, ?_⟩, listing, fun x => ?_⟩
  · intro hS
    rw [hS]
    exact hT
  · exact ⟨value x, value?_eq (value x)⟩

/-- The tree of a chain with operators of each level, two of them powers. -/
def mixedChain : Tree :=
  .operator ⟨['-'], .operator, 9⟩
    (.operator ⟨['+'], .operator, 1⟩
      (.number ⟨['1'], .number, 0⟩)
      (.operator ⟨['*'], .operator, 3⟩
        (.number ⟨['2'], .number, 2⟩)
        (.operator ⟨['^'], .operator, 7⟩
          (.operator ⟨['^'], .operator, 5⟩ (.var ⟨['x'], .var, 4⟩) (.number ⟨['3'], .number, 6⟩))
          (.number ⟨['2'], .number, 8⟩))))
    (.number ⟨['4'], .number, 10⟩)

theorem denotes_tree_mixed :
    ∃ e r, ofString "1+2*x^3^2-4" = .ok e ∧ Reading.ofChars "1+2*x^3^2-4".toList = .ok r ∧
      (∀ S, Writes 0 (r.lexemes.map Token.ofLexeme) S ↔ S = mixedChain) ∧
      e.postorder.map Token.text =
        [['1'], ['2'], ['x'], ['3'], ['^'], ['2'], ['^'], ['*'], ['+'], ['4'], ['-']] ∧
      ∀ x, e.value x = .ok (mixedChain.value? x) := by
  obtain ⟨r, hr, T, only, listing, value⟩ := denotes_tree (s := "1+2*x^3^2-4") rfl
  -- the tree can be told from its listing
  have typed : T.Typed := ((only T).mpr rfl).typed
  have same : T = mixedChain :=
    Tree.postorder_injective typed (by simp [mixedChain, Tree.Typed]) (listing.symm.trans rfl)
  subst same
  exact ⟨_, r, rfl, hr, only, rfl, fun x => (value x).1⟩

/-- An expression has a value or none, but no fault, and its values are finite. -/
theorem never_faults {s : String} {e : Expression} (h : ofString s = .ok e) (x : Float) :
    ∃ v, e.value x = .ok v ∧ ∀ w, v = some w → w.isFinite = true := by
  obtain ⟨r, φ, T, -, -, -, -, -, value⟩ := exists_tree h
  exact ⟨T.value? x, value x, fun w hw => Tree.isFinite_of_value? hw⟩

theorem never_faults_at_pole :
    ∃ e, ofString "1/x" = .ok e ∧ ∃ v, e.value 0 = .ok v ∧ ∀ w, v = some w → w.isFinite = true :=
  ⟨_, rfl, never_faults (s := "1/x") rfl 0⟩

end FunctionCalculator.Expression
