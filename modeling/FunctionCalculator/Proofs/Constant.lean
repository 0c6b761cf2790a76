import FunctionCalculator.Proofs.Meaning

/-!
# Expressions without the variable

What is proved:
  1. `Phrase.kind_of_mem_lexemes`: a phrase without the variable has no token of that kind.
  2. `value_of_not_dependsOnX`: an expression that does not depend on the variable has the same
     outcome everywhere.
-/

namespace FunctionCalculator

theorem Phrase.kind_of_mem_lexemes {c : Category} {φ : Phrase c} (hφ : φ.dependsOnX = false)
    {b : Nat} {u : List Char} (h : u ∈ φ.lexemes b) : Token.Kind.ofText u ≠ .var := by
  induction φ generalizing b with
  | number n k =>
    rw [List.mem_singleton.mp h, Token.Kind.ofText_number]
    exact Token.Kind.noConfusion
  | var n => cases hφ
  | call n f a ih =>
    simp only [lexemes, List.mem_cons, List.mem_append, List.not_mem_nil, or_false] at h
    rcases h with rfl | rfl | h | rfl
    · rw [Token.Kind.ofText_name]
      exact Token.Kind.noConfusion
    · decide
    · exact ih hφ h
    · decide
  | group n a ih =>
    simp only [lexemes, List.mem_cons, List.mem_append, List.not_mem_nil, or_false] at h
    rcases h with rfl | h | rfl
    · decide
    · exact ih hφ h
    · decide
  | single t ih => exact ih hφ h
  | chain e o t ihe iht =>
    obtain ⟨he, ht⟩ := Bool.or_eq_false_iff.mp hφ
    simp only [lexemes, List.mem_cons, List.mem_append] at h
    rcases h with h | rfl | h
    · exact ihe he h
    · rw [Token.Kind.ofText_operator]
      exact Token.Kind.noConfusion
    · exact iht ht h

theorem Tree.value?_eq_of_kinds {T : Tree} (hT : T.Typed) (h : ∀ t ∈ T.postorder, t.kind ≠ .var)
    (x y : Float) : T.value? x = T.value? y := by
  induction T with
  | number t => rfl
  | var t => exact absurd hT (h t List.mem_cons_self)
  | function t a ih =>
    have inner := ih hT.2 fun u hu => h u (List.mem_append_left _ hu)
    simp only [value?, inner]
  | operator t l r ihl ihr =>
    have left := ihl hT.2.1 fun u hu =>
      h u (List.mem_append_left _ (List.mem_append_left _ hu))
    have right := ihr hT.2.2 fun u hu =>
      h u (List.mem_append_left _ (List.mem_append_right _ hu))
    simp only [value?, left, right]

namespace Expression

open Lexeme (Reading)

/-- An expression that does not depend on the variable has the same outcome everywhere. -/
theorem value_of_not_dependsOnX {s : List Char} {e : Expression} (h : ofChars s = .ok e)
    (hx : e.dependsOnX = false) (x y : Float) : e.value x = e.value y := by
  obtain ⟨r, -, T, hr, -, -, hT, -, value⟩ := exists_tree h
  obtain ⟨φ, -, lexemes, mark⟩ := Reading.ofChars_eq_ok hr
  have hφ : φ.dependsOnX = false := by rw [← mark, ← (fields_of_reading h hr).1, hx]
  have kinds : ∀ t ∈ T.postorder, t.kind ≠ .var := by
    intro t ht
    obtain ⟨l, hl, rfl⟩ := List.mem_map.mp (hT.mem_of_mem_postorder ht)
    exact Phrase.kind_of_mem_lexemes hφ (lexemes ▸ List.mem_map_of_mem hl)
  rw [value x, value y, Tree.value?_eq_of_kinds hT.typed kinds x y]

theorem value?_of_not_dependsOnX {s : List Char} {e : Expression} (h : ofChars s = .ok e)
    (hx : e.dependsOnX = false) (x y : Float) : e.value? x = e.value? y := by
  rw [value?, value?, value_of_not_dependsOnX h hx x y]

end Expression

end FunctionCalculator
