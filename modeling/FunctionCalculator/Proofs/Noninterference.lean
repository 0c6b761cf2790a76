import FunctionCalculator.Proofs.Constant
import FunctionCalculator.Proofs.Refusal

/-!
# The variable as a mark, as a token and as a letter

Three parts of the calculator decide by themselves what depends on the variable: the automaton
marks it when it reads an `x` where an operand is due, the kind of a token is read off its text
once more, and a run looks at `x` only through tokens of that kind. The letter `x` may also stand
in the name of a function, where it means nothing by itself.

What is proved:
  1. `View.dependsOnX_iff`: the mark of a run over a text against the letters of the text.
  2. `Expression.dependsOnX_iff_mem`: the mark of an expression against its tokens.
  3. `Expression.dependsOnX_exact`: the three agree, and an expression without the mark has the
     same outcome everywhere.
-/

namespace FunctionCalculator

/-! ## The letter -/

/-- A text ends in the name of a function: its last letters are one, and no more letters stand in
front of them. An `x` behind it goes on with that name. -/
def Text.EndsInName (u : List Char) : Prop :=
  ∃ t, ∃ f : FunctionName, u = t ++ f.letters ∧ ∀ c ∈ t.getLast?, isNameLetter c = false

namespace Lexeme

theorem rtakeWhile_append_letters {cs : List Char} (h : ∀ c ∈ cs, isNameLetter c = true)
    (t : List Char) :
    (t ++ cs).rtakeWhile isNameLetter = t.rtakeWhile isNameLetter ++ cs := by
  have letters : ∀ c ∈ cs.reverse, isNameLetter c = true := fun c hc => h c (List.mem_reverse.mp hc)
  rw [List.rtakeWhile, List.reverse_append, List.takeWhile_append_of_pos letters,
    List.reverse_append, List.reverse_reverse, List.rtakeWhile]

theorem endsInName_iff {u : List Char} : endsInName u = true ↔ Text.EndsInName u := by
  rw [endsInName, Option.any_eq_true]
  constructor
  · rintro ⟨c, head, hx⟩
    obtain ⟨rest, run⟩ := List.head?_eq_some_iff.mp head
    have letter : ∀ d ∈ c :: rest, isNameLetter d = true := fun d hd =>
      List.mem_rtakeWhile_imp (run ▸ hd)
    refine ⟨u.rdropWhile isNameLetter, ⟨c, rest, letter c List.mem_cons_self, bne_iff_ne.mp hx,
      fun d hd => letter d (List.mem_cons_of_mem c hd)⟩, ?_, ?_⟩
    · rw [FunctionName.letters, ← run, List.rdropWhile_append_rtakeWhile]
    · intro d hd
      have nonempty : u.rdropWhile isNameLetter ≠ [] := by
        intro nothing
        rw [nothing] at hd
        cases hd
      have last := List.rdropWhile_last_not isNameLetter u nonempty
      rw [List.getLast?_eq_some_getLast nonempty] at hd
      rw [← Option.some.inj hd]
      exact Bool.eq_false_iff.mpr last
  · rintro ⟨t, f, rfl, ht⟩
    have letters : ∀ c ∈ f.letters, isNameLetter c = true :=
      List.forall_mem_cons.mpr ⟨f.first_ok, f.rest_ok⟩
    have stop : t.rtakeWhile isNameLetter = [] := by
      rw [List.rtakeWhile_eq_nil_iff]
      intro nonempty
      exact Bool.eq_false_iff.mp (ht _ (List.getLast?_eq_some_getLast nonempty))
    rw [rtakeWhile_append_letters letters, stop]
    exact ⟨f.first, rfl, bne_iff_ne.mpr f.first_ne⟩

namespace View

theorem Step.dependsOnX_iff {v w : View} {c : Char} (h : Step v c w) :
    w.dependsOnX = true ↔ v.dependsOnX = true ∨ c = variableChar ∧ v.state ≠ .name := by
  have other {x : Bool} {s : State} (hc : c ≠ variableChar) :
      x = true ↔ x = true ∨ c = variableChar ∧ s ≠ .name :=
    (or_iff_left fun marked => hc marked.1).symm
  cases h with
  | sign => exact other (by decide)
  | firstDigit hc => exact other (CharClass.ne_of_holds (by decide) hc)
  | firstLetter hc hx => exact other hx
  | var => exact iff_of_true rfl (.inr ⟨rfl, State.noConfusion⟩)
  | group => exact other (by decide)
  | nextDigit hs hc => exact other (CharClass.ne_of_holds (by decide) hc)
  | point hc => exact other (CharClass.ne_of_holds (by decide) hc)
  | nextLetter hc => exact (or_iff_left fun marked => marked.2 rfl).symm
  | call => exact other (by decide)
  | closeNumber hs => exact other (by decide)
  | closeAgain hs => exact other (by decide)
  | operator hs o => exact other (by cases o <;> decide)

/-- The mark of a run: somewhere in the text an `x` does not go on with a name. -/
theorem dependsOnX_iff {v : View} {u : List Char} (h : run {} u = some v) :
    v.dependsOnX = true ↔ ∃ t w, u = t ++ variableChar :: w ∧ ¬ Text.EndsInName t := by
  have marked := run_invariant (v := {}) (u := [])
    (P := fun v u => Ending v u ∧
      (v.dependsOnX = true ↔ ∃ t w, u = t ++ variableChar :: w ∧ ¬ Text.EndsInName t))
    ?_ ?_ h
  · exact marked.2
  · rintro v w c u ⟨ending, mark⟩ step
    refine ⟨ending.step step, ?_⟩
    rw [step.dependsOnX_iff, mark, Ne, ending.name, endsInName_iff]
    constructor
    · rintro (⟨t, w, rfl, ht⟩ | ⟨rfl, hu⟩)
      · exact ⟨t, w ++ [c], by simp, ht⟩
      · exact ⟨u, [], rfl, hu⟩
    · rintro ⟨t, w, text, ht⟩
      -- the `x` is the last character of the longer text or stands in the shorter one
      obtain rfl | ⟨w, d, rfl⟩ := List.eq_nil_or_concat w
      · obtain ⟨rfl, last⟩ := List.append_inj' text rfl
        exact .inr ⟨(List.cons.inj last).1, ht⟩
      · rw [List.concat_eq_append, ← List.cons_append, ← List.append_assoc] at text
        exact .inl ⟨t, w, (List.append_inj' text rfl).1, ht⟩
  · refine ⟨Ending.run rfl, ?_⟩
    simp

end View

end Lexeme

namespace Lexeme.Reading

theorem dependsOnX_iff {s : List Char} {r : Reading} (h : ofChars s = .ok r) :
    r.dependsOnX = true ↔
      ∃ u v, s = u ++ variableChar :: v ∧ ¬ Text.EndsInName (Text.shown u) := by
  have texts := texts_ofChars s
  rw [h, View.read] at texts
  obtain ⟨view, reached, finished⟩ := Option.bind_eq_some_iff.mp texts.symm
  have mark : r.dependsOnX = view.dependsOnX := by
    unfold View.finish at finished
    split at finished
    · exact (congrArg Prod.snd (Option.some.inj finished)).symm
    · cases finished
  have visible : Text.isBlank variableChar = false := by decide
  rw [mark, View.dependsOnX_iff reached]
  constructor
  · rintro ⟨t, w, text, ht⟩
    obtain ⟨u, v, rfl, rfl, -⟩ := (Text.shown_eq_append_cons_iff visible).mp text
    exact ⟨u, v, rfl, ht⟩
  · rintro ⟨u, v, rfl, hu⟩
    exact ⟨_, _, (Text.shown_eq_append_cons_iff visible).mpr ⟨u, v, rfl, rfl, rfl⟩, hu⟩

end Lexeme.Reading

/-! ## The tokens -/

theorem Phrase.exists_var_lexeme {c : Category} {φ : Phrase c} (hφ : φ.dependsOnX = true)
    (b : Nat) : ∃ n, minuses n ++ [variableChar] ∈ φ.lexemes b := by
  induction φ generalizing b with
  | number n k => cases hφ
  | var n => exact ⟨b + n, List.mem_cons_self⟩
  | call n f a ih =>
    obtain ⟨m, hm⟩ := ih hφ 0
    exact ⟨m, .tail _ (.tail _ (List.mem_append_left _ hm))⟩
  | group n a ih =>
    obtain ⟨m, hm⟩ := ih hφ (b + n)
    exact ⟨m, .tail _ (List.mem_append_left _ hm)⟩
  | single t ih => exact ih hφ b
  | chain e o t ihe iht =>
    rcases Bool.or_eq_true_iff.mp hφ with he | ht
    · obtain ⟨m, hm⟩ := ihe he b
      exact ⟨m, List.mem_append_left _ hm⟩
    · obtain ⟨m, hm⟩ := iht ht 0
      exact ⟨m, List.mem_append_right _ (.tail _ hm)⟩

/-- Brackets are the only tokens that a tree leaves out. -/
theorem Writes.mem_postorder {p : Nat} {ts : List Token} {T : Tree} (h : Writes p ts T) {t : Token}
    (ht : t ∈ ts) (opening : t.kind ≠ .opening) (closing : t.kind ≠ .closing) :
    t ∈ T.postorder := by
  induction h with
  | number _ | var _ => exact ht
  | call _ ho hc _ ih =>
    simp only [List.mem_cons, List.mem_append, List.not_mem_nil, or_false] at ht
    rcases ht with rfl | rfl | ht | rfl
    · exact List.mem_append_right _ (.head _)
    · exact absurd ho opening
    · exact List.mem_append_left _ (ih ht)
    · exact absurd hc closing
  | group ho hc _ ih =>
    simp only [List.mem_cons, List.mem_append, List.not_mem_nil, or_false] at ht
    rcases ht with rfl | ht | rfl
    · exact absurd ho opening
    · exact ih ht
    · exact absurd hc closing
  | operator _ _ _ _ _ ihl ihr =>
    rw [Tree.postorder, List.mem_append, List.mem_append]
    rcases List.mem_append.mp ht with ht | ht
    · exact .inl (.inl (ihl ht))
    · rcases List.mem_cons.mp ht with rfl | ht
      · exact .inr (.head _)
      · exact .inl (.inr (ihr ht))

namespace Expression

open Lexeme (Reading)

/-- An expression is marked exactly if its program has a token of the variable. -/
theorem dependsOnX_iff_mem {s : List Char} {e : Expression} (h : ofChars s = .ok e) :
    e.dependsOnX = true ↔ ∃ t ∈ e.postorder, t.kind = .var := by
  obtain ⟨r, -, T, hr, -, -, hT, listing, -⟩ := exists_tree h
  obtain ⟨φ, -, lexemes, mark⟩ := Reading.ofChars_eq_ok hr
  rw [(fields_of_reading h hr).1, mark, listing]
  constructor
  · intro hφ
    obtain ⟨n, hn⟩ := Phrase.exists_var_lexeme hφ 0
    rw [← lexemes] at hn
    obtain ⟨l, hl, text⟩ := List.mem_map.mp hn
    have kind : (Token.ofLexeme l).kind = .var := (congrArg _ text).trans (Token.Kind.ofText_var n)
    refine ⟨_, hT.mem_postorder (List.mem_map_of_mem hl) ?_ ?_, kind⟩
    · rw [kind]
      decide
    · rw [kind]
      decide
  · rintro ⟨t, ht, kind⟩
    obtain ⟨l, hl, rfl⟩ := List.mem_map.mp (hT.mem_of_mem_postorder ht)
    by_contra unmarked
    have member : l.text ∈ φ.lexemes 0 := lexemes ▸ List.mem_map_of_mem hl
    exact Phrase.kind_of_mem_lexemes (Bool.eq_false_iff.mpr unmarked) member kind

/-- An expression is marked as depending on the variable exactly if its program has a token of the
variable, and exactly if an `x` of its text belongs to no function name. If it is not marked, its
outcome is the same for any two doubles, those that are not finite included. -/
theorem dependsOnX_exact {s : String} {e : Expression} (h : ofString s = .ok e) :
    (e.dependsOnX = true ↔ ∃ t ∈ e.postorder, t.kind = .var) ∧
    (e.dependsOnX = true ↔
      ∃ u v, s.toList = u ++ variableChar :: v ∧ ¬ Text.EndsInName (Text.shown u)) ∧
    (e.dependsOnX = false → ∀ x y, e.value x = e.value y) := by
  refine ⟨dependsOnX_iff_mem h, ?_, fun unmarked x y => value_of_not_dependsOnX h unmarked x y⟩
  obtain ⟨r, hr, -⟩ := ofChars_eq_ok h
  rw [(fields_of_reading h hr).1, Reading.dependsOnX_iff hr]

/-- The only `x` of the text is a letter of a name. -/
theorem dependsOnX_exact_exponential :
    ∃ e, ofString "exp(2)" = .ok e ∧ e.dependsOnX = false ∧
      (¬ ∃ u v, "exp(2)".toList = u ++ variableChar :: v ∧ ¬ Text.EndsInName (Text.shown u)) ∧
      ∀ x y, e.value x = e.value y := by
  obtain ⟨-, letter, same⟩ := dependsOnX_exact (s := "exp(2)") rfl
  exact ⟨_, rfl, rfl, fun marked => absurd (letter.mpr marked) (by decide), same rfl⟩

end Expression

end FunctionCalculator
