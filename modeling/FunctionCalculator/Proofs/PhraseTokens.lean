import FunctionCalculator.Proofs.Grouping
import FunctionCalculator.Proofs.Phrase
import FunctionCalculator.Proofs.View

/-!
# The tokens of a phrase

What is proved:
  1. `piece_of_mem_lexemes`: what the lexemes of a phrase look like. Each form has its kind, and
     its token means something, a name only if the registry knows it.
  2. `exists_writes`: the tokens of a phrase write a tree.
-/

namespace FunctionCalculator

open Lexeme (CharClass)

/-! ## Texts of operands -/

/-- A character that an operand may begin with, behind its signs. -/
def IsOperandStart (c : Char) : Prop := isOperator c = false ∧ c ≠ '(' ∧ c ≠ ')'

theorem isOperandStart_of_isDigit {c : Char} (h : c.isDigit = true) : IsOperandStart c := by
  refine ⟨CharClass.isOperator_eq_false (fun o => ?_) h, ?_, ?_⟩
  · cases o <;> decide
  · exact CharClass.ne_of_holds (by decide) h
  · exact CharClass.ne_of_holds (by decide) h

theorem isOperandStart_of_isNameLetter {c : Char} (h : isNameLetter c = true) :
    IsOperandStart c := by
  refine ⟨CharClass.isOperator_eq_false (fun o => ?_) h, ?_, ?_⟩
  · cases o <;> decide
  · exact CharClass.ne_of_holds (by decide) h
  · exact CharClass.ne_of_holds (by decide) h

theorem IsOperandStart.ne_minus {c : Char} (h : IsOperandStart c) : c ≠ '-' := by
  intro hc
  rw [hc] at h
  exact absurd h.1 (by decide)

namespace Text

theorem unsigned_minuses_append {c : Char} (hc : c ≠ '-') (n : Nat) (t : List Char) :
    unsigned (minuses n ++ c :: t) = c :: t := by
  induction n with
  | zero => exact List.dropWhile_cons_of_neg (by simpa using hc)
  | succ n ih => exact ih

theorem unsigned_point (n : Nat) (k : Numeral) : unsigned (minuses n ++ k.point) = k.point :=
  unsigned_minuses_append (isOperandStart_of_isDigit k.first_ok).ne_minus n _

theorem unsigned_letters (n : Nat) (f : FunctionName) :
    unsigned (minuses n ++ f.letters) = f.letters :=
  unsigned_minuses_append (isOperandStart_of_isNameLetter f.first_ok).ne_minus n _

end Text

namespace Token

/-- The kind of an operand does not depend on its signs. -/
theorem Kind.ofText_signed {c : Char} (hc : IsOperandStart c) (n : Nat) (t : List Char) :
    Kind.ofText (minuses n ++ c :: t) =
      if c :: t = [variableChar] then .var
      else if (c :: t).all isNameLetter then .function else .number := by
  have operand : Kind.ofOperand (minuses n ++ c :: t) =
      if c :: t = [variableChar] then .var
      else if (c :: t).all isNameLetter then .function else .number := by
    simp only [Kind.ofOperand, Text.unsigned_minuses_append hc.ne_minus, ne_eq, reduceCtorEq,
      not_false_eq_true, true_and]
  rw [← operand]
  -- only a text of one character is looked at as an operator or a bracket
  obtain - | ⟨- | n⟩ := n
  · cases t with
    | nil =>
      simp only [minuses_zero, List.nil_append, Kind.ofText, hc.1, hc.2.1, hc.2.2, if_false,
        Bool.false_eq_true]
    | cons d t => rfl
  · rfl
  · rfl

theorem Kind.ofText_number (n : Nat) (k : Numeral) :
    Kind.ofText (minuses n ++ k.point) = .number := by
  have digit : isNameLetter k.first = false := by
    rw [Bool.eq_false_iff]
    intro letter
    have := CharClass.isDigit_eq_false_of_isNameLetter letter
    exact absurd k.first_ok (Bool.eq_false_iff.mp this)
  have var : k.first ≠ variableChar := CharClass.ne_of_holds (by decide) k.first_ok
  rw [Numeral.point, List.cons_append, Kind.ofText_signed (isOperandStart_of_isDigit k.first_ok)]
  rw [if_neg fun h => var (List.cons.inj h).1, List.all_cons, digit, Bool.false_and,
    if_neg Bool.false_ne_true]

theorem Kind.ofText_var (n : Nat) : Kind.ofText (minuses n ++ [variableChar]) = .var := by
  rw [Kind.ofText_signed (isOperandStart_of_isNameLetter (by decide)), if_pos rfl]

theorem Kind.ofText_name (n : Nat) (f : FunctionName) :
    Kind.ofText (minuses n ++ f.letters) = .function := by
  have letters : (f.first :: f.rest).all isNameLetter = true := by
    rw [List.all_cons, f.first_ok, Bool.true_and, List.all_eq_true]
    exact f.rest_ok
  rw [FunctionName.letters, Kind.ofText_signed (isOperandStart_of_isNameLetter f.first_ok),
    if_neg fun h => f.first_ne (List.cons.inj h).1, if_pos letters]

theorem Kind.ofText_operator (o : Operator) : Kind.ofText [o.symbol] = .operator := by
  cases o <;> decide

end Token

/-! ## Numerals are literals -/

namespace Decimal

theorem span_isDigit {ds : List Char} (hd : ∀ c ∈ ds, c.isDigit = true) (rest : List Char)
    (hr : ∀ c ∈ rest.head?, c.isDigit = false) :
    (ds ++ rest).takeWhile Char.isDigit = ds ∧ (ds ++ rest).dropWhile Char.isDigit = rest := by
  rw [List.takeWhile_append_of_pos hd, List.dropWhile_append_of_pos hd]
  cases rest with
  | nil => exact ⟨List.append_nil ds, rfl⟩
  | cons c rest =>
    have stop : ¬ c.isDigit = true := Bool.eq_false_iff.mp (hr c rfl)
    rw [List.takeWhile_cons_of_neg stop, List.dropWhile_cons_of_neg stop, List.append_nil]
    exact ⟨rfl, rfl⟩

theorem splitSign_of_isDigit {c : Char} (hc : c.isDigit = true) (t : List Char) :
    splitSign (c :: t) = (false, c :: t) := by
  unfold splitSign
  split
  · next h => exact absurd (List.cons.inj h).1 (CharClass.ne_of_holds (by decide) hc)
  · next h => exact absurd (List.cons.inj h).1 (CharClass.ne_of_holds (by decide) hc)
  · rfl

theorem splitPoint_point (k : Numeral) :
    splitPoint k.point = (k.first :: k.digits, (k.fraction.map Fraction.digits).getD [], []) := by
  have whole : ∀ c ∈ k.first :: k.digits, c.isDigit = true :=
    List.forall_mem_cons.mpr ⟨k.first_ok, k.digits_ok⟩
  rw [Numeral.point, splitPoint]
  cases k.fraction with
  | none =>
    obtain ⟨taken, dropped⟩ := span_isDigit whole [] fun c hc => nomatch hc
    rw [Option.map_none, Option.getD_none, taken, dropped]
    rfl
  | some f =>
    obtain ⟨taken, dropped⟩ := span_isDigit whole f.point fun c hc => by cases hc; rfl
    obtain ⟨digits, nothing⟩ := span_isDigit f.digits_ok [] fun c hc => nomatch hc
    rw [List.append_nil] at digits nothing
    rw [Option.map_some, Option.getD_some, taken, dropped]
    simp only [Fraction.point, digits, nothing, Option.map_some, Option.getD_some]

theorem literal?_point (k : Numeral) : (literal? k.point).isSome = true := by
  have unsigned : (unsigned? k.point).isSome = true := by
    rw [unsigned?, splitPoint_point]
    simp [exponent?]
  have sign : splitSign k.point = (false, k.point) := splitSign_of_isDigit k.first_ok _
  rw [literal?, sign]
  simp only [Option.isSome_map, Option.isSome_or, unsigned, Bool.or_true]

end Decimal

/-! ## Lexemes -/

/-- What a lexeme of a phrase with the function names `fs` looks like. -/
inductive Piece (fs : List FunctionName) : List Char → Prop
  | number (n : Nat) (k : Numeral) : Piece fs (minuses n ++ k.point)
  | var (n : Nat) : Piece fs (minuses n ++ [variableChar])
  | name (n : Nat) {f : FunctionName} (hf : f ∈ fs) : Piece fs (minuses n ++ f.letters)
  | operator (o : Operator) : Piece fs [o.symbol]
  | opening : Piece fs ['(']
  | closing : Piece fs [')']

theorem Piece.mono {fs gs : List FunctionName} {u : List Char} (h : Piece fs u)
    (hs : ∀ f ∈ fs, f ∈ gs) : Piece gs u := by
  cases h with
  | number n k => exact .number n k
  | var n => exact .var n
  | name n hf => exact .name n (hs _ hf)
  | operator o => exact .operator o
  | opening => exact .opening
  | closing => exact .closing

theorem Piece.known {fs : List FunctionName} {u : List Char} (h : Piece fs u)
    (hf : ∀ f ∈ fs, Registry.isKnown f.letters = true) (i : Nat) :
    (Token.ofLexeme ⟨u, i⟩).Known := by
  unfold Token.Known Token.ofLexeme
  cases h with
  | number n k =>
    rw [Token.Kind.ofText_number]
    show (Action.number? (minuses n ++ k.point)).isSome = true
    rw [Action.number?, Text.unsigned_point, Option.isSome_map]
    exact Decimal.literal?_point k
  | var n =>
    rw [Token.Kind.ofText_var]
    trivial
  | @name n f hm =>
    rw [Token.Kind.ofText_name]
    show Registry.isKnown (Text.unsigned (minuses n ++ f.letters)) = true
    rw [Text.unsigned_letters]
    exact hf f hm
  | operator o =>
    rw [Token.Kind.ofText_operator]
    show (Operator.ofChar? o.symbol).isSome = true
    rw [Operator.ofChar?_symbol]
    rfl
  | opening => trivial
  | closing => trivial

/-- The lowest level of an operator that a phrase may show outside its brackets; a term shows
none. -/
def Category.level : Category → Nat
  | .term => 3
  | .expression => 0

namespace Phrase

theorem piece_of_mem_lexemes {c : Category} (φ : Phrase c) {b : Nat} {u : List Char}
    (h : u ∈ φ.lexemes b) : Piece φ.names u := by
  induction φ generalizing b with
  | number n k =>
    obtain rfl := List.mem_singleton.mp h
    exact .number _ k
  | var n =>
    obtain rfl := List.mem_singleton.mp h
    exact .var _
  | call n f a ih =>
    simp only [lexemes, List.mem_cons, List.mem_append, List.not_mem_nil, or_false] at h
    rcases h with rfl | rfl | h | rfl
    · exact .name _ List.mem_cons_self
    · exact .opening
    · exact (ih h).mono fun g hg => List.mem_cons_of_mem f hg
    · exact .closing
  | group n a ih =>
    simp only [lexemes, List.mem_cons, List.mem_append, List.not_mem_nil, or_false] at h
    rcases h with rfl | h | rfl
    · exact .opening
    · exact ih h
    · exact .closing
  | single t ih => exact ih h
  | chain e o t ihe iht =>
    simp only [lexemes, List.mem_cons, List.mem_append] at h
    rcases h with h | rfl | h
    · exact (ihe h).mono fun g hg => List.mem_append_left _ hg
    · exact .operator o
    · exact (iht h).mono fun g hg => List.mem_append_right _ hg

theorem exists_mem_lexemes {c : Category} (φ : Phrase c) (b : Nat) {f : FunctionName}
    (hf : f ∈ φ.names) : ∃ n, minuses n ++ f.letters ∈ φ.lexemes b := by
  induction φ generalizing b with
  | number | var => cases hf
  | call n g a ih =>
    rcases List.mem_cons.mp hf with rfl | hf
    · exact ⟨b + n, List.mem_cons_self⟩
    · obtain ⟨m, hm⟩ := ih 0 hf
      exact ⟨m, .tail _ (.tail _ (List.mem_append_left _ hm))⟩
  | group n a ih =>
    obtain ⟨m, hm⟩ := ih (b + n) hf
    exact ⟨m, .tail _ (List.mem_append_left _ hm)⟩
  | single t ih => exact ih b hf
  | chain e o t ihe iht =>
    rcases List.mem_append.mp hf with hf | hf
    · obtain ⟨m, hm⟩ := ihe b hf
      exact ⟨m, List.mem_append_left _ hm⟩
    · obtain ⟨m, hm⟩ := iht 0 hf
      exact ⟨m, List.mem_append_right _ (.tail _ hm)⟩

/-- The tokens of a phrase write a tree. -/
theorem exists_writes {c : Category} (φ : Phrase c) {b : Nat} {ls : List Lexeme}
    (h : ls.map Lexeme.text = φ.lexemes b) : ∃ T, Writes c.level (ls.map Token.ofLexeme) T := by
  have kind {l : Lexeme} {u k} (hu : l.text = u) (hk : Token.Kind.ofText u = k) :
      (Token.ofLexeme l).kind = k := (congrArg _ hu).trans hk
  induction φ generalizing b ls with
  | number n k =>
    obtain ⟨l, rfl, hl⟩ := List.map_eq_singleton_iff.mp h
    exact ⟨_, .number (kind hl (Token.Kind.ofText_number _ k))⟩
  | var n =>
    obtain ⟨l, rfl, hl⟩ := List.map_eq_singleton_iff.mp h
    exact ⟨_, .var (kind hl (Token.Kind.ofText_var _))⟩
  | call n f a ih =>
    obtain ⟨l, ls, rfl, hl, h⟩ := List.map_eq_cons_iff.mp h
    obtain ⟨o, ls, rfl, ho, h⟩ := List.map_eq_cons_iff.mp h
    obtain ⟨inner, last, rfl, hi, h⟩ := List.map_eq_append_iff.mp h
    obtain ⟨c, rfl, hc⟩ := List.map_eq_singleton_iff.mp h
    obtain ⟨T, hT⟩ := ih hi
    rw [List.map_cons, List.map_cons, List.map_append]
    exact ⟨_, .call (kind hl (Token.Kind.ofText_name _ f)) (kind ho rfl) (kind hc rfl) hT⟩
  | group n a ih =>
    obtain ⟨o, ls, rfl, ho, h⟩ := List.map_eq_cons_iff.mp h
    obtain ⟨inner, last, rfl, hi, h⟩ := List.map_eq_append_iff.mp h
    obtain ⟨c, rfl, hc⟩ := List.map_eq_singleton_iff.mp h
    obtain ⟨T, hT⟩ := ih hi
    rw [List.map_cons, List.map_append]
    exact ⟨_, .group (kind ho rfl) (kind hc rfl) hT⟩
  | single t ih =>
    obtain ⟨T, hT⟩ := ih h
    exact ⟨T, hT.mono (Nat.zero_le 3)⟩
  | chain e o t ihe iht =>
    obtain ⟨le, ls, rfl, he, h⟩ := List.map_eq_append_iff.mp h
    obtain ⟨lo, lt, rfl, ho, ht⟩ := List.map_eq_cons_iff.mp h
    obtain ⟨E, hE⟩ := ihe he
    obtain ⟨T, hT⟩ := iht ht
    have symbol : Operator.ofText? (Token.ofLexeme lo).text = some o := by
      show Operator.ofText? lo.text = some o
      rw [ho]
      exact Operator.ofChar?_symbol o
    rw [List.map_append, List.map_cons]
    exact hE.extend (kind ho (Token.Kind.ofText_operator o)) symbol (Nat.zero_le _) hT

end Phrase

end FunctionCalculator
