import FunctionCalculator.Symbol

/-!
# The grammar of expressions

A phrase is a derivation in the grammar

    expression = term (operator term)*
    term       = '-'* (numeral | 'x' | name '(' expression ')' | '(' expression ')')
    numeral    = digit+ (('.' | ',') digit*)?
    name       = a letter other than 'x', then any letters

Its text is what it derives. Its lexemes are the pieces the reading automaton makes of that text:
the signs in front of a bracket are not lost there, they wait for the operand that comes first
inside it.
-/

namespace FunctionCalculator

/-- A decimal separator and the digits behind it, if any. -/
structure Fraction where
  separator : Char
  digits : List Char
  separator_ok : isSeparator separator = true
  digits_ok : ∀ c ∈ digits, c.isDigit = true

/-- Digits, at least one, perhaps with a fraction. -/
structure Numeral where
  first : Char
  digits : List Char
  fraction : Option Fraction
  first_ok : first.isDigit = true
  digits_ok : ∀ c ∈ digits, c.isDigit = true

/-- A name of letters. The variable's letter may stand in it, but not first. -/
structure FunctionName where
  first : Char
  rest : List Char
  first_ok : isNameLetter first = true
  first_ne : first ≠ variableChar
  rest_ok : ∀ c ∈ rest, isNameLetter c = true

inductive Category where
  | term
  | expression

/-- A derivation; each term with the number of its signs. -/
inductive Phrase : Category → Type where
  | number (signs : Nat) (n : Numeral) : Phrase .term
  | var (signs : Nat) : Phrase .term
  | call (signs : Nat) (f : FunctionName) (argument : Phrase .expression) : Phrase .term
  | group (signs : Nat) (inner : Phrase .expression) : Phrase .term
  | single (t : Phrase .term) : Phrase .expression
  | chain (e : Phrase .expression) (o : Operator) (t : Phrase .term) : Phrase .expression

def minuses (n : Nat) : List Char := List.replicate n '-'

theorem minuses_zero : minuses 0 = [] := rfl

theorem minuses_succ (n : Nat) : minuses (n + 1) = '-' :: minuses n := List.replicate_succ

theorem minuses_append (m n : Nat) : minuses m ++ minuses n = minuses (m + n) :=
  List.replicate_append_replicate

theorem minuses_append_singleton (n : Nat) : minuses n ++ ['-'] = minuses (n + 1) :=
  minuses_append n 1

namespace Fraction

def text (f : Fraction) : List Char := f.separator :: f.digits

/-- A fraction as the automaton keeps it: behind a point. -/
def point (f : Fraction) : List Char := '.' :: f.digits

end Fraction

namespace Numeral

def text (n : Numeral) : List Char :=
  n.first :: n.digits ++ (n.fraction.map Fraction.text).getD []

def point (n : Numeral) : List Char :=
  n.first :: n.digits ++ (n.fraction.map Fraction.point).getD []

theorem isDigit_or_isSeparator {n : Numeral} {c : Char} (h : c ∈ n.text) :
    c.isDigit = true ∨ isSeparator c = true := by
  obtain ⟨d, ds, fraction, hd, hds⟩ := n
  simp only [text, List.cons_append, List.mem_cons, List.mem_append] at h
  rcases h with rfl | h | h
  · exact .inl hd
  · exact .inl (hds c h)
  · cases fraction with
    | none => cases h
    | some f =>
      rcases List.mem_cons.mp h with rfl | h
      · exact .inr f.separator_ok
      · exact .inl (f.digits_ok c h)

end Numeral

def FunctionName.letters (f : FunctionName) : List Char := f.first :: f.rest

namespace Phrase

/-- The text that a phrase derives. -/
def text {c : Category} : Phrase c → List Char
  | number n k => minuses n ++ k.text
  | var n => minuses n ++ [variableChar]
  | call n f a => minuses n ++ f.letters ++ '(' :: (a.text ++ [')'])
  | group n a => minuses n ++ '(' :: (a.text ++ [')'])
  | single t => t.text
  | chain e o t => e.text ++ o.symbol :: t.text

def names {c : Category} : Phrase c → List FunctionName
  | number _ _ | var _ => []
  | call _ f a => f :: a.names
  | group _ a => a.names
  | single t => t.names
  | chain e _ t => e.names ++ t.names

/-- Whether the variable stands in a phrase as an operand. -/
def dependsOnX {c : Category} : Phrase c → Bool
  | number _ _ => false
  | var _ => true
  | call _ _ a => a.dependsOnX
  | group _ a => a.dependsOnX
  | single t => t.dependsOnX
  | chain e _ t => e.dependsOnX || t.dependsOnX

/-- The texts of the lexemes of a phrase in front of which `b` signs still wait for an operand. -/
def lexemes {c : Category} (b : Nat) : Phrase c → List (List Char)
  | number n k => [minuses (b + n) ++ k.point]
  | var n => [minuses (b + n) ++ [variableChar]]
  | call n f a => (minuses (b + n) ++ f.letters) :: ['('] :: (a.lexemes 0 ++ [[')']])
  | group n a => ['('] :: (a.lexemes (b + n) ++ [[')']])
  | single t => t.lexemes b
  | chain e o t => e.lexemes b ++ [o.symbol] :: t.lexemes 0

end Phrase

end FunctionCalculator
