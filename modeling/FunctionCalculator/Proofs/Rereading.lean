import FunctionCalculator.Proofs.Completion
import FunctionCalculator.Proofs.Meaning
import FunctionCalculator.Proofs.Placeless

/-!
# The displayed forms of an expression

An expression is displayed as its normal form and as the listing of its tokens. Blanks apart, both
are its lexemes one after the other. These are the text of a phrase again, of the one whose signs
all stand on operands and whose decimal separators are points.

What is proved:
  1. `Phrase.text_settled`, `Phrase.lexemes_settled`: the lexemes of a phrase, one after the other,
     are the text of the settled phrase, and its lexemes are the same.
  2. `shown_normalForm`, `shown_listing`: what the displayed forms show.
  3. `rereads`: both forms are read as the same lexemes, and become an expression with the same
     tokens in postorder and the same values.
-/

namespace FunctionCalculator

/-! ## Settled phrases -/

def Fraction.settled (f : Fraction) : Fraction := ⟨'.', f.digits, by decide, f.digits_ok⟩

def Numeral.settled (n : Numeral) : Numeral :=
  { n with fraction := n.fraction.map Fraction.settled }

theorem Numeral.text_settled (n : Numeral) : n.settled.text = n.point := by
  rw [text, point, settled, Option.map_map]
  rfl

theorem Numeral.point_settled (n : Numeral) : n.settled.point = n.point := by
  rw [point, point, settled, Option.map_map]
  rfl

namespace Phrase

/-- The phrase that a reader of the lexemes finds: `b` signs in front and those before brackets
have gone to the operands that they wait for. -/
def settled {c : Category} (b : Nat) : Phrase c → Phrase c
  | number n k => number (b + n) k.settled
  | var n => var (b + n)
  | call n f a => call (b + n) f (a.settled 0)
  | group n a => group 0 (a.settled (b + n))
  | single t => single (t.settled b)
  | chain e o t => chain (e.settled b) o (t.settled 0)

theorem text_settled {c : Category} (φ : Phrase c) (b : Nat) :
    (φ.settled b).text = (φ.lexemes b).flatten := by
  induction φ generalizing b with
  | number n k => simp [settled, text, lexemes, Numeral.text_settled]
  | var n => simp [settled, text, lexemes]
  | call n f a ih => simp [settled, text, lexemes, ih]
  | group n a ih => simp [settled, text, lexemes, ih, minuses_zero]
  | single t ih => exact ih b
  | chain e o t ihe iht => simp [settled, text, lexemes, ihe, iht]

theorem lexemes_settled {c : Category} (φ : Phrase c) (b : Nat) :
    (φ.settled b).lexemes 0 = φ.lexemes b := by
  induction φ generalizing b with
  | number n k => simp only [settled, lexemes, Nat.zero_add, Numeral.point_settled]
  | var n => simp only [settled, lexemes, Nat.zero_add]
  | call n f a ih => simp only [settled, lexemes, Nat.zero_add, ih]
  | group n a ih => simp only [settled, lexemes, Nat.zero_add, ih]
  | single t ih => exact ih b
  | chain e o t ihe iht => simp only [settled, lexemes, ihe, iht]

theorem dependsOnX_settled {c : Category} (φ : Phrase c) (b : Nat) :
    (φ.settled b).dependsOnX = φ.dependsOnX := by
  induction φ generalizing b with
  | number | var => rfl
  | call n f a ih => exact ih 0
  | group n a ih => exact ih (b + n)
  | single t ih => exact ih b
  | chain e o t ihe iht => simp only [settled, dependsOnX, ihe, iht]

end Phrase

/-! ## Phrases have no blanks -/

namespace Text

theorem isBlank_eq_false {c : Char} (h : 33 ≤ c.toNat ∧ c.toNat ≤ 126) : isBlank c = false := by
  simp [isBlank, blankRanges]
  omega

theorem isBlank_of_isDigit {c : Char} (h : c.isDigit = true) : isBlank c = false := by
  have : 48 ≤ c.toNat ∧ c.toNat ≤ 57 := Char.isDigit_iff_toNat.mp h
  exact isBlank_eq_false (by omega)

theorem isBlank_of_isNameLetter {c : Char} (h : isNameLetter c = true) : isBlank c = false := by
  rcases Lexeme.CharClass.toNat_of_isNameLetter h with upper | lower | rfl
  · exact isBlank_eq_false (by omega)
  · exact isBlank_eq_false (by omega)
  · decide

theorem isBlank_of_isSeparator {c : Char} (h : isSeparator c = true) : isBlank c = false := by
  simp only [isSeparator, Bool.or_eq_true, decide_eq_true_eq] at h
  rcases h with rfl | rfl <;> decide

theorem isBlank_symbol (o : Operator) : isBlank o.symbol = false := by
  cases o <;> decide

theorem shown_eq_self {u : List Char} (h : ∀ c ∈ u, isBlank c = false) : shown u = u :=
  List.filter_eq_self.mpr fun c hc => by rw [h c hc]; rfl

end Text

theorem Numeral.isBlank_of_mem {n : Numeral} {c : Char} (h : c ∈ n.text) :
    Text.isBlank c = false := by
  rcases n.isDigit_or_isSeparator h with digit | separator
  · exact Text.isBlank_of_isDigit digit
  · exact Text.isBlank_of_isSeparator separator

theorem FunctionName.isBlank_of_mem {f : FunctionName} {c : Char} (h : c ∈ f.letters) :
    Text.isBlank c = false := by
  rcases List.mem_cons.mp h with rfl | h
  · exact Text.isBlank_of_isNameLetter f.first_ok
  · exact Text.isBlank_of_isNameLetter (f.rest_ok c h)

theorem isBlank_of_mem_minuses {n : Nat} {c : Char} (h : c ∈ minuses n) :
    Text.isBlank c = false := by
  rw [List.eq_of_mem_replicate h]
  decide

theorem Phrase.isBlank_of_mem {c : Category} (φ : Phrase c) {d : Char} (h : d ∈ φ.text) :
    Text.isBlank d = false := by
  have bracketed {a : Phrase .expression} (ih : d ∈ a.text → Text.isBlank d = false)
      (h : d ∈ '(' :: (a.text ++ [')'])) : Text.isBlank d = false := by
    simp only [List.mem_cons, List.mem_append, List.not_mem_nil, or_false] at h
    rcases h with rfl | h | rfl
    · decide
    · exact ih h
    · decide
  induction φ with
  | number n k =>
    rcases List.mem_append.mp h with h | h
    · exact isBlank_of_mem_minuses h
    · exact Numeral.isBlank_of_mem h
  | var n =>
    rcases List.mem_append.mp h with h | h
    · exact isBlank_of_mem_minuses h
    · rw [List.mem_singleton.mp h]
      decide
  | call n f a ih =>
    simp only [text, List.mem_append] at h
    rcases h with (h | h) | h
    · exact isBlank_of_mem_minuses h
    · exact FunctionName.isBlank_of_mem h
    · exact bracketed ih h
  | group n a ih =>
    rcases List.mem_append.mp h with h | h
    · exact isBlank_of_mem_minuses h
    · exact bracketed ih h
  | single t ih => exact ih h
  | chain e o t ihe iht =>
    simp only [text, List.mem_append, List.mem_cons] at h
    rcases h with h | rfl | h
    · exact ihe h
    · exact Text.isBlank_symbol o
    · exact iht h

theorem Phrase.shown_text {c : Category} (φ : Phrase c) : Text.shown φ.text = φ.text :=
  Text.shown_eq_self fun _ => φ.isBlank_of_mem

/-! ## What the displayed forms show -/

open Lexeme (Reading shown_append)

theorem shown_blank (t : List Char) : Text.shown (' ' :: t) = Text.shown t := rfl

theorem shown_spaced (t : List Char) : Text.shown (Lexeme.spaced t) = Text.shown t := by
  unfold Lexeme.spaced
  split
  · next c =>
    split
    · rw [shown_blank, ← List.singleton_append, shown_append, shown_blank]
      exact List.append_nil _
    · rfl
  · rfl

theorem shown_normalForm (ls : List Lexeme) :
    Text.shown (Lexeme.normalForm ls) = Text.shown (ls.map Lexeme.text).flatten := by
  induction ls with
  | nil => rfl
  | cons l ls ih =>
    rw [Lexeme.normalForm] at ih ⊢
    rw [List.flatMap_cons, List.map_cons, List.flatten_cons, shown_append, shown_append, ih,
      shown_spaced]

theorem shown_intercalate (us : List (List Char)) :
    Text.shown ([' '].intercalate us) = Text.shown us.flatten := by
  induction us with
  | nil => rfl
  | cons u us ih =>
    cases us with
    | nil => simp [List.intercalate]
    | cons v us =>
      rw [List.flatten_cons, shown_append, ← ih]
      simp [List.intercalate, List.intersperse, shown_append, shown_blank]

theorem shown_listing (ls : List Lexeme) :
    Text.shown (Token.listing (ls.map Token.ofLexeme)) =
      Text.shown (ls.map Lexeme.text).flatten := by
  rw [Token.listing, shown_intercalate, List.map_map]
  rfl

/-! ## Reading them again -/

/-- Reading a text that shows the lexemes of a phrase, one after the other. -/
theorem exists_reread {φ : Phrase .expression} {u : List Char}
    (h : Text.shown u = Text.shown (φ.lexemes 0).flatten) :
    ∃ r, Reading.ofChars u = .ok r ∧ r.lexemes.map Lexeme.text = φ.lexemes 0 ∧
      r.dependsOnX = φ.dependsOnX := by
  have text : (φ.settled 0).text = Text.shown u := by
    rw [h, ← φ.text_settled, Phrase.shown_text]
  have read := Lexeme.View.read_text (φ.settled 0)
  rw [text, φ.lexemes_settled, φ.dependsOnX_settled] at read
  exact Reading.ofChars_of_read read

theorem exists_reread_displayed {s u : List Char} {r : Reading} (h : Reading.ofChars s = .ok r)
    (hu : u ∈ [Lexeme.normalForm r.lexemes, Token.listing (r.lexemes.map Token.ofLexeme)]) :
    ∃ r', Reading.ofChars u = .ok r' ∧
      r'.lexemes.map Lexeme.text = r.lexemes.map Lexeme.text ∧ r'.dependsOnX = r.dependsOnX := by
  obtain ⟨φ, -, lexemes, mark⟩ := Reading.ofChars_eq_ok h
  have shows : Text.shown u = Text.shown (φ.lexemes 0).flatten := by
    simp only [List.mem_cons, List.not_mem_nil, or_false] at hu
    rcases hu with rfl | rfl
    · rw [shown_normalForm, lexemes]
    · rw [shown_listing, lexemes]
  obtain ⟨r', hr', texts, mark'⟩ := exists_reread shows
  exact ⟨r', hr', texts.trans lexemes.symm, mark'.trans mark.symm⟩

theorem normalForm_eq {ls ls' : List Lexeme} (h : ls'.map Lexeme.text = ls.map Lexeme.text) :
    Lexeme.normalForm ls' = Lexeme.normalForm ls := by
  have shape (ls : List Lexeme) :
      Lexeme.normalForm ls = (ls.map Lexeme.text).flatMap Lexeme.spaced := by
    rw [Lexeme.normalForm, List.flatMap_map]
  rw [shape, shape, h]

namespace Expression

/-- A text whose lexemes are those of an expression becomes the same expression but for positions.
-/
theorem exists_same {s u : List Char} {e : Expression} {r r' : Reading} (h : ofChars s = .ok e)
    (hr : Reading.ofChars s = .ok r) (hr' : Reading.ofChars u = .ok r')
    (texts : r'.lexemes.map Lexeme.text = r.lexemes.map Lexeme.text)
    (mark : r'.dependsOnX = r.dependsOnX) :
    ∃ e', ofChars u = .ok e' ∧ e'.dependsOnX = e.dependsOnX ∧
      e'.postorder.map Token.bare = e.postorder.map Token.bare ∧
      ∀ x, e'.value x = e.value x ∧ e'.value? x = e.value? x := by
  exact exists_alike Token.inert_bare h hr hr'
    ((Token.map_bare texts).trans (Token.map_bare rfl).symm) mark

/-- The displayed forms of a text that is read are read as the same lexemes, so that the normal form
is its own normal form. If the text becomes an expression, they become one with the same program
but for positions, and with the same values. -/
theorem rereads {s : String} {r : Reading} (h : Reading.ofChars s.toList = .ok r) :
    (∀ u ∈ [Lexeme.normalForm r.lexemes, Token.listing (r.lexemes.map Token.ofLexeme)],
      ∃ r', Reading.ofChars u = .ok r' ∧
        r'.lexemes.map Lexeme.text = r.lexemes.map Lexeme.text ∧ r'.dependsOnX = r.dependsOnX ∧
        Lexeme.normalForm r'.lexemes = Lexeme.normalForm r.lexemes) ∧
    ∀ e, ofString s = .ok e → ∀ u ∈ [e.derivation.normalForm, e.derivation.tokens],
      ∃ e', ofString u = .ok e' ∧ e'.dependsOnX = e.dependsOnX ∧
        e'.postorder.map (fun t => (t.text, t.kind)) =
          e.postorder.map (fun t => (t.text, t.kind)) ∧
        ∀ x, e'.value x = e.value x ∧ e'.value? x = e.value? x := by
  constructor
  · intro u hu
    obtain ⟨r', hr', texts, same⟩ := exists_reread_displayed h hu
    exact ⟨r', hr', texts, same, normalForm_eq texts⟩
  · intro e he u hu
    obtain ⟨-, normalForm, tokens⟩ := fields_of_reading he h
    have form : u.toList ∈
        [Lexeme.normalForm r.lexemes, Token.listing (r.lexemes.map Token.ofLexeme)] := by
      rw [normalForm, tokens] at hu
      simp only [List.mem_cons, List.not_mem_nil, or_false] at hu ⊢
      rcases hu with rfl | rfl
      · exact .inl String.toList_ofList
      · exact .inr String.toList_ofList
    obtain ⟨r', hr', texts, same⟩ := exists_reread_displayed h form
    obtain ⟨e', he', mark', tokens', value⟩ := exists_same he h hr' texts same
    refine ⟨e', he', mark', ?_, value⟩
    have pairs (ts : List Token) : ts.map (fun t => (t.text, t.kind)) =
        (ts.map Token.bare).map fun t => (t.text, t.kind) := by
      rw [List.map_map]
      rfl
    rw [pairs, tokens', ← pairs]

/-- The sign in front of the bracket is displayed on the number, and is read there. -/
theorem rereads_sign_before_bracket :
    ∃ r e, Reading.ofChars "-(1,5+x)".toList = .ok r ∧ ofString "-(1,5+x)" = .ok e ∧
      e.derivation.normalForm = "(-1.5 + x)" ∧
      (∃ r', Reading.ofChars (Lexeme.normalForm r.lexemes) = .ok r' ∧
        r'.lexemes.map Lexeme.text = r.lexemes.map Lexeme.text) ∧
      ∃ e', ofString e.derivation.normalForm = .ok e' ∧ ∀ x, e'.value? x = e.value? x := by
  obtain ⟨again, compiled⟩ := rereads (s := "-(1,5+x)") rfl
  obtain ⟨r', hr', texts, -⟩ := again _ List.mem_cons_self
  obtain ⟨e', he', -, -, value⟩ := compiled _ rfl _ List.mem_cons_self
  exact ⟨_, _, rfl, rfl, by decide +kernel, ⟨r', hr', texts⟩, e', he', fun x => (value x).2⟩

end Expression

end FunctionCalculator
