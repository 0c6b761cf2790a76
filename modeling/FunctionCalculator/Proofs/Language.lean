import FunctionCalculator.Expression
import FunctionCalculator.Proofs.PhraseTokens
import FunctionCalculator.Proofs.Recognition

/-!
# The language of expressions

Blanks apart, a text is read exactly if a phrase derives it, and becomes an expression exactly if
the registry knows all function names of that phrase.

What is proved:
  1. `ofChars_eq_ok`, `exists_ofChars`: reading a text against the phrases that derive it.
  2. `unknownFunction?_eq_none_iff`: the check of the names against the names of the phrase.
  3. `accepts_iff`: both languages, for every text.
-/

namespace FunctionCalculator

namespace Lexeme.Reading

theorem ofChars_eq_ok {s : List Char} {r : Reading} (h : ofChars s = .ok r) :
    ∃ φ : Phrase .expression, φ.text = Text.shown s ∧
      r.lexemes.map Lexeme.text = φ.lexemes 0 ∧ r.dependsOnX = φ.dependsOnX := by
  obtain ⟨φ, text, same⟩ := View.read_eq_some_iff.mp (read_of_ofChars h)
  exact ⟨φ, text, congrArg Prod.fst same, congrArg Prod.snd same⟩

theorem exists_ofChars {s : List Char} {φ : Phrase .expression} (h : φ.text = Text.shown s) :
    ∃ r, ofChars s = .ok r ∧ r.lexemes.map Lexeme.text = φ.lexemes 0 := by
  obtain ⟨r, hr, texts, -⟩ := ofChars_of_read (h ▸ View.read_text φ)
  exact ⟨r, hr, texts⟩

end Lexeme.Reading

namespace Expression

open Lexeme (Reading)

theorem unknownFunction?_eq_none_iff {φ : Phrase .expression} {ls : List Lexeme}
    (h : ls.map Lexeme.text = φ.lexemes 0) :
    unknownFunction? (ls.map Token.ofLexeme) = none ↔
      ∀ f ∈ φ.names, Registry.isKnown f.letters = true := by
  rw [unknownFunction?, Option.map_eq_none_iff, List.find?_eq_none]
  constructor
  · intro passed f hf
    obtain ⟨n, hn⟩ := φ.exists_mem_lexemes 0 hf
    rw [← h] at hn
    obtain ⟨l, hl, text⟩ := List.mem_map.mp hn
    have token := passed _ (List.mem_map_of_mem hl)
    have kind : (Token.ofLexeme l).kind = .function :=
      (congrArg _ text).trans (Token.Kind.ofText_name n f)
    have name : Text.unsigned (Token.ofLexeme l).text = f.letters :=
      (congrArg _ text).trans (Text.unsigned_letters n f)
    simpa [kind, name] using token
  · intro known t ht
    obtain ⟨l, hl, rfl⟩ := List.mem_map.mp ht
    have member : l.text ∈ φ.lexemes 0 := h ▸ List.mem_map_of_mem hl
    have token : (Token.ofLexeme l).Known := (φ.piece_of_mem_lexemes member).known known l.position
    intro unknown
    rw [Bool.and_eq_true, beq_iff_eq] at unknown
    rw [Token.Known, unknown.1] at token
    rw [token] at unknown
    exact absurd unknown.2 (by decide)

theorem ofReading_eq_ok {r : Reading} {e : Expression} (h : ofReading r = .ok e) :
    unknownFunction? (r.lexemes.map Token.ofLexeme) = none ∧
      e.program = Program.ofTokens (Token.postorder (r.lexemes.map Token.ofLexeme)) := by
  simp only [ofReading] at h
  split at h
  · cases h
  · next passed =>
    cases h
    exact ⟨passed, rfl⟩

theorem exists_ofReading_iff {r : Reading} :
    (∃ e, ofReading r = .ok e) ↔ unknownFunction? (r.lexemes.map Token.ofLexeme) = none := by
  constructor
  · intro ⟨e, h⟩
    exact (ofReading_eq_ok h).1
  · intro passed
    simp only [ofReading, passed]
    exact ⟨_, rfl⟩

theorem ofChars_eq_ok {s : List Char} {e : Expression} (h : ofChars s = .ok e) :
    ∃ r, Reading.ofChars s = .ok r ∧ ofReading r = .ok e := by
  unfold ofChars at h
  split at h
  · next r hr => exact ⟨r, hr, h⟩
  · cases h

theorem fields_of_reading {s : List Char} {e : Expression} {r : Reading} (h : ofChars s = .ok e)
    (hr : Reading.ofChars s = .ok r) :
    e.dependsOnX = r.dependsOnX ∧
      e.derivation.normalForm = String.ofList (Lexeme.normalForm r.lexemes) ∧
      e.derivation.tokens = String.ofList (Token.listing (r.lexemes.map Token.ofLexeme)) := by
  rw [ofChars, hr] at h
  simp only [ofReading] at h
  split at h
  · cases h
  · cases h
    exact ⟨rfl, rfl, rfl⟩

theorem exists_ofChars_iff {s : List Char} {φ : Phrase .expression} (h : φ.text = Text.shown s) :
    (∃ e, ofChars s = .ok e) ↔ ∀ f ∈ φ.names, Registry.isKnown f.letters = true := by
  obtain ⟨r, hr, texts⟩ := Reading.exists_ofChars h
  rw [← unknownFunction?_eq_none_iff texts, ← exists_ofReading_iff, ofChars, hr]

/-- A text is read exactly if it is a phrase but for its blanks, and it becomes an expression
exactly if the registry knows the names in that phrase. -/
theorem accepts_iff (s : String) :
    ((∃ r, Reading.ofChars s.toList = .ok r) ↔
      ∃ φ : Phrase .expression, φ.text = Text.shown s.toList) ∧
    ((∃ e, ofString s = .ok e) ↔
      ∃ φ : Phrase .expression, φ.text = Text.shown s.toList ∧
        ∀ f ∈ φ.names, Registry.isKnown f.letters = true) ∧
    ∀ φ : Phrase .expression, φ.text = Text.shown s.toList →
      ((∃ e, ofString s = .ok e) ↔ ∀ f ∈ φ.names, Registry.isKnown f.letters = true) := by
  refine ⟨⟨?_, ?_⟩, ⟨?_, ?_⟩, fun φ h => exists_ofChars_iff h⟩
  · intro ⟨r, hr⟩
    obtain ⟨φ, text, -⟩ := Reading.ofChars_eq_ok hr
    exact ⟨φ, text⟩
  · intro ⟨φ, text⟩
    obtain ⟨r, hr, -⟩ := Reading.exists_ofChars text
    exact ⟨r, hr⟩
  · intro ⟨e, he⟩
    obtain ⟨r, hr, -⟩ := ofChars_eq_ok he
    obtain ⟨φ, text, -⟩ := Reading.ofChars_eq_ok hr
    exact ⟨φ, text, (exists_ofChars_iff text).mp ⟨e, he⟩⟩
  · intro ⟨φ, text, known⟩
    exact (exists_ofChars_iff text).mpr known

end Expression

end FunctionCalculator
