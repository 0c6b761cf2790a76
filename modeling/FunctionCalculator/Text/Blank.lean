/-!
# Blank characters

The Unicode property White_Space. Blanks may stand anywhere in an expression and are skipped,
inside numbers and names too.
-/

namespace FunctionCalculator.Text

/-- The ranges of code points with the property White_Space, in increasing order. -/
def blankRanges : List (Nat × Nat) :=
  [(0x0009, 0x000D), (0x0020, 0x0020), (0x0085, 0x0085), (0x00A0, 0x00A0), (0x1680, 0x1680),
   (0x2000, 0x200A), (0x2028, 0x2029), (0x202F, 0x202F), (0x205F, 0x205F), (0x3000, 0x3000)]

def isBlank (c : Char) : Bool :=
  blankRanges.any fun r => r.1 ≤ c.toNat && c.toNat ≤ r.2

/-- What a text shows: its characters other than blanks, each with its index in the text. -/
def visible (s : List Char) : List (Char × Nat) :=
  s.zipIdx.filter fun p => !isBlank p.1

theorem isBlank_of_isWhitespace {c : Char} (h : c.isWhitespace = true) : isBlank c = true := by
  simp only [Char.isWhitespace, Bool.or_eq_true, decide_eq_true_eq] at h
  rcases h with ((rfl | rfl) | rfl) | rfl <;> decide

/-- The ranges hold 25 code points. -/
example : (blankRanges.map fun r => r.2 + 1 - r.1).sum = 25 := by decide

end FunctionCalculator.Text
