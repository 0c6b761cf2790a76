import FunctionCalculator.Proofs.Provenance
import FunctionCalculator.Proofs.Refusal
import FunctionCalculator.Proofs.Rereading
import Mathlib.Data.List.TakeWhile

/-!
# Where an unknown function is reported

An unknown function is reported at the index of its first sign, and one further for each of its
signs. This is the place of the name if nothing but signs stands between.

What is proved:
  1. `Cut.exists_operand`: a piece is the signs of the beginning of a stretch of the text and the
     operand behind them, as its lexeme is.
  2. `Signs.exists_gap`, `Cut.exists_place`: where that operand begins in the text.
  3. `unknownFunction_place`: the place of the name and the index that is reported.
     `unknownFunction_misplaced`: they may differ.
-/

namespace FunctionCalculator

/-! ## Signs and operand of a piece -/

namespace Lexeme

theorem kept_eq_minus_iff {c : Char} : kept c = '-' ↔ c = '-' := by
  unfold kept
  split
  · next separator =>
    refine iff_of_false (by decide) ?_
    rintro rfl
    exact absurd separator (by decide)
  · exact Iff.rfl

theorem eq_of_kept {c d : Char} (h : kept c = d) (hd : d ≠ '.') : c = d := by
  unfold kept at h
  split at h
  · exact absurd h.symm hd
  · exact h

theorem Signs.head?_append {w : List (Char × Nat)} (h : Signs w) (b : List (Char × Nat)) :
    (minusesOf w ++ b).head? = (w ++ b).head? := by
  cases w with
  | nil => rfl
  | cons p w =>
    rw [minusesOf, List.filter_cons_of_pos (isSign_iff.mpr (h.first p rfl))]
    rfl

variable {u q : List (Char × Nat)}

theorem Cut.exists_operand (h : Cut u q) :
    ∃ v w b z, u = v ++ (w ++ b) ++ z ∧ Signs w ∧
      (ofPiece q).position = ((w ++ b).head?.map Prod.snd).getD 0 ∧
      (Text.signs (ofPiece q).text).length = (minusesOf w).length ∧
      Text.unsigned (ofPiece q).text = b.map fun p => kept p.1 := by
  obtain ⟨v, w, b, z, rfl, hw, rfl⟩ := h
  -- signs may stand on both sides of the last bracket
  have signs : ∀ p ∈ b.takeWhile isSign, isSign p = true := fun p hp => List.mem_takeWhile_imp hp
  have before : ∀ c ∈ (minusesOf w).map fun p => kept p.1, (c == '-') = true := by
    intro c hc
    obtain ⟨p, hp, rfl⟩ := List.mem_map.mp hc
    exact beq_iff_eq.mpr (kept_eq_minus_iff.mpr (isSign_iff.mp (List.of_mem_filter hp)))
  have test : ((· == '-') ∘ fun p : Char × Nat => kept p.1) = isSign := by
    funext p
    rw [Bool.eq_iff_iff, Function.comp_apply, beq_iff_eq, kept_eq_minus_iff, isSign_iff]
  refine ⟨v, w ++ b.takeWhile isSign, b.dropWhile isSign, z, ?_,
    hw.append fun p hp => isSign_iff.mp (signs p hp), ?_, ?_, ?_⟩
  · rw [List.append_assoc w, List.takeWhile_append_dropWhile, List.append_assoc v]
  · rw [List.append_assoc w, List.takeWhile_append_dropWhile, ← hw.head?_append]
    rfl
  · rw [Text.signs, ofPiece, List.map_append, List.takeWhile_append_of_pos before,
      List.takeWhile_map, test, minusesOf_append, minusesOf, minusesOf,
      List.filter_eq_self.mpr signs, List.length_append, List.length_append, List.length_map,
      List.length_map]
  · rw [Text.unsigned, ofPiece, List.map_append, List.dropWhile_append_of_pos before,
      List.dropWhile_map, test]

theorem length_minusesOf (w : List (Char × Nat)) :
    (minusesOf w).length = (w.map Prod.fst).count '-' := by
  rw [minusesOf, ← List.countP_eq_length_filter, List.count, List.countP_map]
  rfl

/-- Where a stretch begins in the text, and where the operand behind its signs does: between them
stands a gap that shows nothing but the signs and brackets. -/
theorem Signs.exists_gap {s : List Char} {v w b z : List (Char × Nat)} {p : Char × Nat}
    (hw : Signs w) (hp : Text.isBlank p.1 = false)
    (split : Text.visible s = v ++ (w ++ p :: b) ++ z) :
    ∃ u g r, s = u ++ g ++ p.1 :: r ∧ Text.shown g = w.map Prod.fst ∧
      (∀ c ∈ g.head?, c = '-') ∧ Text.shown r = (b ++ z).map Prod.fst ∧
      u.length = ((w ++ p :: b).head?.map Prod.snd).getD 0 := by
  cases w with
  | nil =>
    rw [List.nil_append, List.append_assoc, List.cons_append] at split
    obtain ⟨u, r, rfl, index, -, behind⟩ := Text.exists_of_visible_eq split
    refine ⟨u, [], r, by rw [List.append_nil], rfl, ?_, behind, index⟩
    exact fun c none => absurd none (Option.not_mem_none c)
  | cons m w =>
    rw [List.append_assoc, List.cons_append, List.cons_append, List.append_assoc,
      List.cons_append] at split
    obtain ⟨u, r, rfl, index, -, behind⟩ := Text.exists_of_visible_eq split
    rw [List.map_append, List.map_cons] at behind
    obtain ⟨g, r', rfl, gap, rest⟩ := (Text.shown_eq_append_cons_iff hp).mp behind
    have sign : m.1 = '-' := hw.first m rfl
    refine ⟨u, m.1 :: g, r', by simp, ?_, ?_, rest, index⟩
    · rw [Text.shown_cons (by rw [sign]; rfl), gap, List.map_cons]
    · rintro c ⟨⟩
      exact sign

/-- Where the operand of a piece stands in the text, if it is a name: behind a gap of signs, blanks
and brackets that begins with the first of the signs. -/
theorem Cut.exists_place {s : List Char} (h : Cut (Text.visible s) q)
    (hne : Text.unsigned (ofPiece q).text ≠ [])
    (letters : ∀ c ∈ Text.unsigned (ofPiece q).text, isNameLetter c = true) :
    ∃ u g v, s = u ++ g ++ v ∧ (∀ c ∈ Text.shown g, c = '-' ∨ c = '(') ∧
      (∀ c ∈ g.head?, c = '-') ∧ v.head? = (Text.unsigned (ofPiece q).text).head? ∧
      Text.unsigned (ofPiece q).text <+: Text.shown v ∧
      (ofPiece q).position + (Text.signs (ofPiece q).text).length = u.length + g.count '-' := by
  obtain ⟨v, w, b, z, split, hw, position, signs, operand⟩ := h.exists_operand
  -- letters are kept as they are written
  have same : Text.unsigned (ofPiece q).text = b.map Prod.fst := by
    rw [operand]
    refine List.map_congr_left fun p hp => (eq_of_kept rfl ?_).symm
    have letter := letters (kept p.1) (operand ▸ List.mem_map_of_mem hp)
    intro point
    rw [point] at letter
    exact absurd letter (by decide)
  rw [position, signs, length_minusesOf]
  rw [same] at hne letters ⊢
  obtain ⟨p, b, rfl⟩ := List.exists_cons_of_ne_nil (mt (fun h => h ▸ rfl) hne : b ≠ [])
  have blank : Text.isBlank p.1 = false :=
    Text.isBlank_of_isNameLetter (letters p.1 List.mem_cons_self)
  obtain ⟨u, g, r, rfl, gap, first, behind, index⟩ := hw.exists_gap blank split
  refine ⟨u, g, p.1 :: r, rfl, ?_, first, rfl, ?_, ?_⟩
  · rw [gap]
    intro c hc
    obtain ⟨a, ha, rfl⟩ := List.mem_map.mp hc
    exact hw.marks a ha
  · rw [Text.shown_cons blank, behind, List.map_append]
    exact List.prefix_append ((p :: b).map Prod.fst) _
  · rw [index, ← gap, count_shown (by decide)]

/-- Reading a text, no name is looked up. -/
theorem Reading.cause_of_error {s : List Char} {e : SyntaxError} (h : ofChars s = .error e)
    (n : List Char) : e.cause ≠ .unknownFunction n := by
  have refused : refusal? s = some e := by
    rw [refusal?, h]
  cases hs : Configuration.scan {} (Text.visible s) with
  | error stop =>
    rw [refusal?_of_stop hs] at refused
    cases refused
    obtain ⟨u, c, v, k, -, -, -, ha⟩ := Configuration.exists_stop hs
    rcases Configuration.error_of_advance ha with ⟨error, -⟩ | ⟨error, -⟩ <;> rw [error] <;> simp
  | ok k =>
    rw [refusal?_of_scan hs, endRefusal?] at refused
    split at refused
    · cases refused
      simp
    · split_ifs at refused <;> cases refused <;> simp

end Lexeme

theorem Token.Kind.letters_of_function {t : List Char} (h : Kind.ofText t = .function) :
    Text.unsigned t ≠ [] ∧ ∀ c ∈ Text.unsigned t, isNameLetter c = true := by
  have operand : Kind.ofOperand t = .function := by
    unfold ofText at h
    split at h
    · split_ifs at h
      exact h
    · exact h
  simp only [ofOperand] at operand
  split_ifs at operand with _ letters
  exact ⟨letters.1, List.all_eq_true.mp letters.2⟩

namespace Expression

open Lexeme (Reading)

theorem ofChars_eq_unknownFunction {s n : List Char} {p : Nat}
    (h : ofChars s = .error ⟨.unknownFunction n, p⟩) :
    ∃ (r : Reading) (l : Lexeme), Reading.ofChars s = .ok r ∧ l ∈ r.lexemes ∧
      Token.Kind.ofText l.text = .function ∧ n = Text.unsigned l.text ∧
      p = l.position + (Text.signs l.text).length := by
  unfold ofChars at h
  cases hr : Reading.ofChars s with
  | error e =>
    rw [hr] at h
    cases h
    exact absurd rfl (Reading.cause_of_error hr n)
  | ok r =>
    simp only [hr, ofReading] at h
    split at h
    · next unknown =>
      cases h
      obtain ⟨t, found, same⟩ := Option.map_eq_some_iff.mp unknown
      cases same
      obtain ⟨l, hl, rfl⟩ := List.mem_map.mp (List.mem_of_find?_eq_some found)
      have test := List.find?_some found
      rw [Bool.and_eq_true, beq_iff_eq] at test
      exact ⟨r, l, rfl, hl, test.1, rfl, rfl⟩
    · cases h

/-- At the index `p` of a text a name begins, blanks aside. -/
def PointsAt (s : List Char) (p : Nat) (n : List Char) : Prop :=
  s[p]? = n.head? ∧ n <+: Text.shown (s.drop p)

/-- A name behind a gap is met by counting the signs of the gap exactly if there is nothing else. -/
theorem pointsAt_iff {u g v n : List Char} (letters : ∀ c ∈ n, isNameLetter c = true)
    (gap : ∀ c ∈ Text.shown g, c = '-' ∨ c = '(') (head : v.head? = n.head?)
    (name : n <+: Text.shown v) :
    PointsAt (u ++ g ++ v) (u.length + g.count '-') n ↔ ∀ c ∈ g, c = '-' := by
  constructor
  · rintro ⟨place, -⟩
    by_contra other
    have short : g.count '-' < g.length := by
      refine lt_of_le_of_ne List.count_le_length fun all => other fun c hc => ?_
      exact (List.count_eq_length.mp all c hc).symm
    -- the index falls into the gap, where no letter stands
    rw [List.append_assoc, List.getElem?_append_right (Nat.le_add_right _ _),
      Nat.add_sub_cancel_left, List.getElem?_append_left short,
      List.getElem?_eq_getElem short] at place
    have letter := letters _ (List.mem_of_mem_head? place.symm)
    have shown : g[g.count '-'] ∈ Text.shown g := by
      refine List.mem_filter.mpr ⟨List.getElem_mem short, ?_⟩
      rw [Text.isBlank_of_isNameLetter letter]
      rfl
    rcases gap _ shown with mark | mark <;> rw [mark] at letter <;> exact absurd letter (by decide)
  · intro all
    have count : g.count '-' = g.length := List.count_eq_length.mpr fun c hc => (all c hc).symm
    rw [PointsAt, count, ← List.length_append, ← List.head?_drop, List.drop_left]
    exact ⟨head, name⟩

/-- An unknown function is reported as many places behind its first sign as it has signs. This is
the place of the name exactly if there is nothing but signs between. -/
theorem unknownFunction_place {s : String} {n : List Char} {p : Nat}
    (h : ofString s = .error ⟨.unknownFunction n, p⟩) :
    ∃ u g v, s.toList = u ++ g ++ v ∧ (∀ c ∈ Text.shown g, c = '-' ∨ c = '(') ∧
      (∀ c ∈ g.head?, c = '-') ∧ n ≠ [] ∧ v.head? = n.head? ∧ n <+: Text.shown v ∧
      p = u.length + g.count '-' ∧ (PointsAt s.toList p n ↔ ∀ c ∈ g, c = '-') := by
  obtain ⟨r, l, hr, hl, kind, rfl, rfl⟩ := ofChars_eq_unknownFunction h
  obtain ⟨qs, lexemes, cut⟩ := Reading.exists_pieces hr
  rw [lexemes] at hl
  obtain ⟨q, hq, rfl⟩ := List.mem_map.mp hl
  obtain ⟨nonempty, letters⟩ := Token.Kind.letters_of_function kind
  obtain ⟨u, g, v, text, gap, first, head, name, place⟩ := (cut q hq).exists_place nonempty letters
  refine ⟨u, g, v, text, gap, first, nonempty, head, name, place, ?_⟩
  rw [place, text]
  exact pointsAt_iff letters gap head name

theorem unknownFunction_place_signs :
    ofString "2*--foo(x)" = .error ⟨.unknownFunction "foo".toList, 4⟩ ∧
      ∃ u g v, "2*--foo(x)".toList = u ++ g ++ v ∧ 4 = u.length + g.count '-' ∧
        (PointsAt "2*--foo(x)".toList 4 "foo".toList ↔ ∀ c ∈ g, c = '-') := by
  have reported : ofString "2*--foo(x)" = .error ⟨.unknownFunction "foo".toList, 4⟩ := by rfl
  obtain ⟨u, g, v, text, -, -, -, -, -, place, points⟩ := unknownFunction_place reported
  exact ⟨reported, u, g, v, text, place, points⟩

/-- A bracket between the sign and the name takes the place of the name. -/
theorem unknownFunction_misplaced :
    ofString "-(foo(1))" = .error ⟨.unknownFunction "foo".toList, 1⟩ ∧
      ¬ PointsAt "-(foo(1))".toList 1 "foo".toList := by
  refine ⟨rfl, fun points => ?_⟩
  exact absurd points.1 (by decide)

end Expression

end FunctionCalculator
