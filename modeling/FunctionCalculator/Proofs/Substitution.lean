import FunctionCalculator.Proofs.FloatSign
import FunctionCalculator.Proofs.Noninterference
import FunctionCalculator.Proofs.Rereading

/-!
# A number for the variable

An `x` that stands as an operand may be replaced by a number. The automaton takes other states for
it, its token is of another kind and the program pushes a constant, but the grouping is the same,
and so is the value where `x` has the value of the number.

What is proved:
  1. `Phrase.text_substitute`, `Text.shown_substitute`: to replace the letter in a text is to
     replace the variable in its phrase.
  2. `Writes.substitute`, `Tree.value?_substitute`: the tokens write the same tree with a number at
     each of its variables, and this tree has the value of the other at the number.
  3. `Expression.substitute_number`: both for the expression of a text.
-/

namespace FunctionCalculator

/-! ## In a text -/

namespace Text

/-- The text `t` behind the text `u`, with `n` for each `x` that does not go on with a name. -/
def substitute (n u : List Char) : List Char → List Char
  | [] => []
  | c :: t =>
    (if c = variableChar ∧ Lexeme.endsInName (shown u) = false then n else [c]) ++
      substitute n (u ++ [c]) t

variable {n u v : List Char}

theorem substitute_append (n u v w : List Char) :
    substitute n u (v ++ w) = substitute n u v ++ substitute n (u ++ v) w := by
  induction v generalizing u with
  | nil => rw [List.append_nil, List.nil_append, substitute, List.nil_append]
  | cons c v ih =>
    rw [List.cons_append, substitute, substitute, ih, List.append_assoc, List.append_assoc,
      List.singleton_append]

theorem substitute_of_not_mem (h : variableChar ∉ v) : substitute n u v = v := by
  induction v generalizing u with
  | nil => rfl
  | cons c v ih =>
    obtain ⟨other, rest⟩ := not_or.mp (mt List.mem_cons.mpr h)
    rw [substitute, if_neg fun same => other same.1.symm, ih rest, List.singleton_append]

theorem shown_shown (t : List Char) : shown (shown t) = shown t :=
  shown_eq_self fun c hc => by simpa using (List.mem_filter.mp hc).2

theorem shown_substitute (hn : ∀ c ∈ n, isBlank c = false) (u t : List Char) :
    shown (substitute n u t) = substitute n (shown u) (shown t) := by
  induction t generalizing u with
  | nil => rfl
  | cons c t ih =>
    rw [substitute, Lexeme.shown_append, ih, Lexeme.shown_concat]
    cases hc : isBlank c with
    | true =>
      have other : c ≠ variableChar := by
        rintro rfl
        exact absurd hc (by decide)
      have nothing (v : List Char) : shown (c :: v) = shown v :=
        List.filter_cons_of_neg (by simp [hc])
      rw [if_neg fun same => other same.1, nothing, nothing, if_pos rfl, List.append_nil]
      rfl
    | false =>
      have piece : shown (if c = variableChar ∧ Lexeme.endsInName (shown u) = false then n else [c])
          = if c = variableChar ∧ Lexeme.endsInName (shown u) = false then n else [c] := by
        split
        · exact shown_eq_self hn
        · rw [shown_cons hc]
          rfl
      rw [piece, shown_cons hc, substitute, shown_shown, if_neg Bool.false_ne_true]

/-- No letter stands at the end of a text, its blanks aside. -/
def Apart (u : List Char) : Prop := (shown u).rtakeWhile isNameLetter = []

theorem Apart.concat {c : Char} (blank : isBlank c = false) (letter : isNameLetter c = false)
    (u : List Char) : Apart (u ++ [c]) := by
  rw [Apart, Lexeme.shown_concat, blank, if_neg Bool.false_ne_true]
  exact List.rtakeWhile_concat_neg _ _ _ (Bool.eq_false_iff.mp letter)

theorem Apart.minuses (h : Apart u) (n : Nat) : Apart (u ++ minuses n) := by
  cases n with
  | zero => rwa [minuses_zero, List.append_nil]
  | succ n =>
    rw [← minuses_append_singleton, ← List.append_assoc]
    exact .concat (by decide) (by decide) _

theorem Apart.substitute_variable (h : Apart u) (n : List Char) :
    substitute n u [variableChar] = n := by
  have operand : Lexeme.endsInName (shown u) = false := by
    rw [Lexeme.endsInName, h]
    rfl
  rw [substitute, if_pos ⟨rfl, operand⟩]
  exact List.append_nil n

theorem EndsInName.letter {c : Char} (h : EndsInName u) (hc : isNameLetter c = true) :
    EndsInName (u ++ [c]) := by
  obtain ⟨t, f, rfl, ht⟩ := h
  have letters := List.forall_mem_append.mpr ⟨f.rest_ok, List.forall_mem_singleton.mpr hc⟩
  refine ⟨t, ⟨f.first, f.rest ++ [c], f.first_ok, f.first_ne, letters⟩, ?_, ht⟩
  simp [FunctionName.letters]

theorem EndsInName.substitute_letters {cs : List Char} (h : EndsInName (shown u))
    (letters : ∀ c ∈ cs, isNameLetter c = true) : substitute n u cs = cs := by
  induction cs generalizing u with
  | nil => rfl
  | cons c cs ih =>
    obtain ⟨letter, rest⟩ := List.forall_mem_cons.mp letters
    have next : EndsInName (shown (u ++ [c])) := by
      rw [Lexeme.shown_concat, isBlank_of_isNameLetter letter, if_neg Bool.false_ne_true]
      exact h.letter letter
    have inside : ¬ (c = variableChar ∧ Lexeme.endsInName (shown u) = false) := by
      rw [Lexeme.endsInName_iff.mpr h]
      simp
    rw [substitute, if_neg inside, ih next rest, List.singleton_append]

/-- A name stays as it is, be there an `x` in it or not. -/
theorem Apart.substitute_letters (h : Apart u) (f : FunctionName) :
    substitute n u f.letters = f.letters := by
  have begun : EndsInName (shown (u ++ [f.first])) := by
    rw [Lexeme.shown_concat, isBlank_of_isNameLetter f.first_ok, if_neg Bool.false_ne_true,
      ← Lexeme.endsInName_iff, Lexeme.endsInName_letter f.first_ok, h]
    simp [f.first_ne]
  rw [FunctionName.letters, substitute, if_neg fun same => f.first_ne same.1,
    begun.substitute_letters f.rest_ok, List.singleton_append]

end Text

theorem variable_not_mem_minuses (n : Nat) : variableChar ∉ minuses n := by
  intro member
  exact absurd (List.eq_of_mem_replicate member) (by decide)

theorem Numeral.variable_not_mem_text (k : Numeral) : variableChar ∉ k.text := by
  intro member
  rcases k.isDigit_or_isSeparator member with digit | separator
  · exact absurd digit (by decide)
  · exact absurd separator (by decide)

/-! ## In a phrase -/

namespace Phrase

variable {c : Category}

/-- The phrase with a numeral for the variable. -/
def substitute (k : Numeral) {c : Category} : Phrase c → Phrase c
  | number n m => number n m
  | var n => number n k
  | call n f a => call n f (a.substitute k)
  | group n a => group n (a.substitute k)
  | single t => single (t.substitute k)
  | chain e o t => chain (e.substitute k) o (t.substitute k)

theorem names_substitute (k : Numeral) (φ : Phrase c) : (φ.substitute k).names = φ.names := by
  induction φ with
  | number | var => rfl
  | call n f a ih => exact congrArg (f :: ·) ih
  | group n a ih => exact ih
  | single t ih => exact ih
  | chain e o t ihe iht => simp only [substitute, names, ihe, iht]

/-- The letter is the variable of the phrase, if no letter stands in front of the phrase. -/
theorem text_substitute (k : Numeral) (φ : Phrase c) {u : List Char} (hu : Text.Apart u) :
    (φ.substitute k).text = Text.substitute k.text u φ.text := by
  have sign (n : Nat) (u : List Char) : Text.substitute k.text u (minuses n) = minuses n :=
    Text.substitute_of_not_mem (variable_not_mem_minuses n)
  have other {d : Char} (hd : d ≠ variableChar) (u : List Char) :
      Text.substitute k.text u [d] = [d] :=
    Text.substitute_of_not_mem (mt List.mem_singleton.mp hd.symm)
  have bracketed {a : Phrase .expression} {v : List Char}
      (ih : ∀ {u}, Text.Apart u → (a.substitute k).text = Text.substitute k.text u a.text) :
      Text.substitute k.text v ('(' :: (a.text ++ [')'])) =
        '(' :: ((a.substitute k).text ++ [')']) := by
    have inside : Text.Apart (v ++ ['(']) := .concat (by decide) (by decide) v
    rw [← List.singleton_append, Text.substitute_append, Text.substitute_append,
      other (by decide), other (by decide), ih inside, List.singleton_append]
  induction φ generalizing u with
  | number n m =>
    rw [text, Text.substitute_append, sign, Text.substitute_of_not_mem m.variable_not_mem_text]
    rfl
  | var n =>
    rw [text, Text.substitute_append, sign, (hu.minuses n).substitute_variable]
    rfl
  | call n f a ih =>
    rw [text, Text.substitute_append, Text.substitute_append, sign,
      (hu.minuses n).substitute_letters, bracketed ih]
    rfl
  | group n a ih =>
    rw [text, Text.substitute_append, sign, bracketed ih]
    rfl
  | single t ih => exact ih hu
  | chain e o t ihe iht =>
    have symbol : o.symbol ≠ variableChar := by cases o <;> decide
    have behind : Text.Apart (u ++ e.text ++ [o.symbol]) :=
      .concat (Text.isBlank_symbol o) (by cases o <;> decide) _
    rw [text, ← List.singleton_append, Text.substitute_append, Text.substitute_append,
      other symbol, ← ihe hu, ← iht behind]
    rfl

/-- An `x` in a name stays. -/
example : Text.substitute "2".toList [] "x*exp(x)".toList = "2*exp(2)".toList := by decide

end Phrase

/-! ## In the tokens -/

namespace Text

theorem signs_append {m : List Char} (hm : ∀ c ∈ m, c = '-') {d : Char} (hd : d ≠ '-')
    (t : List Char) : signs (m ++ d :: t) = m ∧ unsigned (m ++ d :: t) = d :: t := by
  have marks : ∀ c ∈ m, (c == '-') = true := fun c hc => beq_iff_eq.mpr (hm c hc)
  constructor
  · rw [signs, List.takeWhile_append_of_pos marks, List.takeWhile_cons_of_neg (by simpa using hd),
      List.append_nil]
  · rw [unsigned, List.dropWhile_append_of_pos marks,
      List.dropWhile_cons_of_neg (by simpa using hd)]

theorem signs_append_point (t : List Char) (k : Numeral) :
    signs (signs t ++ k.point) = signs t ∧ unsigned (signs t ++ k.point) = k.point :=
  signs_append (fun _ hc => beq_iff_eq.mp (List.mem_takeWhile_imp (p := (· == '-')) hc))
    (isOperandStart_of_isDigit k.first_ok).ne_minus _

end Text

namespace Token

/-- The token with a number for the variable, behind the same signs. -/
def substitute (k : Numeral) (t : Token) : Token :=
  if t.kind = .var then { t with text := Text.signs t.text ++ k.point, kind := .number } else t

variable {k : Numeral} {t : Token}

theorem substitute_var (h : t.kind = .var) :
    t.substitute k = { t with text := Text.signs t.text ++ k.point, kind := .number } :=
  if_pos h

theorem substitute_of_kind (k : Numeral) {κ : Kind} (h : t.kind = κ) (hκ : κ ≠ .var) :
    t.substitute k = t :=
  if_neg (h ▸ hκ)

theorem kind_substitute_ne (k : Numeral) (t : Token) : (t.substitute k).kind ≠ .var := by
  by_cases h : t.kind = .var
  · rw [substitute_var h]
    exact Kind.noConfusion
  · rwa [substitute_of_kind k rfl h]

theorem map_bare_substitute (k : Numeral) (ts : List Token) :
    (ts.map (substitute k)).map bare = (ts.map bare).map (substitute k) := by
  rw [List.map_map, List.map_map]
  refine List.map_congr_left fun t _ => ?_
  by_cases h : t.kind = .var
  · rw [Function.comp, Function.comp, substitute_var h, substitute_var (t := t.bare) h]
    rfl
  · rw [Function.comp, Function.comp, substitute_of_kind k rfl h,
      substitute_of_kind (t := t.bare) k rfl h]

theorem substitute_ofText (k : Numeral) {u : List Char} {κ : Kind} (h : Kind.ofText u = κ)
    (hκ : κ ≠ .var) : (ofText u).substitute k = ofText u :=
  substitute_of_kind (t := ofText u) k h hκ

theorem substitute_ofText_var (n : Nat) (k : Numeral) :
    (ofText (minuses n ++ [variableChar])).substitute k = ofText (minuses n ++ k.point) := by
  have kind : (ofText (minuses n ++ [variableChar])).kind = .var := Kind.ofText_var n
  have signs : Text.signs (minuses n ++ [variableChar]) = minuses n :=
    (Text.signs_append (fun _ => List.eq_of_mem_replicate) (by decide) []).1
  rw [substitute_var kind]
  simp only [ofText, ofLexeme, signs, Kind.ofText_number]

end Token

theorem Phrase.tokens_substitute {c : Category} (k : Numeral) (φ : Phrase c) (b : Nat) :
    ((φ.substitute k).lexemes b).map Token.ofText =
      ((φ.lexemes b).map Token.ofText).map (Token.substitute k) := by
  have opening : (Token.ofText ['(']).substitute k = Token.ofText ['('] := rfl
  have closing : (Token.ofText [')']).substitute k = Token.ofText [')'] := rfl
  induction φ generalizing b with
  | number n m =>
    have number := Token.substitute_ofText k (Token.Kind.ofText_number (b + n) m) (by decide)
    simp only [substitute, lexemes, List.map_cons, List.map_nil, number]
  | var n =>
    simp only [substitute, lexemes, List.map_cons, List.map_nil, Token.substitute_ofText_var]
  | call n f a ih =>
    have name := Token.substitute_ofText k (Token.Kind.ofText_name (b + n) f) (by decide)
    simp only [substitute, lexemes, List.map_cons, List.map_append, List.map_nil, ih, name,
      opening, closing]
  | group n a ih =>
    simp only [substitute, lexemes, List.map_cons, List.map_append, List.map_nil, ih, opening,
      closing]
  | single t ih => exact ih b
  | chain e o t ihe iht =>
    have operator := Token.substitute_ofText k (Token.Kind.ofText_operator o) (by decide)
    simp only [substitute, lexemes, List.map_cons, List.map_append, ihe, iht, operator]

/-! ## In the tree -/

namespace Tree

def substitute (k : Numeral) : Tree → Tree
  | number t => number t
  | var t => number (t.substitute k)
  | function t a => function t (a.substitute k)
  | operator t l r => operator t (l.substitute k) (r.substitute k)

theorem postorder_substitute (k : Numeral) {T : Tree} (hT : T.Typed) :
    (T.substitute k).postorder = T.postorder.map (Token.substitute k) := by
  induction T with
  | number t => exact (congrArg ([·]) (Token.substitute_of_kind k hT (by decide))).symm
  | var t => rfl
  | function t a ih =>
    have name := Token.substitute_of_kind k hT.1 (by decide)
    simp only [substitute, postorder, ih hT.2, List.map_append, List.map_cons, List.map_nil, name]
  | operator t l r ihl ihr =>
    have operator := Token.substitute_of_kind k hT.1 (by decide)
    simp only [substitute, postorder, ihl hT.2.1, ihr hT.2.2, List.map_append, List.map_cons,
      List.map_nil, operator]

/-- A number has the value that the variable has there, behind the same signs. -/
theorem value?_substitute {k : Numeral} {v : Float} (hv : Decimal.literal? k.point = some v)
    {T : Tree} (hT : T.Typed) (y : Float) : (T.substitute k).value? y = T.value? v := by
  induction T with
  | number t => rfl
  | var t =>
    obtain ⟨signs, operand⟩ := Text.signs_append_point t.text k
    have number : Action.number? (Text.signs t.text ++ k.point) =
        some (signed (Text.isNegative t.text) v) := by
      rw [Action.number?, operand, hv, Text.isNegative, signs]
      rfl
    rw [substitute, Token.substitute_var hT, value?_number, number]
    rfl
  | function t a ih => simp only [substitute, value?, ih hT.2]
  | operator t l r ihl ihr => simp only [substitute, value?, ihl hT.2.1, ihr hT.2.2]

/-- No value where the variable is not finite and occurs. -/
theorem value?_eq_none {v : Float} (hv : v.isFinite = false) {T : Tree} (hT : T.Typed)
    (h : ∃ t ∈ T.postorder, t.kind = .var) : T.value? v = none := by
  induction T with
  | number t =>
    obtain ⟨t, ht, kind⟩ := h
    obtain rfl := List.mem_singleton.mp ht
    exact absurd (kind.symm.trans hT) Token.Kind.noConfusion
  | var t =>
    have infinite : (signed (Text.isNegative t.text) v).isFinite = false := by
      unfold signed
      split
      · rw [FloatSign.isFinite_neg, hv]
      · exact hv
    rw [value?_var, finite?, infinite, if_neg Bool.false_ne_true]
  | function t a ih =>
    obtain ⟨u, hu, kind⟩ := h
    have argument : a.value? v = none := by
      rcases List.mem_append.mp hu with hu | hu
      · exact ih hT.2 ⟨u, hu, kind⟩
      · obtain rfl := List.mem_singleton.mp hu
        exact absurd (kind.symm.trans hT.1) Token.Kind.noConfusion
    simp [value?, argument]
  | operator t l r ihl ihr =>
    obtain ⟨u, hu, kind⟩ := h
    have operand : l.value? v = none ∨ r.value? v = none := by
      rcases List.mem_append.mp hu with hu | hu
      · rcases List.mem_append.mp hu with hu | hu
        · exact .inl (ihl hT.2.1 ⟨u, hu, kind⟩)
        · exact .inr (ihr hT.2.2 ⟨u, hu, kind⟩)
      · obtain rfl := List.mem_singleton.mp hu
        exact absurd (kind.symm.trans hT.1) Token.Kind.noConfusion
    rw [value?]
    rcases operand with left | right
    · simp [left]
    · simp [right]

end Tree

/-- The tokens with a number for the variable are grouped as they are. -/
theorem Writes.substitute {p : Nat} {ts : List Token} {T : Tree} (k : Numeral)
    (h : Writes p ts T) : Writes p (ts.map (Token.substitute k)) (T.substitute k) := by
  induction h with
  | number hk =>
    rw [List.map_singleton, Token.substitute_of_kind k hk (by decide)]
    exact .number hk
  | var hk => exact .number (congrArg Token.kind (Token.substitute_var hk))
  | call hk ho hc _ ih =>
    have name := Token.substitute_of_kind k hk (by decide)
    have opening := Token.substitute_of_kind k ho (by decide)
    have closing := Token.substitute_of_kind k hc (by decide)
    rw [List.map_cons, List.map_cons, List.map_append, List.map_singleton, name, opening, closing]
    exact .call hk ho hc ih
  | group ho hc _ ih =>
    have opening := Token.substitute_of_kind k ho (by decide)
    have closing := Token.substitute_of_kind k hc (by decide)
    rw [List.map_cons, List.map_append, List.map_singleton, opening, closing]
    exact .group ho hc ih
  | operator hk ho hp _ _ ihl ihr =>
    have operator := Token.substitute_of_kind k hk (by decide)
    rw [List.map_append, List.map_cons, operator]
    exact .operator hk ho hp ihl ihr

/-! ## In an expression -/

namespace Expression

open Lexeme (Reading)

def substituted (s : String) (k : Numeral) : String :=
  String.ofList (Text.substitute k.text [] s.toList)

theorem text_substituted {s : String} {φ : Phrase .expression} (k : Numeral)
    (h : φ.text = Text.shown s.toList) :
    (φ.substitute k).text = Text.shown (substituted s k).toList := by
  have apart : Text.Apart [] := rfl
  rw [substituted, String.toList_ofList, Text.shown_substitute fun _ => Numeral.isBlank_of_mem, ← h,
    φ.text_substitute k apart]
  rfl

/-- The lexemes of the phrase with a numeral write the tree with a number, positions aside. -/
theorem bare_substitute {k : Numeral} {φ : Phrase .expression} {ls ls' : List Lexeme}
    {T T' : Tree} (texts : ls.map Lexeme.text = φ.lexemes 0)
    (texts' : ls'.map Lexeme.text = (φ.substitute k).lexemes 0)
    (hT : Writes 0 (ls.map Token.ofLexeme) T) (hT' : Writes 0 (ls'.map Token.ofLexeme) T') :
    T'.map Token.bare = (T.substitute k).map Token.bare := by
  have tokens := (hT.substitute k).bare
  have tokens' := hT'.bare
  rw [Token.map_bare_substitute, Token.map_bare texts, ← φ.tokens_substitute] at tokens
  rw [Token.map_bare texts'] at tokens'
  exact tokens'.unique tokens

/-- An expression all of whose tokens come from a replacement does not depend on the variable. -/
theorem dependsOnX_eq_false {s : List Char} {e : Expression} {k : Numeral} {ts : List Token}
    (h : ofChars s = .ok e)
    (shape : e.postorder.map Token.bare = (ts.map (Token.substitute k)).map Token.bare) :
    e.dependsOnX = false := by
  rw [Bool.eq_false_iff, Ne, dependsOnX_iff_mem h]
  rintro ⟨t, ht, kind⟩
  have member : t.bare ∈ (ts.map (Token.substitute k)).map Token.bare :=
    shape ▸ List.mem_map_of_mem ht
  rw [List.map_map] at member
  obtain ⟨u, -, bare⟩ := List.mem_map.mp member
  exact Token.kind_substitute_ne k u ((congrArg Token.kind bare).trans kind)

/-- To write a number for each `x` of a text that stands as an operand is to evaluate the text
there: the text becomes an expression that does not depend on the variable, of the same shape, and
has everywhere the value that it had at the number. Neither has a value if the number is not finite
and there is an `x`. -/
theorem substitute_number {s : String} {e : Expression} (h : ofString s = .ok e) (k : Numeral) :
    ∃ v e', Decimal.literal? k.point = some v ∧ ofString (substituted s k) = .ok e' ∧
      e'.dependsOnX = false ∧
      e'.postorder.map Token.bare = (e.postorder.map (Token.substitute k)).map Token.bare ∧
      (∀ y, e'.value y = e.value v ∧ e'.value? y = e.value? v) ∧
      (v.isFinite = false → e.dependsOnX = true →
        e.value? v = none ∧ ∀ y, e'.value? y = none) := by
  obtain ⟨v, hv⟩ := Option.isSome_iff_exists.mp (Decimal.literal?_point k)
  obtain ⟨r, φ, T, hr, text, texts, hT, listing, value⟩ := exists_tree h
  have text' := text_substituted k text
  have names : ∀ f ∈ (φ.substitute k).names, Registry.isKnown f.letters = true := by
    rw [φ.names_substitute]
    exact (exists_ofChars_iff text).mp ⟨e, h⟩
  obtain ⟨e', r', T', he', texts', hT', listing', value'⟩ := exists_tree_of_phrase text' names
  have same := bare_substitute texts texts' hT hT'
  have shape : e'.postorder.map Token.bare =
      (e.postorder.map (Token.substitute k)).map Token.bare := by
    rw [listing', listing, Tree.postorder_of_bare same, Tree.postorder_substitute k hT.typed]
  have result (y : Float) : T'.value? y = T.value? v := by
    rw [Tree.value?_of_bare same, Tree.value?_substitute hv hT.typed]
  refine ⟨v, e', hv, he', dependsOnX_eq_false he' shape, shape, fun y => ⟨?_, ?_⟩, ?_⟩
  · rw [value', value, result]
  · rw [value?_eq (value' y), value?_eq (value v), result]
  · intro infinite marked
    have undefined : T.value? v = none :=
      Tree.value?_eq_none infinite hT.typed (listing ▸ (dependsOnX_iff_mem h).mp marked)
    refine ⟨?_, fun y => ?_⟩
    · rw [value?_eq (value v), undefined]
    · rw [value?_eq (value' y), result, undefined]

/-- The name keeps its letter, and the number takes the sign in front of the bracket. -/
theorem substitute_number_comma :
    ∃ e v e', ofString "-(x)*exp(x)" = .ok e ∧ Decimal.literal? "1.5".toList = some v ∧
      ofString "-(1,5)*exp(1,5)" = .ok e' ∧ e'.dependsOnX = false ∧
      ∀ y, e'.value? y = e.value? v := by
  obtain ⟨v, e', hv, he', constant, -, value, -⟩ := substitute_number (s := "-(x)*exp(x)") rfl
    ⟨'1', [], some ⟨',', ['5'], rfl, List.forall_mem_singleton.mpr rfl⟩, rfl, List.forall_mem_nil _⟩
  exact ⟨_, v, e', rfl, hv, he', constant, fun y => (value y).2⟩

end Expression

end FunctionCalculator
