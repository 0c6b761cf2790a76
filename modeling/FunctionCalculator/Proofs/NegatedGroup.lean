import FunctionCalculator.Proofs.FloatSign
import FunctionCalculator.Proofs.Meaning
import FunctionCalculator.Proofs.Placeless

/-!
# A sign in front of a bracket

There is no unary minus: a sign is a part of the operand it stands in front of. In front of a
bracket it waits for the first operand inside, however many brackets follow.

What is proved:
  1. `value?_signFirst`: one more sign on the first operand of a tree negates its value, if that
     operand is only ever multiplied or divided (`LeadsByFactor`).
  2. `Phrase.signFirst_lexemes`, `Writes.signFirst`: a sign that waits in front of a phrase ends on
     its first operand, and the tree is the same but for that sign.
  3. `signed_group`: the expression of a text in brackets behind a minus, against the tree of the
     text. `signed_group_is_not_negation`: it need not be the negation.
-/

namespace FunctionCalculator

namespace Token

def signed (t : Token) : Token := { t with text := '-' :: t.text }

/-- One more sign on the first token that is not an opening bracket. -/
def signFirst : List Token → List Token
  | [] => []
  | t :: ts => if t.kind = .opening then t :: signFirst ts else t.signed :: ts

theorem signFirst_operand {t : Token} {k : Kind} (ht : t.kind = k) (hk : k ≠ .opening)
    (ts : List Token) : signFirst (t :: ts) = t.signed :: ts :=
  if_neg (ht ▸ hk)

theorem signFirst_opening {t : Token} (ht : t.kind = .opening) (ts : List Token) :
    signFirst (t :: ts) = t :: signFirst ts :=
  if_pos ht

end Token

namespace Tree

/-- One more sign on the first operand; a call takes it on its name. -/
def signFirst : Tree → Tree
  | number t => number t.signed
  | var t => var t.signed
  | function t a => function t.signed a
  | operator t l r => operator t l.signFirst r

/-- The first operand stands in the left part of products and quotients only. -/
def LeadsByFactor : Tree → Prop
  | number _ | var _ | function _ _ => True
  | operator t l _ =>
    (Operator.ofText? t.text = some .times ∨ Operator.ofText? t.text = some .divide) ∧
      l.LeadsByFactor

theorem signFirst_map {f : Token → Token} (hf : ∀ t, f t.signed = (f t).signed) (T : Tree) :
    T.signFirst.map f = (T.map f).signFirst := by
  induction T with
  | number | var | function => simp only [map, signFirst, hf]
  | operator t l r ihl _ => simp only [map, signFirst, ihl]

/-! ## The value -/

theorem finite?_neg (v : Float) : finite? (-v) = (finite? v).map (- ·) := by
  rw [finite?, finite?, FloatSign.isFinite_neg]
  split <;> rfl

theorem signed_signed (t : List Char) (v : Float) :
    signed (Text.isNegative ('-' :: t)) v = -signed (Text.isNegative t) v := by
  have odd : Text.isNegative ('-' :: t) = !Text.isNegative t := by
    rw [Text.isNegative, Text.isNegative, Text.signs_cons_minus, List.length_cons]
    cases h : (Text.signs t).length % 2 == 1 <;> simp at h ⊢ <;> omega
  rw [odd]
  cases Text.isNegative t with
  | false => rfl
  | true => exact (FloatSign.neg_neg v).symm

theorem number?_signed (t : List Char) :
    Action.number? ('-' :: t) = (Action.number? t).map (- ·) := by
  rw [Action.number?, Action.number?, Text.unsigned_cons_minus, Option.map_map]
  exact congrArg (fun f => Option.map f _) (funext fun v => signed_signed t v)

/-- The sign goes out of a product and of a dividend; what divides by zero still does. -/
theorem value?_neg_left {o : Operator} (ho : o = .times ∨ o = .divide) (l r : Float) :
    o.value? (-l) r = (o.value? l r).map (- ·) := by
  have apply : o.apply (-l) r = -o.apply l r := by
    rcases ho with rfl | rfl
    · exact FloatSign.neg_mul l r
    · exact FloatSign.neg_div l r
  rw [Operator.value?, Operator.value?, apply]
  split
  · rfl
  · exact finite?_neg _

/-- The induction is on the tree; only the left side of an operator holds the first operand. -/
theorem value?_signFirst {T : Tree} (h : T.LeadsByFactor) (x : Float) :
    T.signFirst.value? x = (T.value? x).map (- ·) := by
  induction T with
  | number t =>
    simp only [signFirst, value?_number, Token.signed, number?_signed]
    cases Action.number? t.text with
    | none => rfl
    | some v => exact finite?_neg v
  | var t =>
    simp only [signFirst, value?_var, Token.signed, signed_signed]
    exact finite?_neg _
  | function t a _ =>
    simp only [signFirst, value?_function, Token.signed, signed_signed, Text.unsigned_cons_minus]
    cases Registry.find? (Text.unsigned t.text) with
    | none => rfl
    | some f =>
      cases a.value? x with
      | none => rfl
      | some v => exact finite?_neg _
  | operator t l r ih _ =>
    -- the sign is on the left operand, and goes out of the product or the quotient
    obtain ⟨factor, leads⟩ := h
    simp only [signFirst, value?_operator, ih leads]
    have left {o : Operator} (ho : o = .times ∨ o = .divide) :
        (((l.value? x).map (- ·)).bind fun v => (r.value? x).bind fun w => o.value? v w) =
          ((l.value? x).bind fun v => (r.value? x).bind fun w => o.value? v w).map (- ·) := by
      cases l.value? x with
      | none => rfl
      | some v =>
        cases r.value? x with
        | none => rfl
        | some w => exact value?_neg_left ho v w
    rcases factor with ho | ho
    · rw [ho]
      exact left (.inl rfl)
    · rw [ho]
      exact left (.inr rfl)

end Tree

/-! ## The tokens -/

namespace Writes

variable {p : Nat} {ts : List Token} {T : Tree}

/-- The first operand is found before any token behind the tree. -/
theorem signFirst_append (h : Writes p ts T) (rest : List Token) :
    Token.signFirst (ts ++ rest) = Token.signFirst ts ++ rest := by
  induction h generalizing rest with
  | number hk | var hk | call hk =>
    rw [List.cons_append, Token.signFirst_operand hk (by decide),
      Token.signFirst_operand hk (by decide)]
    rfl
  | group ho _ _ ih =>
    rw [List.cons_append, Token.signFirst_opening ho, Token.signFirst_opening ho,
      List.append_assoc, ih, ih]
    simp only [List.cons_append, List.append_assoc]
  | operator _ _ _ _ _ ihl _ => rw [List.append_assoc, ihl, ihl, List.append_assoc]

/-- One more sign on the first operand keeps the grouping. -/
theorem signFirst (h : Writes p ts T) : Writes p (Token.signFirst ts) T.signFirst := by
  induction h with
  | number hk =>
    rw [Token.signFirst_operand hk (by decide)]
    exact .number hk
  | var hk =>
    rw [Token.signFirst_operand hk (by decide)]
    exact .var hk
  | call hk ho hc ha _ =>
    rw [Token.signFirst_operand hk (by decide)]
    exact .call hk ho hc ha
  | group ho hc inner ih =>
    rw [Token.signFirst_opening ho, inner.signFirst_append]
    exact .group ho hc ih
  | operator hk ho hp left hr ihl _ =>
    rw [left.signFirst_append]
    exact .operator hk ho hp ihl hr

end Writes

/-! ## The lexemes -/

theorem Token.signFirst_ofText {u : List Char} {k : Kind} (hk : k ≠ .opening)
    (kind : ∀ m, Kind.ofText (minuses m ++ u) = k) (b n : Nat) (ts : List Token) :
    signFirst (ofText (minuses (b + n) ++ u) :: ts) = ofText (minuses (b + 1 + n) ++ u) :: ts := by
  have same : (ofText (minuses (b + n) ++ u)).signed = ofText (minuses (b + 1 + n) ++ u) := by
    rw [Nat.add_right_comm, minuses_succ, List.cons_append, ofText, ofText, ofLexeme, ofLexeme,
      signed, kind, ← List.cons_append, ← minuses_succ, kind]
  rw [signFirst_operand (kind (b + n)) hk, same]

/-- One more sign in front of a phrase is one more sign on its first operand. -/
theorem Phrase.signFirst_lexemes {c : Category} (φ : Phrase c) (b : Nat) (rest : List Token) :
    Token.signFirst ((φ.lexemes b).map Token.ofText ++ rest) =
      (φ.lexemes (b + 1)).map Token.ofText ++ rest := by
  induction φ generalizing b rest with
  | number n k => exact Token.signFirst_ofText (by decide) (Token.Kind.ofText_number · k) b n rest
  | var n => exact Token.signFirst_ofText (by decide) Token.Kind.ofText_var b n rest
  | call n f a _ => exact Token.signFirst_ofText (by decide) (Token.Kind.ofText_name · f) b n _
  | group n a ih =>
    have opening : (Token.ofText ['(']).kind = .opening := rfl
    simp only [lexemes, List.map_cons, List.map_append, List.cons_append, List.append_assoc]
    rw [Token.signFirst_opening opening, ih, Nat.add_right_comm]
  | single t ih => exact ih b rest
  | chain e o t ihe _ =>
    simp only [lexemes, List.map_cons, List.map_append, List.append_assoc]
    rw [ihe]

/-! ## The group -/

namespace Expression

open Lexeme (Reading)

def signedGroup (φ : Phrase .expression) : Phrase .expression := .single (.group 1 φ)

theorem text_signedGroup {s : String} {φ : Phrase .expression}
    (h : φ.text = Text.shown s.toList) :
    (signedGroup φ).text = Text.shown ("-(" ++ s ++ ")").toList := by
  have opening : Text.shown "-(".toList = ['-', '('] := by decide
  have closing : Text.shown ")".toList = [')'] := by decide
  rw [Text.shown, String.toList_append, String.toList_append, List.filter_append,
    List.filter_append]
  rw [Text.shown] at opening closing h
  rw [opening, closing, ← h]
  rfl

/-- The tree of a text in brackets behind a minus is the tree of the text with one more sign on its
first operand. -/
theorem bare_signedGroup {φ : Phrase .expression} {ls ls' : List Lexeme} {T T' : Tree}
    (texts : ls.map Lexeme.text = φ.lexemes 0)
    (texts' : ls'.map Lexeme.text = (signedGroup φ).lexemes 0)
    (hT : Writes 0 (ls.map Token.ofLexeme) T) (hT' : Writes 0 (ls'.map Token.ofLexeme) T') :
    T'.map Token.bare = T.signFirst.map Token.bare := by
  -- apart from positions, the tokens inside the bracket are those of the text with the sign added
  have inner := hT.bare.signFirst
  have whole := hT'.bare
  have signed := φ.signFirst_lexemes 0 []
  rw [List.append_nil, List.append_nil] at signed
  rw [Token.map_bare texts, signed] at inner
  rw [Token.map_bare texts'] at whole
  rw [Tree.signFirst_map (f := Token.bare) fun _ => rfl]
  refine whole.unique (p := 0) ?_
  simp only [signedGroup, Phrase.lexemes, List.map_cons, List.map_append, List.map_nil]
  exact .group rfl rfl inner

/-- A text in brackets behind a minus becomes an expression if the text does. Its tree is that of
the text with one more sign on the first operand. Its value is the value of that tree, and the
negated value of the text if the first operand is only ever multiplied or divided. -/
theorem signed_group {s : String} {e : Expression} (h : ofString s = .ok e) :
    ∃ e' r, ofString ("-(" ++ s ++ ")") = .ok e' ∧ Reading.ofChars s.toList = .ok r ∧
      ∃ T, Writes 0 (r.lexemes.map Token.ofLexeme) T ∧
        e'.postorder.map Token.bare = T.signFirst.postorder.map Token.bare ∧
        (∀ x, e.value x = .ok (T.value? x) ∧ e'.value x = .ok (T.signFirst.value? x)) ∧
        (T.LeadsByFactor → ∀ x, e'.value? x = (e.value? x).map (- ·)) := by
  obtain ⟨r, φ, T, hr, text, texts, hT, -, value⟩ := exists_tree h
  have text' := text_signedGroup text
  have names : ∀ f ∈ (signedGroup φ).names, Registry.isKnown f.letters = true :=
    (exists_ofChars_iff text).mp ⟨e, h⟩
  obtain ⟨e', he'⟩ := (exists_ofChars_iff text').mpr names
  obtain ⟨r', -, T', hr', -, -, hT', listing', value'⟩ := exists_tree he'
  obtain ⟨r'', hr'', texts'⟩ := Reading.exists_ofChars text'
  obtain rfl : r' = r'' := Except.ok.inj (hr'.symm.trans hr'')
  have same := bare_signedGroup texts texts' hT hT'
  have result (x : Float) : T'.value? x = T.signFirst.value? x := by
    rw [← Tree.value?_map (f := Token.bare) (fun _ => rfl) x T', same,
      Tree.value?_map (f := Token.bare) fun _ => rfl]
  refine ⟨e', r, he', hr, T, hT, ?_, fun x => ⟨value x, ?_⟩, fun leads x => ?_⟩
  · rw [listing', ← Tree.postorder_map, same, Tree.postorder_map]
  · rw [value' x, result]
  · rw [value?_eq (value' x), value?_eq (value x), result, Tree.value?_signFirst leads]

theorem signed_group_product :
    ∃ e e', ofString "2*x" = .ok e ∧ ofString ("-(" ++ "2*x" ++ ")") = .ok e' ∧
      ∀ x, e'.value? x = (e.value? x).map (- ·) := by
  obtain ⟨e', r, he', hr, T, hT, -, -, negated⟩ := signed_group (s := "2*x") rfl
  obtain rfl := Except.ok.inj (hr.symm.trans rfl)
  have product : Writes 0 _ _ :=
    .operator (t := ⟨['*'], .operator, 1⟩) (o := .times) rfl rfl (by decide)
      (.number (t := ⟨['2'], .number, 0⟩) rfl) (.var (t := ⟨['x'], .var, 2⟩) rfl)
  obtain rfl := hT.unique product
  exact ⟨_, e', rfl, he', negated ⟨.inl rfl, trivial⟩⟩

/-- The minus in front of the sum of one and two takes the one along, not the sum. -/
theorem signed_group_is_not_negation :
    ¬ ∀ s e, ofString s = .ok e →
      ∃ e', ofString ("-(" ++ s ++ ")") = .ok e' ∧ ∀ x, e'.value? x = (e.value? x).map (- ·) := by
  intro negates
  obtain ⟨e, he⟩ : ∃ e, ofString "1+2" = .ok e := ⟨_, rfl⟩
  obtain ⟨e', he', value⟩ := negates "1+2" e he
  have differ : ((ofString ("-(" ++ "1+2" ++ ")")).toOption.bind fun e' => e'.value? 0) ≠
      ((ofString "1+2").toOption.bind fun e => e.value? 0).map (- ·) := by
    decide +kernel
  rw [he, he'] at differ
  exact differ (value 0)

end Expression

end FunctionCalculator
