import FunctionCalculator.Proofs.Kinds
import FunctionCalculator.Proofs.Placeless
import Mathlib.Data.List.Forall2

/-!
# Pairs of signs

Two more signs where an operand is due wait with the others there, go past any brackets, and end up
on one operand. Whoever looks at the signs of an operand asks for their parity only.

What is proved:
  1. `Token.inert_reduced`: an expression looks at the parity of signs only.
  2. `Paired.step`, `Paired.run`: a run with two more signs and one without them stay in step.
  3. `sign_pair_cancels`: a text with two more signs becomes an expression with the same tokens, but
     for those signs, and with the same values.
-/

namespace FunctionCalculator

/-! ## Signs up to their parity -/

namespace Text

/-- A text with one sign in front if it had an odd number of them, and else with none. -/
def reduced (t : List Char) : List Char :=
  if isNegative t then '-' :: unsigned t else unsigned t

theorem signs_unsigned (t : List Char) : signs (unsigned t) = [] :=
  List.takeWhile_eq_nil_iff.mpr (List.dropWhile_get_zero_not _ t)

theorem unsigned_unsigned (t : List Char) : unsigned (unsigned t) = unsigned t :=
  List.dropWhile_idempotent _ t

theorem unsigned_reduced (t : List Char) : unsigned (reduced t) = unsigned t := by
  unfold reduced
  split
  · rw [unsigned_cons_minus, unsigned_unsigned]
  · exact unsigned_unsigned t

theorem isNegative_reduced (t : List Char) : isNegative (reduced t) = isNegative t := by
  unfold reduced
  split
  · next negative =>
    rw [negative, isNegative, signs_cons_minus, signs_unsigned]
    rfl
  · next positive =>
    rw [Bool.eq_false_iff.mpr positive, isNegative, signs_unsigned]
    rfl

theorem reduced_pair (t : List Char) : reduced ('-' :: '-' :: t) = reduced t := by
  have parity : isNegative ('-' :: '-' :: t) = isNegative t := by
    simp only [isNegative, signs_cons_minus, List.length_cons, Nat.add_assoc, Nat.add_mod_right]
  rw [reduced, reduced, parity, unsigned_cons_minus, unsigned_cons_minus]

/-- The text of an operator is no operand: a minus stays. -/
theorem reduced_symbol (o : Operator) : reduced [o.symbol] = [o.symbol] := by
  cases o <;> decide

end Text

theorem Operator.ofText?_reduced {t : List Char} {o : Operator} (h : ofText? t = some o) :
    ofText? (Text.reduced t) = some o := by
  unfold ofText? at h
  split at h
  · obtain rfl := ofChar?_eq_some_iff.mp h
    rw [Text.reduced_symbol]
    exact ofChar?_symbol o
  · cases h

namespace Token

/-- A token wherever it stands, and with its signs up to their parity. -/
def reduced (t : Token) : Token := ⟨Text.reduced t.text, t.kind, 0⟩

/-- Numbers, the variable and functions are negated by the parity of their signs, and the names of
functions are looked up without them. -/
theorem inert_reduced : Inert reduced where
  kind _ := rfl
  symbol _ _ symbol := Operator.ofText?_reduced symbol
  negative t := Text.isNegative_reduced t.text
  unsigned t := Text.unsigned_reduced t.text

end Token

namespace Lexeme

/-! ## Runs in step -/

/-- The same text, or an operand with two more signs. -/
inductive UpToPair : List Char → List Char → Prop
  | same (t : List Char) : UpToPair t t
  | more (n : Nat) {c : Char} (hc : IsOperandStart c) (t : List Char) :
      UpToPair (minuses n ++ c :: t) (minuses (n + 2) ++ c :: t)

namespace UpToPair

variable {t t' : List Char}

theorem append (h : UpToPair t t') (u : List Char) : UpToPair (t ++ u) (t' ++ u) := by
  cases h with
  | same => exact .same _
  | more n hc s =>
    rw [List.append_assoc, List.append_assoc]
    exact .more n hc (s ++ u)

theorem start {m n : Nat} (pair : m = n ∨ m = n + 2) {c : Char} (hc : IsOperandStart c) :
    UpToPair (minuses n ++ [c]) (minuses m ++ [c]) := by
  rcases pair with rfl | rfl
  · exact .same _
  · exact .more n hc []

theorem pending (h : UpToPair t t') : List.Forall₂ UpToPair (View.pending t) (View.pending t') := by
  cases h with
  | same => exact List.forall₂_same.mpr fun u _ => .same u
  | more n hc s =>
    rw [View.pending_append_cons, View.pending_append_cons]
    exact .cons (.more n hc s) .nil

theorem token (h : UpToPair t t') :
    (Token.ofText t').reduced = (Token.ofText t).reduced := by
  cases h with
  | same => rfl
  | @more n c hc s =>
    have text : Text.reduced (minuses (n + 2) ++ c :: s) = Text.reduced (minuses n ++ c :: s) :=
      Text.reduced_pair _
    have kind := (Token.Kind.ofText_signed hc (n + 2) s).trans
      (Token.Kind.ofText_signed hc n s).symm
    simp only [Token.reduced, Token.ofText, Token.ofLexeme, text, kind]

end UpToPair

/-- The views of two runs, the second with two more signs somewhere behind: they are in the buffer,
where they wait for an operand or stand on the one that has begun, or on an operand that is out. -/
inductive Paired : View → View → Prop
  | waiting {m n d x ts ts'} (pair : m = n ∨ m = n + 2) (texts : List.Forall₂ UpToPair ts ts') :
      Paired ⟨.start, minuses n, d, x, ts⟩ ⟨.start, minuses m, d, x, ts'⟩
  | begun {s b b' d x ts ts'} (hs : s ≠ .start) (buffer : UpToPair b b')
      (texts : List.Forall₂ UpToPair ts ts') : Paired ⟨s, b, d, x, ts⟩ ⟨s, b', d, x, ts'⟩

namespace Paired

open View (pending)

variable {v v' w : View}

theorem out {b b' : List Char} {ts ts' : List (List Char)} (buffer : UpToPair b b')
    (texts : List.Forall₂ UpToPair ts ts') (u : List Char) :
    List.Forall₂ UpToPair (ts ++ pending b ++ [u]) (ts' ++ pending b' ++ [u]) :=
  List.rel_append (List.rel_append texts buffer.pending) (.cons (.same u) .nil)

theorem step {c : Char} (h : Paired v v') (step : View.Step v c w) :
    ∃ w', View.Step v' c w' ∧ Paired w w' := by
  cases h with
  | waiting pair texts =>
    cases step with
    | sign =>
      refine ⟨_, .sign, ?_⟩
      rw [minuses_append_singleton, minuses_append_singleton]
      exact .waiting (pair.imp (congrArg (· + 1)) (congrArg (· + 1))) texts
    | firstDigit hc =>
      exact ⟨_, .firstDigit hc, .begun nofun (.start pair (isOperandStart_of_isDigit hc)) texts⟩
    | firstLetter hc hx =>
      exact ⟨_, .firstLetter hc hx,
        .begun nofun (.start pair (isOperandStart_of_isNameLetter hc)) texts⟩
    | var =>
      have buffer := UpToPair.start pair (isOperandStart_of_isNameLetter (c := variableChar) rfl)
      exact ⟨_, .var, .begun nofun (.same []) (List.rel_append texts buffer.pending)⟩
    | group =>
      exact ⟨_, .group, .waiting pair (List.rel_append texts (.cons (.same _) .nil))⟩
    | nextDigit hs => rcases hs with hs | hs <;> cases hs
    | closeNumber hs => rcases hs with hs | hs <;> cases hs
    | closeAgain hs => rcases hs with hs | hs <;> cases hs
    | operator hs => rcases hs with (hs | hs) | (hs | hs) <;> cases hs
  | begun hs buffer texts =>
    cases step with
    | sign => exact absurd rfl hs
    | firstDigit => exact absurd rfl hs
    | firstLetter => exact absurd rfl hs
    | var => exact absurd rfl hs
    | group => exact absurd rfl hs
    | nextDigit number hc => exact ⟨_, .nextDigit number hc, .begun hs (buffer.append _) texts⟩
    | point hc => exact ⟨_, .point hc, .begun nofun (buffer.append _) texts⟩
    | nextLetter hc => exact ⟨_, .nextLetter hc, .begun nofun (buffer.append _) texts⟩
    | call => exact ⟨_, .call, .waiting (n := 0) (.inl rfl) (out buffer texts _)⟩
    | closeNumber number =>
      exact ⟨_, .closeNumber number, .begun nofun (.same []) (out buffer texts _)⟩
    | closeAgain closed =>
      exact ⟨_, .closeAgain closed,
        .begun nofun buffer (List.rel_append texts (.cons (.same _) .nil))⟩
    | operator ended o =>
      exact ⟨_, .operator ended o, .waiting (n := 0) (.inl rfl) (out buffer texts _)⟩

theorem run {cs : List Char} (h : Paired v v') (hw : v.run cs = some w) :
    ∃ w', v'.run cs = some w' ∧ Paired w w' := by
  induction cs generalizing v v' with
  | nil =>
    cases hw
    exact ⟨v', rfl, h⟩
  | cons c cs ih =>
    rw [View.run, List.foldlM_cons] at hw
    obtain ⟨v₁, first, rest⟩ := Option.bind_eq_some_iff.mp hw
    obtain ⟨v₁', first', h₁⟩ := h.step (View.advance_eq_some_iff.mp first)
    obtain ⟨w', rest', hw'⟩ := ih h₁ rest
    exact ⟨w', first'.run cs ▸ rest', hw'⟩

theorem finish {us : List (List Char)} {x : Bool} (h : Paired v v')
    (hv : v.finish = some (us, x)) :
    ∃ us', v'.finish = some (us', x) ∧ List.Forall₂ UpToPair us us' := by
  unfold View.finish at hv
  split at hv
  · next ended =>
    cases hv
    cases h with
    | waiting => exact absurd rfl ended.2.1
    | begun hs buffer texts =>
      exact ⟨_, if_pos ended, List.rel_append texts buffer.pending⟩
  · cases hv

end Paired

/-- Two more signs where an operand is due wait with the others. -/
theorem exists_paired {v : View} {cs : List Char} (h : View.run {} cs = some v)
    (start : v.state = .start) : ∃ v', v.run (minuses 2) = some v' ∧ Paired v v' := by
  have signs := View.holds_of_run h
  obtain ⟨s, b, d, x, ts⟩ := v
  obtain rfl : s = .start := start
  obtain ⟨n, rfl⟩ := signs.exists_minuses
  exact ⟨_, View.run_minuses n 2, .waiting (.inr rfl) (List.forall₂_same.mpr fun t _ => .same t)⟩

/-- Two more signs where an operand is due end up on one of the lexemes. -/
theorem Reading.exists_ofChars_pair {u v : List Char} {r : Reading} {k : Configuration}
    (h : ofChars (u ++ v) = .ok r) (hk : Configuration.scan {} (Text.visible u) = .ok k)
    (start : k.state = .start) :
    ∃ r', ofChars (u ++ minuses 2 ++ v) = .ok r' ∧ r'.dependsOnX = r.dependsOnX ∧
      List.Forall₂ UpToPair (r.lexemes.map Lexeme.text) (r'.lexemes.map Lexeme.text) := by
  have before : View.run {} (Text.shown u) = some k.view := by
    have reached := Configuration.view_scan {} (Text.visible u)
    rw [hk, Text.map_fst_visible] at reached
    exact reached.symm
  obtain ⟨k', signs, paired⟩ := exists_paired before start
  have read := read_of_ofChars h
  rw [shown_append, View.read, View.run_append, before, Option.bind_some] at read
  obtain ⟨w, rest, ended⟩ := Option.bind_eq_some_iff.mp read
  obtain ⟨w', rest', hw⟩ := paired.run rest
  obtain ⟨us, ended', texts⟩ := hw.finish ended
  have read' : View.read (Text.shown (u ++ minuses 2 ++ v)) = some (us, r.dependsOnX) := by
    have visible : Text.shown (minuses 2) = minuses 2 := by decide
    rw [shown_append, shown_append, visible, View.read, View.run_append, View.run_append, before,
      Option.bind_some, signs, Option.bind_some, rest', Option.bind_some, ended']
  obtain ⟨r', hr', rfl, mark⟩ := ofChars_of_read read'
  exact ⟨r', hr', mark, texts⟩

theorem UpToPair.tokens {ls ls' : List Lexeme}
    (h : List.Forall₂ UpToPair (ls.map Lexeme.text) (ls'.map Lexeme.text)) :
    (ls'.map Token.ofLexeme).map Token.reduced = (ls.map Token.ofLexeme).map Token.reduced := by
  rw [List.forall₂_map_left_iff, List.forall₂_map_right_iff] at h
  induction h with
  | nil => rfl
  | cons pair _ ih => exact congrArg₂ List.cons pair.token ih

end Lexeme

namespace Expression

/-- Two more signs in front of an operand, however many there are and whatever brackets are between,
leave the expression as it is: the tokens are the same but for a pair of signs, and so is every
value. -/
theorem sign_pair_cancels {u v : String} {e : Expression} {k : Lexeme.Configuration}
    (h : ofString (u ++ v) = .ok e)
    (hk : Lexeme.Configuration.scan {} (Text.visible u.toList) = .ok k) (start : k.state = .start) :
    ∃ e', ofString (u ++ "--" ++ v) = .ok e' ∧ e'.dependsOnX = e.dependsOnX ∧
      e'.postorder.map Token.reduced = e.postorder.map Token.reduced ∧
      ∀ x, e'.value x = e.value x ∧ e'.value? x = e.value? x := by
  rw [ofString, String.toList_append] at h
  obtain ⟨r, hr, -⟩ := ofChars_eq_ok h
  obtain ⟨r', hr', mark, texts⟩ := Lexeme.Reading.exists_ofChars_pair hr hk start
  obtain ⟨e', he', same⟩ :=
    exists_alike Token.inert_reduced h hr hr' (Lexeme.UpToPair.tokens texts) mark
  refine ⟨e', ?_, same⟩
  rw [ofString, String.toList_append, String.toList_append]
  exact he'

theorem sign_pair_cancels_before_call :
    ∃ e e', ofString "2*-(-sin(x))" = .ok e ∧ ofString "2*-(---sin(x))" = .ok e' ∧
      e'.postorder.map Token.text = ["2".toList, "x".toList, "----sin".toList, "*".toList] ∧
      e'.postorder.map Token.reduced = e.postorder.map Token.reduced ∧
      ∀ x, e'.value? x = e.value? x := by
  obtain ⟨e', he', -, tokens, value⟩ :=
    sign_pair_cancels (u := "2*-(") (v := "-sin(x))") rfl rfl rfl
  obtain rfl := Except.ok.inj (he'.symm.trans (rfl : ofString "2*-(---sin(x))" = _))
  exact ⟨_, _, rfl, he', by decide, tokens, fun x => (value x).2⟩

end Expression

end FunctionCalculator
