import FunctionCalculator.Proofs.Placeless
import FunctionCalculator.Proofs.Rereading
import Mathlib.Data.List.TakeWhile

/-!
# Reciprocal functions

The reciprocal of a function takes the value of the function and divides one by it in a single
step; only the quotient is looked at. Where the same is written as a division, the value of the
function is looked at first, and so is the divisor.

What is proved:
  1. `quotient_eq`, `quotient_infinite`, `reciprocal_infinite`: both ways give the same for a value
     that is not infinite, zero and what is no number included. One divided by an infinite value is
     a zero in the first way and undefined in the second.
  2. `exists_reciprocal`, `exists_quotient`: both texts become expressions if the name of the
     function is spelled in letters, each of them as an expression inside a longer text
     (`exists_around`); `refused_of_digit`: a name with digits is refused in either.
  3. `reciprocal_agrees_iff`: where the two expressions agree. `reciprocal_hides_overflow`: they
     need not.
-/

namespace FunctionCalculator

open Float.Model (UnpackedFloat)

/-! ## One divided by a double -/

namespace FloatReciprocal

variable {w : Float}

theorem toModel_one_div (w : Float) : ∃ m e h, (1 / w).toModel =
    Float.Model.pack (UnpackedFloat.div .binary64 (.finite .positive m e h) w.toModel.unpack) :=
  ⟨2 ^ 52, -52, by decide, rfl⟩

theorem unpack_one_div {u v : UnpackedFloat} (hw : w.toModel.unpack = u)
    (packed : (Float.Model.pack v).unpack = v)
    (divided : ∀ m e h, UnpackedFloat.div .binary64 (.finite .positive m e h) u = v) :
    (1 / w).toModel.unpack = v := by
  obtain ⟨m, e, h, quotient⟩ := toModel_one_div w
  rw [quotient, hw, divided, packed]

theorem unpack_one_div_zero {s : UnpackedFloat.Sign} (hw : w.toModel.unpack = .zero s) :
    (1 / w).toModel.unpack = .infinity (.positive / s) :=
  unpack_one_div hw (by cases s <;> rfl) fun _ _ _ => rfl

theorem unpack_one_div_infinity {s : UnpackedFloat.Sign} (hw : w.toModel.unpack = .infinity s) :
    (1 / w).toModel.unpack = .zero (.positive / s) :=
  unpack_one_div hw (by cases s <;> rfl) fun _ _ _ => rfl

theorem unpack_one_div_nan (hw : w.toModel.unpack = .notANumber) :
    (1 / w).toModel.unpack = .notANumber :=
  unpack_one_div hw rfl fun _ _ _ => rfl

theorem isFinite_eq {u : UnpackedFloat} (hw : w.toModel.unpack = u) : w.isFinite = u.isFinite := by
  rw [← hw]
  rfl

theorem beq_zero_eq {u : UnpackedFloat} (hw : w.toModel.unpack = u) :
    (w == 0) = u.beq (.zero .positive) := by
  rw [← hw]
  rfl

theorem exists_unpack_of_isInf (h : w.isInf = true) : ∃ s, w.toModel.unpack = .infinity s := by
  change w.toModel.unpack.isInf = true at h
  cases hw : w.toModel.unpack with
  | infinity s => exact ⟨s, rfl⟩
  | notANumber | zero | finite =>
    rw [hw] at h
    cases h

end FloatReciprocal

section Quotient

open FloatReciprocal

variable {w : Float}

/-- One divided by a value that is looked at first. -/
def quotient? (w : Float) : Option Float := (finite? w).bind (Operator.divide.value? 1)

theorem quotient_eq (h : w.isInf = false) : quotient? w = finite? (1 / w) := by
  change w.toModel.unpack.isInf = false at h
  unfold quotient? finite?
  cases hw : w.toModel.unpack with
  | infinity s =>
    rw [hw] at h
    cases h
  | notANumber =>
    rw [isFinite_eq hw, isFinite_eq (unpack_one_div_nan hw)]
    rfl
  | zero s =>
    -- the divisor is zero, and the quotient infinite
    have zero : (w == 0) = true := (beq_zero_eq hw).trans (by cases s <;> rfl)
    rw [isFinite_eq hw, isFinite_eq (unpack_one_div_zero hw)]
    show Operator.divide.value? 1 w = none
    rw [Operator.value?, Operator.dividesByZero, zero]
    rfl
  | finite s m e hm =>
    have nonzero : (w == 0) = false := (beq_zero_eq hw).trans (by cases s <;> rfl)
    rw [isFinite_eq hw]
    show Operator.divide.value? 1 w = finite? (1 / w)
    rw [Operator.value?, Operator.dividesByZero, nonzero]
    rfl

theorem quotient_infinite (h : w.isInf = true) : quotient? w = none := by
  obtain ⟨s, hw⟩ := exists_unpack_of_isInf h
  rw [quotient?, finite?, isFinite_eq hw]
  rfl

theorem reciprocal_infinite (h : w.isInf = true) :
    finite? (1 / w) = some (1 / w) ∧ (1 / w == 0) = true := by
  obtain ⟨s, hw⟩ := exists_unpack_of_isInf h
  have zero := unpack_one_div_infinity hw
  constructor
  · rw [finite?, isFinite_eq zero]
    rfl
  · rw [beq_zero_eq zero]
    cases s <;> rfl

theorem reciprocal_eq_quotient_iff : finite? (1 / w) = quotient? w ↔ w.isInf = false := by
  constructor
  · intro same
    rw [Bool.eq_false_iff]
    intro infinite
    rw [(reciprocal_infinite infinite).1, quotient_infinite infinite] at same
    cases same
  · exact fun h => (quotient_eq h).symm

end Quotient

/-! ## Names -/

namespace BaseFunction

variable {f : BaseFunction}

/-- The name of a function is spelled in letters, so that it can be written in an expression. -/
def Spelled (f : BaseFunction) : Prop := f.name.toList.all isNameLetter = true

instance (f : BaseFunction) : Decidable f.Spelled :=
  inferInstanceAs (Decidable (f.name.toList.all isNameLetter = true))

theorem spelled_iff : f.Spelled ↔ ∀ c ∈ f.name.toList, isNameLetter c = true := List.all_eq_true

def reciprocalText (f : BaseFunction) (s : String) : String := "co" ++ f.name ++ "(" ++ s ++ ")"

def quotientText (f : BaseFunction) (s : String) : String := "1/" ++ f.name ++ "(" ++ s ++ ")"

theorem find?_name (f : BaseFunction) : Registry.find? f.name.toList = some (.direct f) := by
  have each : ∀ g ∈ all, Registry.find? g.name.toList = some (.direct g) := by decide +kernel
  exact each f f.mem_all

theorem find?_reciprocal (f : BaseFunction) :
    Registry.find? ('c' :: 'o' :: f.name.toList) = some (.reciprocal f) := by
  have each : ∀ g ∈ all, Registry.find? ('c' :: 'o' :: g.name.toList) = some (.reciprocal g) := by
    decide +kernel
  exact each f f.mem_all

/-- Names consist of letters and digits. -/
theorem letter_or_digit (f : BaseFunction) :
    ∀ c ∈ f.name.toList, isNameLetter c = true ∨ c.isDigit = true := by
  have each : f.name.toList.all (fun c => isNameLetter c || c.isDigit) = true := by
    cases f <;> decide
  exact fun c hc => Bool.or_eq_true_iff.mp (List.all_eq_true.mp each c hc)

/-- A name begins with a function name, and goes on with a digit if it goes on. -/
theorem exists_letters (f : BaseFunction) :
    ∃ (n : FunctionName) (rest : List Char), f.name.toList = n.letters ++ rest ∧
      ∀ c ∈ rest.head?, c.isDigit = true := by
  have first : ∃ c cs, f.name.toList = c :: cs ∧ isNameLetter c = true ∧ c ≠ variableChar := by
    cases f <;> exact ⟨_, _, rfl, by decide, by decide⟩
  obtain ⟨c, cs, name, letter, hx⟩ := first
  refine ⟨⟨c, cs.takeWhile isNameLetter, letter, hx, fun d hd => List.mem_takeWhile_imp hd⟩,
    cs.dropWhile isNameLetter, ?_, ?_⟩
  · rw [name, FunctionName.letters, List.cons_append, List.takeWhile_append_dropWhile]
  · intro d hd
    have stop : isNameLetter d = false := by
      have := List.head?_dropWhile_not isNameLetter cs
      rw [hd] at this
      exact this
    obtain ⟨rest, run⟩ := List.head?_eq_some_iff.mp hd
    have member : d ∈ f.name.toList := by
      rw [name]
      refine List.mem_cons_of_mem c ((List.dropWhile_suffix isNameLetter).subset ?_)
      rw [run]
      exact List.mem_cons_self
    rcases f.letter_or_digit d member with letter | digit
    · rw [stop] at letter
      cases letter
    · exact digit

theorem exists_name (h : f.Spelled) : ∃ n : FunctionName, n.letters = f.name.toList := by
  obtain ⟨n, rest, name, digit⟩ := f.exists_letters
  obtain - | ⟨d, rest⟩ := rest
  · exact ⟨n, (name.trans (List.append_nil _)).symm⟩
  · have letter : isNameLetter d = true := spelled_iff.mp h d (by rw [name]; simp)
    have := Lexeme.CharClass.isDigit_eq_false_of_isNameLetter letter
    rw [digit d rfl] at this
    cases this

theorem exists_digit (h : ¬ f.Spelled) :
    ∃ (n : FunctionName) (d : Char) (rest : List Char),
      f.name.toList = n.letters ++ d :: rest ∧ d.isDigit = true := by
  obtain ⟨n, rest, name, digit⟩ := f.exists_letters
  obtain - | ⟨d, rest⟩ := rest
  · refine absurd (spelled_iff.mpr fun c hc => ?_) h
    rw [name, List.append_nil] at hc
    rcases List.mem_cons.mp hc with rfl | hc
    · exact n.first_ok
    · exact n.rest_ok c hc
  · exact ⟨n, d, rest, name, digit d rfl⟩

theorem shown_name (f : BaseFunction) : Text.shown f.name.toList = f.name.toList := by
  refine Text.shown_eq_self fun c hc => ?_
  rcases f.letter_or_digit c hc with letter | digit
  · exact Text.isBlank_of_isNameLetter letter
  · exact Text.isBlank_of_isDigit digit

theorem shown_reciprocalText (f : BaseFunction) (s : String) :
    Text.shown (f.reciprocalText s).toList =
      'c' :: 'o' :: f.name.toList ++ '(' :: (Text.shown s.toList ++ [')']) := by
  simp only [reciprocalText, String.toList_append, Lexeme.shown_append, shown_name,
    List.append_assoc]
  rfl

theorem shown_quotientText (f : BaseFunction) (s : String) :
    Text.shown (f.quotientText s).toList =
      '1' :: '/' :: f.name.toList ++ '(' :: (Text.shown s.toList ++ [')']) := by
  simp only [quotientText, String.toList_append, Lexeme.shown_append, shown_name,
    List.append_assoc]
  rfl

end BaseFunction

def FunctionName.reciprocal (n : FunctionName) : FunctionName where
  first := 'c'
  rest := 'o' :: n.letters
  first_ok := by decide
  first_ne := by decide
  rest_ok := List.forall_mem_cons.mpr ⟨by decide, List.forall_mem_cons.mpr ⟨n.first_ok, n.rest_ok⟩⟩

theorem FunctionName.letters_reciprocal (n : FunctionName) :
    n.reciprocal.letters = 'c' :: 'o' :: n.letters := rfl

/-! ## A name with digits -/

namespace Expression

open Lexeme (View)

/-- A digit cannot stand in a name. -/
theorem run_name_digit (n : FunctionName) {c : Char} (hc : c.isDigit = true) (b : List Char)
    (d : Nat) (x : Bool) (ts : List (List Char)) (cs : List Char) :
    View.run ⟨.start, b, d, x, ts⟩ (n.letters ++ c :: cs) = none := by
  have stop : View.advance ⟨.name, b ++ n.letters, d, x, ts⟩ c = none := by
    rw [View.advance, Lexeme.CharClass.ofChar_of_holds (k := .digit) (by decide) hc]
    rfl
  rw [View.run_append, View.run_letters, Option.bind_some, View.run, List.foldlM_cons, stop]
  rfl

theorem ne_ok_of_run {s : List Char} (h : View.run {} (Text.shown s) = none) (e : Expression) :
    ofChars s ≠ .ok e := by
  intro he
  obtain ⟨r, hr, -⟩ := ofChars_eq_ok he
  have texts := Lexeme.texts_ofChars s
  rw [hr, View.read, h] at texts
  cases texts

theorem refused_of_digit {f : BaseFunction} (h : ¬ f.Spelled) (s : String) (e : Expression) :
    ofString (f.reciprocalText s) ≠ .ok e ∧ ofString (f.quotientText s) ≠ .ok e := by
  obtain ⟨n, d, rest, name, digit⟩ := BaseFunction.exists_digit h
  constructor
  · refine ne_ok_of_run ?_ e
    have read := run_name_digit n.reciprocal digit [] 0 false []
      (rest ++ '(' :: (Text.shown s.toList ++ [')']))
    rw [BaseFunction.shown_reciprocalText, name]
    simpa [FunctionName.reciprocal, FunctionName.letters] using read
  · refine ne_ok_of_run ?_ e
    have numeral (cs : List Char) : View.run {} ('1' :: '/' :: cs) =
        View.run ⟨.start, [], 0, false, [['1'], ['/']]⟩ cs := rfl
    rw [BaseFunction.shown_quotientText, name, List.cons_append, List.cons_append, numeral,
      List.append_assoc, List.cons_append]
    exact run_name_digit n digit ..

/-! ## A spelled name -/

def one : Numeral := ⟨'1', [], none, by decide, List.forall_mem_nil _⟩

section Spelled

variable {n : FunctionName} {φ : Phrase .expression} {T : Tree}

theorem writes_call (hT : Writes 0 ((φ.lexemes 0).map Token.ofText) T) (p : Nat) :
    Writes p (((Phrase.call 0 n φ).lexemes 0).map Token.ofText)
      (.function (Token.ofText n.letters) T) := by
  rw [Phrase.lexemes, List.map_cons, List.map_cons, List.map_append]
  exact .call (Token.Kind.ofText_name 0 n) rfl rfl hT

theorem writes_quotient (hT : Writes 0 ((φ.lexemes 0).map Token.ofText) T) :
    Writes 0 (((Phrase.chain (.single (.number 0 one)) .divide (.call 0 n φ)).lexemes 0).map
        Token.ofText)
      (.operator (Token.ofText ['/']) (.number (Token.ofText ['1']))
        (.function (Token.ofText n.letters) T)) := by
  rw [Phrase.lexemes, List.map_append, List.map_cons]
  exact .operator rfl rfl (by decide) (.number rfl) (writes_call hT _)

theorem value?_function {g : UnaryFunction} (hg : Registry.find? n.letters = some g) (x : Float) :
    (Tree.function (Token.ofText n.letters) T).value? x =
      (T.value? x).bind fun v => finite? (g.apply v) := by
  have unsigned : Text.unsigned n.letters = n.letters := Text.unsigned_letters 0 n
  have signs : Text.signs n.letters = [] := by
    have := Text.signs_append_unsigned n.letters
    rwa [unsigned, List.append_left_eq_self] at this
  have positive : Text.isNegative n.letters = false := by
    rw [Text.isNegative, signs]
    rfl
  simp only [Tree.value?_function, Token.ofText, Token.ofLexeme, unsigned, hg, positive, signed,
    Option.bind_some, Bool.false_eq_true, if_false]

theorem value?_quotient {f : BaseFunction} (hf : Registry.find? n.letters = some (.direct f))
    (x : Float) :
    (Tree.operator (Token.ofText ['/']) (.number (Token.ofText ['1']))
        (.function (Token.ofText n.letters) T)).value? x =
      (T.value? x).bind fun v => quotient? (f.apply v) := by
  have literal : (Action.number? ['1']).bind finite? = some 1 := by decide +kernel
  have one : (Tree.number (Token.ofText ['1'])).value? x = some 1 := literal
  have divide : Operator.ofText? (Token.ofText ['/']).text = some .divide := rfl
  rw [Tree.value?_operator, divide, Option.bind_some, one, Option.bind_some, value?_function hf,
    Option.bind_assoc]
  rfl

variable {f : BaseFunction} {s : String} {e : Expression}

/-- An expression inside a longer text: if a phrase around its phrase has that text, and a tree
around its tree is written by the lexemes of that phrase, then the text becomes an expression, and
its value is taken from the value inside. -/
theorem exists_around {t : String} {ψ : Phrase .expression → Phrase .expression} {τ : Tree → Tree}
    {g : Float → Option Float} (h : ofString s = .ok e)
    (text : ∀ φ, φ.text = Text.shown s.toList → (ψ φ).text = Text.shown t.toList)
    (known : ∀ φ : Phrase .expression, (∀ f ∈ φ.names, Registry.isKnown f.letters = true) →
      ∀ f ∈ (ψ φ).names, Registry.isKnown f.letters = true)
    (writes : ∀ φ T, Writes 0 ((φ.lexemes 0).map Token.ofText) T →
      Writes 0 (((ψ φ).lexemes 0).map Token.ofText) (τ T))
    (value : ∀ T x, (τ T).value? x = (T.value? x).bind g) :
    ∃ c, ofString t = .ok c ∧ ∀ x, c.value? x = (e.value? x).bind g := by
  obtain ⟨φ, T, inner, names, hT, innerValue⟩ := exists_phrase h
  obtain ⟨c, hc, outerValue⟩ := exists_of_phrase (text φ inner) (known φ names) (writes φ T hT)
  refine ⟨c, hc, fun x => ?_⟩
  rw [value?_eq (outerValue x), value?_eq (innerValue x), value]

theorem exists_reciprocal (h : ofString s = .ok e) (hf : f.Spelled) :
    ∃ c, ofString (f.reciprocalText s) = .ok c ∧
      ∀ x, c.value? x = (e.value? x).bind fun v => finite? (1 / f.apply v) := by
  obtain ⟨n, name⟩ := BaseFunction.exists_name hf
  have find : Registry.find? n.reciprocal.letters = some (.reciprocal f) := by
    rw [FunctionName.letters_reciprocal, name]
    exact f.find?_reciprocal
  refine exists_around (ψ := fun φ => .single (.call 0 n.reciprocal φ)) h (fun φ text => ?_)
    (fun φ known => List.forall_mem_cons.mpr ⟨Option.isSome_of_eq_some find, known⟩)
    (fun φ T hT => writes_call hT 0) fun T x => value?_function find x
  rw [BaseFunction.shown_reciprocalText, ← name, ← text]
  rfl

theorem exists_quotient (h : ofString s = .ok e) (hf : f.Spelled) :
    ∃ q, ofString (f.quotientText s) = .ok q ∧
      ∀ x, q.value? x = (e.value? x).bind fun v => quotient? (f.apply v) := by
  obtain ⟨n, name⟩ := BaseFunction.exists_name hf
  have find : Registry.find? n.letters = some (.direct f) := by
    rw [name]
    exact f.find?_name
  refine exists_around (ψ := fun φ => .chain (.single (.number 0 one)) .divide (.call 0 n φ)) h
    (fun φ text => ?_)
    (fun φ known => List.forall_mem_cons.mpr ⟨Option.isSome_of_eq_some find, known⟩)
    (fun φ T hT => writes_quotient hT) fun T x => value?_quotient find x
  rw [BaseFunction.shown_quotientText, ← name, ← text]
  rfl

end Spelled

/-- The reciprocal of a function and one divided by it have the same value, or none, exactly where
the function is not infinite. Where it is, the reciprocal is a zero, and the quotient undefined. -/
theorem reciprocal_agrees_iff {f : BaseFunction} {s : String} {e : Expression}
    (h : ofString s = .ok e) :
    (f.Spelled → ∃ c q, ofString (f.reciprocalText s) = .ok c ∧
      ofString (f.quotientText s) = .ok q ∧
      ∀ x, (c.value? x = q.value? x ↔ ∀ v, e.value? x = some v → (f.apply v).isInf = false) ∧
        ∀ v, e.value? x = some v → (f.apply v).isInf = true →
          q.value? x = none ∧ ∃ z, c.value? x = some z ∧ (z == 0) = true) ∧
    (¬ f.Spelled → ∀ r, ofString (f.reciprocalText s) ≠ .ok r ∧
      ofString (f.quotientText s) ≠ .ok r) := by
  refine ⟨fun hf => ?_, fun hf r => refused_of_digit hf s r⟩
  obtain ⟨c, hc, valueC⟩ := exists_reciprocal h hf
  obtain ⟨q, hq, valueQ⟩ := exists_quotient h hf
  refine ⟨c, q, hc, hq, fun x => ?_⟩
  rw [valueC, valueQ]
  cases e.value? x with
  | none =>
    constructor
    · exact iff_of_true rfl fun _ hv => nomatch hv
    · exact fun _ hv => nomatch hv
  | some v =>
    constructor
    · rw [Option.bind_some, Option.bind_some, reciprocal_eq_quotient_iff]
      constructor
      · rintro finite _ ⟨⟩
        exact finite
      · exact fun finite => finite v rfl
    · rintro _ ⟨⟩ infinite
      obtain ⟨value, zero⟩ := reciprocal_infinite infinite
      exact ⟨quotient_infinite infinite, _, value, zero⟩

theorem reciprocal_agrees_iff_degrees :
    ∃ e, ofString "x" = .ok e ∧ BaseFunction.degrees.Spelled ∧
      ∃ c q, ofString "codegrees(x)" = .ok c ∧ ofString "1/degrees(x)" = .ok q ∧
        (c.value? 1 = q.value? 1 ↔
          ∀ v, e.value? 1 = some v → (BaseFunction.degrees.apply v).isInf = false) := by
  obtain ⟨e, he⟩ : ∃ e, ofString "x" = .ok e := ⟨_, rfl⟩
  have spelled : BaseFunction.degrees.Spelled := by decide
  obtain ⟨c, q, hc, hq, agrees⟩ := (reciprocal_agrees_iff he).1 spelled
  exact ⟨e, he, spelled, c, q, hc, hq, (agrees 1).1⟩

/-- Degrees overflow at large arguments, and the reciprocal hides it. -/
theorem reciprocal_hides_overflow :
    ∃ c q z, ofString "codegrees(x)" = .ok c ∧ ofString "1/degrees(x)" = .ok q ∧
      c.value? 1e308 = some z ∧ q.value? 1e308 = none := by
  obtain ⟨e, he⟩ : ∃ e, ofString "x" = .ok e := ⟨_, rfl⟩
  have spelled : BaseFunction.degrees.Spelled := by decide
  obtain ⟨c, hc, valueC⟩ := exists_reciprocal he spelled
  obtain ⟨q, hq, valueQ⟩ := exists_quotient he spelled
  have overflow {x v : Float} (hv : e.value? x = some v)
      (infinite : (BaseFunction.degrees.apply v).isInf = true) :
      c.value? x = some (1 / BaseFunction.degrees.apply v) ∧ q.value? x = none := by
    rw [valueC, valueQ, hv]
    exact ⟨(reciprocal_infinite infinite).1, quotient_infinite infinite⟩
  have argument : e.value? 1e308 = some 1e308 := by
    cases he
    decide +kernel
  exact ⟨c, q, _, hc, hq, overflow argument (by decide +kernel)⟩

end Expression

end FunctionCalculator
