import FunctionCalculator.Lexeme.Scan

/-!
# The reading automaton on plain characters

A view is what a configuration holds apart from indices and origins. The automaton acts on views
by itself, since no index decides anything.

What is proved:
  1. `texts_ofChars`: reading a text, seen through views, is the run over its visible characters.
  2. `advance_eq_some_iff`: a step of that run is one of those of `Step`.
  3. `Text.shown_eq_append_cons_iff`, `Text.exists_of_visible_eq`: where a text is split at one of
     its visible characters.
-/

namespace FunctionCalculator

namespace Lexeme

/-- A configuration without indices and origins. -/
structure View where
  state : State := .start
  buffer : List Char := []
  depth : Nat := 0
  dependsOnX : Bool := false
  texts : List (List Char) := []

namespace View

def pending (b : List Char) : List (List Char) := if b.isEmpty then [] else [b]

def apply (c : Char) (v : View) : Effect → Option View
  | .append => some { v with buffer := v.buffer ++ [c] }
  | .appendPoint => some { v with buffer := v.buffer ++ ['.'] }
  | .flush => some { v with buffer := [], texts := v.texts ++ pending v.buffer }
  | .emit => some { v with texts := v.texts ++ [[c]] }
  | .openBracket => some { v with depth := v.depth + 1 }
  | .closeBracket => if v.depth = 0 then none else some { v with depth := v.depth - 1 }
  | .markVariable => some { v with dependsOnX := true }

def advance (v : View) (c : Char) : Option View :=
  match Transition.of? v.state (CharClass.ofChar c) with
  | none => none
  | some t => (t.effects.foldlM (apply c) v).map fun w => { w with state := t.next }

def run (v : View) (cs : List Char) : Option View := cs.foldlM advance v

/-- The texts and the variable's mark at a good end: no bracket is open, and no operand is due. -/
def finish (v : View) : Option (List (List Char) × Bool) :=
  if v.depth = 0 ∧ v.state ≠ .start ∧ v.state ≠ .name then
    some (v.texts ++ pending v.buffer, v.dependsOnX)
  else none

def read (cs : List Char) : Option (List (List Char) × Bool) := (run {} cs).bind finish

end View

/-! ## The two runs agree -/

def Configuration.view (k : Configuration) : View :=
  ⟨k.state, k.buffer, k.depth, k.dependsOnX, k.lexemes.map Lexeme.text⟩

/-- A fold that may fail, seen through `π`. -/
theorem toOption_foldlM {α α' β γ ε : Type} {f : β → α → Except ε β} {g : γ → α' → Option γ}
    {π : β → γ} {ρ : α → α'} (h : ∀ b a, (f b a).toOption.map π = g (π b) (ρ a)) (as : List α)
    (b : β) : (as.foldlM f b).toOption.map π = (as.map ρ).foldlM g (π b) := by
  induction as generalizing b with
  | nil => rfl
  | cons a as ih =>
    rw [List.foldlM_cons, List.map_cons, List.foldlM_cons, ← h]
    cases f b a with
    | error e => rfl
    | ok b' => exact ih b'

theorem exists_of_foldlM_cons {α β ε : Type} {f : β → α → Except ε β} {a : α} {as : List α}
    {b b' : β} (h : (a :: as).foldlM f b = .ok b') :
    ∃ b₁, f b a = .ok b₁ ∧ as.foldlM f b₁ = .ok b' := by
  rw [List.foldlM_cons] at h
  cases ha : f b a with
  | error e =>
    rw [ha] at h
    cases h
  | ok b₁ =>
    rw [ha] at h
    exact ⟨b₁, rfl, h⟩

namespace Configuration

theorem view_flush (k : Configuration) (c : Char) :
    some k.flush.view = k.view.apply c .flush := by
  unfold flush View.apply View.pending
  cases h : k.buffer.isEmpty
  · simp [view, lexemes, h]
  · simp [view, List.isEmpty_iff.mp h]

theorem view_apply (c : Char) (i : Nat) (k : Configuration) (e : Effect) :
    (k.apply c i e).toOption.map view = k.view.apply c e := by
  cases e with
  | append => rfl
  | appendPoint => rfl
  | flush => exact k.view_flush c
  | emit => simp [apply, View.apply, Except.toOption, view, lexemes]
  | openBracket => rfl
  | closeBracket =>
    rw [apply, View.apply]
    show _ = if k.depth = 0 then _ else _
    split <;> rfl
  | markVariable => rfl

theorem view_advance (k : Configuration) (p : Char × Nat) :
    (k.advance p).toOption.map view = k.view.advance p.1 := by
  rw [advance, transition, View.advance]
  show _ = match Transition.of? k.state (CharClass.ofChar p.1) with | none => _ | some t => _
  cases Transition.of? k.state (CharClass.ofChar p.1) with
  | none => rfl
  | some t =>
    have effects := toOption_foldlM (ρ := id) (view_apply p.1 p.2) t.effects k
    rw [List.map_id] at effects
    simp only
    rw [← effects]
    cases t.effects.foldlM (apply p.1 p.2) k <;> rfl

theorem view_scan (k : Configuration) (cs : List (Char × Nat)) :
    (k.scan cs).toOption.map view = k.view.run (cs.map Prod.fst) :=
  toOption_foldlM view_advance cs k

theorem view_finish (k : Configuration) (last length : Nat) :
    (k.finish last length).toOption.map (fun k => (k.lexemes.map Lexeme.text, k.dependsOnX)) =
      k.view.finish := by
  have flushed := Option.some.inj (k.view_flush ' ')
  have texts : k.flush.lexemes.map Lexeme.text = k.view.texts ++ View.pending k.view.buffer :=
    congrArg View.texts flushed
  have depth : k.flush.depth = k.view.depth := congrArg View.depth flushed
  have var : k.flush.dependsOnX = k.view.dependsOnX := congrArg View.dependsOnX flushed
  have state : k.flush.state = k.view.state := congrArg View.state flushed
  rw [finish, View.finish, ← texts, ← var, ← depth, ← state]
  by_cases hd : k.flush.depth = 0
  · cases k.flush.state <;> simp [hd, Except.toOption]
  · simp [hd, Except.toOption]

end Configuration

/-! ## Classes of characters -/

namespace CharClass

variable {c : Char}

/-- What the characters of a class are. -/
def Holds : CharClass → Char → Prop
  | digit, c => c.isDigit = true
  | opening, c => c = '('
  | closing, c => c = ')'
  | minus, c => c = '-'
  | operator, c => ∃ o : Operator, o ≠ .minus ∧ c = o.symbol
  | var, c => c = variableChar
  | letter, c => isNameLetter c = true ∧ c ≠ variableChar
  | separator, c => isSeparator c = true
  | other, _ => True

theorem holds_ofChar (c : Char) : (ofChar c).Holds c := by
  unfold ofChar
  split
  · assumption
  split
  · assumption
  split
  · assumption
  split
  · assumption
  split
  · assumption
  split
  · next minus _ operator =>
    obtain ⟨o, rfl⟩ := isOperator_iff.mp operator
    exact ⟨o, fun h => minus (by rw [h]; rfl), rfl⟩
  split
  · next var _ letter => exact ⟨letter, var⟩
  split
  · assumption
  · trivial

theorem toNat_of_isNameLetter (h : isNameLetter c = true) :
    (65 ≤ c.toNat ∧ c.toNat ≤ 90) ∨ (97 ≤ c.toNat ∧ c.toNat ≤ 122) ∨ c = '_' := by
  have letter : isNameLetter c = (decide (65 ≤ c.val ∧ c.val ≤ 90) ||
      decide (97 ≤ c.val) && decide (c.val ≤ 122) || decide (c = '_')) := rfl
  rw [letter] at h
  simp only [Bool.or_eq_true, Bool.and_eq_true, decide_eq_true_eq, UInt32.le_iff_toNat_le,
    or_assoc] at h
  exact h

theorem isDigit_eq_false_of_isNameLetter (h : isNameLetter c = true) : c.isDigit = false := by
  rw [Bool.eq_false_iff]
  intro digit
  have bounds : 48 ≤ c.toNat ∧ c.toNat ≤ 57 := Char.isDigit_iff_toNat.mp digit
  rcases toNat_of_isNameLetter h with upper | lower | rfl
  · omega
  · omega
  · exact absurd digit (by decide)

theorem isOperator_eq_false {p : Char → Bool} (hp : ∀ o : Operator, p o.symbol = false)
    (h : p c = true) : isOperator c = false := by
  rw [Bool.eq_false_iff]
  intro ho
  obtain ⟨o, rfl⟩ := isOperator_iff.mp ho
  rw [hp o] at h
  cases h

theorem ne_of_holds {p : Char → Bool} {d : Char} (hd : p d = false) (h : p c = true) : c ≠ d := by
  intro hc
  rw [hc, hd] at h
  cases h

theorem ofChar_letter (h : isNameLetter c = true) (hx : c ≠ variableChar) : ofChar c = letter := by
  have operator : isOperator c = false :=
    isOperator_eq_false (p := isNameLetter) (by intro o; cases o <;> decide) h
  have marks {d} (hd : isNameLetter d = false) : c ≠ d := ne_of_holds hd h
  have opening : c ≠ '(' := marks (by decide)
  have closing : c ≠ ')' := marks (by decide)
  have minus : c ≠ '-' := marks (by decide)
  simp only [ofChar, isDigit_eq_false_of_isNameLetter h, opening, closing, minus, hx, operator, h,
    Bool.false_eq_true, if_false, if_true]

theorem ofChar_of_holds {k : CharClass} (hk : k ≠ other) (h : k.Holds c) : ofChar c = k := by
  cases k with
  | digit => exact if_pos h
  | opening => rw [h]; decide
  | closing => rw [h]; decide
  | minus => rw [h]; decide
  | operator =>
    obtain ⟨o, ho, rfl⟩ := h
    cases o with
    | minus => exact absurd rfl ho
    | plus | times | divide | power => decide
  | var => rw [h]; decide
  | letter => exact ofChar_letter h.1 h.2
  | separator =>
    simp only [Holds, isSeparator, Bool.or_eq_true, decide_eq_true_eq] at h
    rcases h with rfl | rfl <;> decide
  | other => exact absurd rfl hk

end CharClass

/-! ## One step -/

/-- In the digits of a number. -/
def State.InNumber (s : State) : Prop := s = .integer ∨ s = .decimal

/-- Behind an operand that is complete. -/
def State.Closed (s : State) : Prop := s = .afterBracket ∨ s = .afterVariable

namespace View

/-- The steps of the automaton. -/
inductive Step : View → Char → View → Prop
  | sign {b d x ts} : Step ⟨.start, b, d, x, ts⟩ '-' ⟨.start, b ++ ['-'], d, x, ts⟩
  | firstDigit {b d x ts c} (hc : c.isDigit = true) :
      Step ⟨.start, b, d, x, ts⟩ c ⟨.integer, b ++ [c], d, x, ts⟩
  | firstLetter {b d x ts c} (hc : isNameLetter c = true) (hx : c ≠ variableChar) :
      Step ⟨.start, b, d, x, ts⟩ c ⟨.name, b ++ [c], d, x, ts⟩
  | var {b d x ts} :
      Step ⟨.start, b, d, x, ts⟩ variableChar
        ⟨.afterVariable, [], d, true, ts ++ pending (b ++ [variableChar])⟩
  | group {b d x ts} : Step ⟨.start, b, d, x, ts⟩ '(' ⟨.start, b, d + 1, x, ts ++ [['(']]⟩
  | nextDigit {s b d x ts c} (hs : s.InNumber) (hc : c.isDigit = true) :
      Step ⟨s, b, d, x, ts⟩ c ⟨s, b ++ [c], d, x, ts⟩
  | point {b d x ts c} (hc : isSeparator c = true) :
      Step ⟨.integer, b, d, x, ts⟩ c ⟨.decimal, b ++ ['.'], d, x, ts⟩
  | nextLetter {b d x ts c} (hc : isNameLetter c = true) :
      Step ⟨.name, b, d, x, ts⟩ c ⟨.name, b ++ [c], d, x, ts⟩
  | call {b d x ts} :
      Step ⟨.name, b, d, x, ts⟩ '(' ⟨.start, [], d + 1, x, ts ++ pending b ++ [['(']]⟩
  | closeNumber {s b d x ts} (hs : s.InNumber) :
      Step ⟨s, b, d + 1, x, ts⟩ ')' ⟨.afterBracket, [], d, x, ts ++ pending b ++ [[')']]⟩
  | closeAgain {s b d x ts} (hs : s.Closed) :
      Step ⟨s, b, d + 1, x, ts⟩ ')' ⟨.afterBracket, b, d, x, ts ++ [[')']]⟩
  | operator {s b d x ts} (hs : s.InNumber ∨ s.Closed) (o : Operator) :
      Step ⟨s, b, d, x, ts⟩ o.symbol ⟨.start, [], d, x, ts ++ pending b ++ [[o.symbol]]⟩

theorem advance_of_row {v w : View} {c : Char} {k : CharClass} {t : Transition}
    (hk : k ≠ .other) (hc : k.Holds c) (ht : Transition.of? v.state k = some t)
    (hw : (t.effects.foldlM (apply c) v).map (fun u => { u with state := t.next }) = some w) :
    v.advance c = some w := by
  simp only [advance, CharClass.ofChar_of_holds hk hc, ht, hw]

theorem Step.advance_eq {v w : View} {c : Char} (h : Step v c w) : v.advance c = some w := by
  cases h with
  | sign => exact advance_of_row (k := .minus) (by decide) rfl rfl rfl
  | firstDigit hc => exact advance_of_row (k := .digit) (by decide) hc rfl rfl
  | firstLetter hc hx => exact advance_of_row (k := .letter) (by decide) ⟨hc, hx⟩ rfl rfl
  | var => exact advance_of_row (k := .var) (by decide) rfl rfl rfl
  | group => exact advance_of_row (k := .opening) (by decide) rfl rfl rfl
  | nextDigit hs hc =>
    rcases hs with rfl | rfl
    · exact advance_of_row (k := .digit) (by decide) hc rfl rfl
    · exact advance_of_row (k := .digit) (by decide) hc rfl rfl
  | point hc => exact advance_of_row (k := .separator) (by decide) hc rfl rfl
  | @nextLetter _ _ _ _ c hc =>
    by_cases hx : c = variableChar
    · exact advance_of_row (k := .var) (by decide) hx rfl rfl
    · exact advance_of_row (k := .letter) (by decide) ⟨hc, hx⟩ rfl rfl
  | call => exact advance_of_row (k := .opening) (by decide) rfl rfl rfl
  | closeNumber hs =>
    rcases hs with rfl | rfl <;> exact advance_of_row (k := .closing) (by decide) rfl rfl rfl
  | closeAgain hs =>
    rcases hs with rfl | rfl <;> exact advance_of_row (k := .closing) (by decide) rfl rfl rfl
  | operator hs o =>
    by_cases ho : o = .minus
    · subst ho
      rcases hs with (rfl | rfl) | (rfl | rfl) <;>
        exact advance_of_row (k := .minus) (by decide) rfl rfl rfl
    · rcases hs with (rfl | rfl) | (rfl | rfl) <;>
        exact advance_of_row (k := .operator) (by decide) ⟨o, ho, rfl⟩ rfl rfl

theorem depth_ne_zero {v w : View} {c : Char} (h : (v.apply c .closeBracket).bind some = some w) :
    v.depth ≠ 0 := by
  intro hd
  rw [apply, if_pos hd] at h
  cases h

/-- Every row of the table is one of the steps. -/
theorem Step.exists_of_advance {v w : View} {c : Char} (h : v.advance c = some w) :
    ∃ u, Step v c u := by
  obtain ⟨s, b, d, x, ts⟩ := v
  have holds {k} (hk : CharClass.ofChar c = k) : k.Holds c := hk ▸ CharClass.holds_ofChar c
  have number (hs : s.InNumber) (hk : CharClass.ofChar c = .closing) (hd : d ≠ 0) :
      ∃ u, Step ⟨s, b, d, x, ts⟩ c u := by
    obtain ⟨d, rfl⟩ := Nat.exists_eq_succ_of_ne_zero hd
    obtain rfl : c = ')' := holds hk
    exact ⟨_, .closeNumber hs⟩
  have again (hs : s.Closed) (hk : CharClass.ofChar c = .closing) (hd : d ≠ 0) :
      ∃ u, Step ⟨s, b, d, x, ts⟩ c u := by
    obtain ⟨d, rfl⟩ := Nat.exists_eq_succ_of_ne_zero hd
    obtain rfl : c = ')' := holds hk
    exact ⟨_, .closeAgain hs⟩
  have operator (hs : s.InNumber ∨ s.Closed)
      (hk : CharClass.ofChar c = .operator ∨ CharClass.ofChar c = .minus) :
      ∃ u, Step ⟨s, b, d, x, ts⟩ c u := by
    rcases hk with hk | hk
    · obtain ⟨o, -, rfl⟩ := holds hk
      exact ⟨_, .operator hs o⟩
    · obtain rfl : c = '-' := holds hk
      exact ⟨_, .operator hs .minus⟩
  unfold advance at h
  split at h
  · cases h
  next t ht =>
  -- the effects matter only where a bracket closes: they succeed if one is open
  obtain ⟨u, hu, -⟩ := Option.map_eq_some_iff.mp h
  unfold Transition.of? at ht
  -- the rows of the table, in its order
  split at ht <;> cases ht <;> rename_i hs hk <;> cases hs
  · exact ⟨_, .firstDigit (holds hk)⟩
  · exact (holds hk : c = '(') ▸ ⟨_, .group⟩
  · exact (holds hk : c = '-') ▸ ⟨_, .sign⟩
  · exact ⟨_, .firstLetter (holds hk).1 (holds hk).2⟩
  · exact (holds hk : c = variableChar) ▸ ⟨_, .var⟩
  · exact ⟨_, .nextDigit (.inl rfl) (holds hk)⟩
  · exact ⟨_, .point (holds hk)⟩
  · exact ⟨_, .nextDigit (.inr rfl) (holds hk)⟩
  · exact number (.inl rfl) hk (depth_ne_zero hu)
  · exact number (.inr rfl) hk (depth_ne_zero hu)
  · exact again (.inl rfl) hk (depth_ne_zero hu)
  · exact again (.inr rfl) hk (depth_ne_zero hu)
  · exact operator (.inl (.inl rfl)) (.inl hk)
  · exact operator (.inl (.inl rfl)) (.inr hk)
  · exact operator (.inl (.inr rfl)) (.inl hk)
  · exact operator (.inl (.inr rfl)) (.inr hk)
  · exact operator (.inr (.inl rfl)) (.inl hk)
  · exact operator (.inr (.inl rfl)) (.inr hk)
  · exact operator (.inr (.inr rfl)) (.inl hk)
  · exact operator (.inr (.inr rfl)) (.inr hk)
  · exact ⟨_, .nextLetter (holds hk).1⟩
  · exact ⟨_, .nextLetter ((holds hk : c = variableChar) ▸ rfl)⟩
  · exact (holds hk : c = '(') ▸ ⟨_, .call⟩

theorem advance_eq_some_iff {v w : View} {c : Char} : v.advance c = some w ↔ Step v c w := by
  constructor
  · intro h
    obtain ⟨u, hu⟩ := Step.exists_of_advance h
    rwa [← Option.some.inj (hu.advance_eq.symm.trans h)]
  · exact Step.advance_eq

end View

end Lexeme

/-- The characters of a text that are not blank. -/
def Text.shown (s : List Char) : List Char := s.filter fun c => !isBlank c

theorem Text.map_fst_visible (s : List Char) : (visible s).map Prod.fst = shown s := by
  calc (visible s).map Prod.fst
    _ = (s.zipIdx.map Prod.fst).filter (fun c => !isBlank c) := by rw [List.filter_map]; rfl
    _ = shown s := by rw [List.zipIdx_map_fst]; rfl

theorem exists_of_filter_eq {α : Type} {f : α → Bool} {l as bs : List α} {a : α}
    (h : l.filter f = as ++ a :: bs) :
    ∃ us vs, l = us ++ a :: vs ∧ us.filter f = as ∧ vs.filter f = bs := by
  obtain ⟨us, rest, rfl, before, hrest⟩ := List.filter_eq_append_iff.mp h
  obtain ⟨out, vs, rfl, nothing, -, behind⟩ := List.filter_eq_cons_iff.mp hrest
  refine ⟨us ++ out, vs, by rw [List.append_assoc], ?_, behind⟩
  rw [List.filter_append, before, List.filter_eq_nil_iff.mpr nothing, List.append_nil]

namespace Text

theorem shown_cons {c : Char} (hc : isBlank c = false) (t : List Char) :
    shown (c :: t) = c :: shown t :=
  List.filter_cons_of_pos (by rw [hc]; rfl)

/-- A visible character splits a text as it splits what the text shows. -/
theorem shown_eq_append_cons_iff {s t w : List Char} {c : Char} (hc : isBlank c = false) :
    shown s = t ++ c :: w ↔ ∃ u v, s = u ++ c :: v ∧ shown u = t ∧ shown v = w := by
  constructor
  · exact exists_of_filter_eq
  · rintro ⟨u, v, rfl, rfl, rfl⟩
    rw [← shown_cons hc]
    exact List.filter_append ..

/-- A visible character stands behind as many characters as its index says. -/
theorem exists_of_visible_eq {s : List Char} {as bs : List (Char × Nat)} {p : Char × Nat}
    (h : visible s = as ++ p :: bs) :
    ∃ u v, s = u ++ p.1 :: v ∧ u.length = p.2 ∧ shown u = as.map Prod.fst ∧
      shown v = bs.map Prod.fst := by
  obtain ⟨us, vs, split, before, behind⟩ := exists_of_filter_eq h
  have shown_fst (l : List (Char × Nat)) :
      shown (l.map Prod.fst) = (l.filter fun p => !isBlank p.1).map Prod.fst := List.filter_map
  have index : s.zipIdx[us.length]? = some p := by
    rw [split]
    simp
  refine ⟨us.map Prod.fst, vs.map Prod.fst, ?_, ?_, ?_, ?_⟩
  · rw [← List.map_cons, ← List.map_append, ← split, List.zipIdx_map_fst]
  · rw [List.getElem?_zipIdx, Option.map_eq_some_iff] at index
    obtain ⟨c, -, rfl⟩ := index
    simp
  · rw [shown_fst, before]
  · rw [shown_fst, behind]

end Text

namespace Lexeme

theorem texts_ofChars (s : List Char) :
    (Reading.ofChars s).toOption.map (fun r => (r.lexemes.map Lexeme.text, r.dependsOnX)) =
      View.read (Text.shown s) := by
  have reached := Configuration.view_scan {} (Text.visible s)
  rw [Text.map_fst_visible] at reached
  have whole : (Lexeme.run s).toOption.map (fun k => (k.lexemes.map Lexeme.text, k.dependsOnX)) =
      View.read (Text.shown s) := by
    unfold Lexeme.run
    rw [View.read, show View.run {} (Text.shown s) = _ from reached.symm]
    split
    · next h =>
      rw [List.getLast?_eq_none_iff] at h
      rw [h]
      rfl
    · next last _ =>
      cases Configuration.scan {} (Text.visible s) with
      | error stop => rfl
      | ok k => exact k.view_finish last s.length
  rw [← whole, Reading.ofChars]
  cases Lexeme.run s <;> rfl

theorem Reading.read_of_ofChars {s : List Char} {r : Reading} (h : ofChars s = .ok r) :
    View.read (Text.shown s) = some (r.lexemes.map Lexeme.text, r.dependsOnX) := by
  rw [← texts_ofChars, h]
  rfl

theorem Reading.ofChars_of_read {s : List Char} {us : List (List Char)} {x : Bool}
    (h : View.read (Text.shown s) = some (us, x)) :
    ∃ r, ofChars s = .ok r ∧ r.lexemes.map Lexeme.text = us ∧ r.dependsOnX = x := by
  rw [← texts_ofChars] at h
  cases hr : ofChars s with
  | error e =>
    rw [hr] at h
    cases h
  | ok r =>
    rw [hr] at h
    cases h
    exact ⟨r, rfl, rfl, rfl⟩

end Lexeme

end FunctionCalculator
