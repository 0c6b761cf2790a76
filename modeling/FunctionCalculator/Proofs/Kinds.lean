import FunctionCalculator.Proofs.Meaning
import FunctionCalculator.Proofs.Provenance
import Mathlib.Data.List.Chain

/-!
# The kind of a lexeme

The automaton knows what it puts out: an operand leaves the buffer in the state in which it was
read, operators and brackets come out by themselves. Tokens do not keep this; their kind is read off
their text again.

What is proved:
  1. `Step.holds`: what is in the buffer in each state.
  2. `Configuration.mem_emissions_of_apply`, `Kinded.advance`, `Kinded.scan`: whatever comes out is
     of a kind that the state tells, and has the text of that kind.
  3. `Writes.alternates`: operands and operators alternate in the tokens of a tree.
  4. `kinds_agree`: both for a whole text.
-/

namespace FunctionCalculator

namespace Lexeme

/-! ## The buffer -/

/-- What the buffer holds in a state: signs that wait for an operand, or signs and the part of an
operand that was read. -/
inductive Holds : State → List Char → Prop
  | signs (n : Nat) : Holds .start (minuses n)
  | integer (n : Nat) {c : Char} {ds : List Char} (first : c.isDigit = true)
      (digits : ∀ d ∈ ds, d.isDigit = true) : Holds .integer (minuses n ++ c :: ds)
  | decimal (n : Nat) {c : Char} {ds es : List Char} (first : c.isDigit = true)
      (digits : ∀ d ∈ ds, d.isDigit = true) (places : ∀ d ∈ es, d.isDigit = true) :
      Holds .decimal (minuses n ++ c :: (ds ++ '.' :: es))
  | name (n : Nat) (f : FunctionName) : Holds .name (minuses n ++ f.letters)
  | bracket : Holds .afterBracket []
  | var : Holds .afterVariable []

theorem View.Step.holds {v w : View} {c : Char} (h : Holds v.state v.buffer) (step : Step v c w) :
    Holds w.state w.buffer := by
  have singleton {c : Char} {p : Char → Bool} (hc : p c = true) : ∀ d ∈ [c], p d = true :=
    List.forall_mem_singleton.mpr hc
  cases step with
  | sign =>
    obtain ⟨n⟩ := h
    exact minuses_append_singleton n ▸ .signs (n + 1)
  | firstDigit hc =>
    obtain ⟨n⟩ := h
    exact .integer n hc (List.forall_mem_nil _)
  | firstLetter hc hx =>
    obtain ⟨n⟩ := h
    exact .name n ⟨_, [], hc, hx, List.forall_mem_nil _⟩
  | var => exact .var
  | group => exact h
  | nextDigit hs hc =>
    rcases hs with rfl | rfl
    · obtain - | ⟨n, first, digits⟩ := h
      have digits := List.forall_mem_append.mpr ⟨digits, singleton hc⟩
      simpa using Holds.integer n first digits
    · obtain - | - | ⟨n, first, digits, places⟩ := h
      have places := List.forall_mem_append.mpr ⟨places, singleton hc⟩
      simpa using Holds.decimal n first digits places
  | point hc =>
    obtain - | ⟨n, first, digits⟩ := h
    simpa using Holds.decimal n first digits (List.forall_mem_nil _)
  | nextLetter hc =>
    obtain - | - | - | ⟨n, f⟩ := h
    have letters := List.forall_mem_append.mpr ⟨f.rest_ok, singleton hc⟩
    simpa [FunctionName.letters] using
      Holds.name n ⟨f.first, _, f.first_ok, f.first_ne, letters⟩
  | call => exact .signs 0
  | closeNumber hs => exact .bracket
  | closeAgain hs =>
    rcases hs with rfl | rfl <;> cases h <;> exact .bracket
  | operator hs o => exact .signs 0

theorem Holds.exists_minuses {b : List Char} (h : Holds .start b) : ∃ n, b = minuses n := by
  obtain ⟨n⟩ := h
  exact ⟨n, rfl⟩

theorem View.holds_of_run {v : View} {cs : List Char} (h : run {} cs = some v) :
    Holds v.state v.buffer :=
  run_invariant (P := fun v _ => Holds v.state v.buffer) (u := []) Step.holds (.signs 0) h

/-! ## What comes out -/

/-- The rows of the table. The variable is an operand of one character, which is flushed at once.
Else the buffer is flushed where an operand ends, before anything else, and only operators and
brackets come out by themselves. -/
theorem effects_of_row {s : State} {k : CharClass} {t : Transition}
    (ht : Transition.of? s k = some t) :
    s = .start ∧ k = .var ∧ t.effects = [.append, .flush, .markVariable] ∨
      (.flush ∈ t.effects → .append ∉ t.effects ∧ .appendPoint ∉ t.effects ∧ s ≠ .start) ∧
      (.emit ∈ t.effects → k = .opening ∨ k = .closing ∨ k = .operator ∨ k = .minus) := by
  unfold Transition.of? at ht
  split at ht <;> cases ht <;> simp

/-- A text that comes out in a certain way, and what kind the automaton has read it as. -/
inductive Made : Origin → List Char → Token.Kind → Prop
  | number {s : State} {t : List Char} (number : s.InNumber) (text : Holds s t) :
      Made (.buffered s) t .number
  | var (n : Nat) : Made (.buffered .start) (minuses n ++ [variableChar]) .var
  | name {t : List Char} (text : Holds .name t) : Made (.buffered .name) t .function
  | operator (o : Operator) : Made .single [o.symbol] .operator
  | opening : Made .single ['('] .opening
  | closing : Made .single [')'] .closing

/-- The kind that the text of a token tells is the one that the automaton has read. -/
theorem Made.ofText_eq {o : Origin} {t : List Char} {k : Token.Kind} (h : Made o t k) :
    Token.Kind.ofText t = k := by
  cases h with
  | number hs text =>
    cases text with
    | signs | name | bracket | var => rcases hs with hs | hs <;> cases hs
    | @integer n c ds first digits =>
      have kind := Token.Kind.ofText_number n ⟨c, ds, none, first, digits⟩
      simpa [Numeral.point] using kind
    | @decimal n c ds es first digits places =>
      have kind := Token.Kind.ofText_number n
        ⟨c, ds, some ⟨'.', es, by decide, places⟩, first, digits⟩
      simpa [Numeral.point, Fraction.point] using kind
  | var n => exact Token.Kind.ofText_var n
  | name text =>
    obtain - | - | - | ⟨n, f⟩ := text
    exact Token.Kind.ofText_name n f
  | operator o => exact Token.Kind.ofText_operator o
  | opening => rfl
  | closing => rfl

/-- What is in the buffer where an operand ends. -/
theorem Holds.exists_made {s : State} {b : List Char} (h : Holds s b) (hs : s ≠ .start)
    (hb : b ≠ []) : ∃ kind, Made (.buffered s) b kind := by
  cases h with
  | signs => exact absurd rfl hs
  | integer n first digits => exact ⟨_, .number (.inl rfl) (.integer n first digits)⟩
  | decimal n first digits places =>
    exact ⟨_, .number (.inr rfl) (.decimal n first digits places)⟩
  | name n f => exact ⟨_, .name (.name n f)⟩
  | bracket | var => exact absurd rfl hb

/-- What comes out by itself. -/
theorem exists_made_single {c : Char} {k : CharClass} (hc : k.Holds c)
    (hk : k = .opening ∨ k = .closing ∨ k = .operator ∨ k = .minus) :
    ∃ kind, Made .single [c] kind := by
  rcases hk with rfl | rfl | rfl | rfl
  · obtain rfl : c = '(' := hc
    exact ⟨_, .opening⟩
  · obtain rfl : c = ')' := hc
    exact ⟨_, .closing⟩
  · obtain ⟨o, -, rfl⟩ := hc
    exact ⟨_, .operator o⟩
  · obtain rfl : c = '-' := hc
    exact ⟨_, .operator .minus⟩

namespace Configuration

variable {k k' : Configuration} {c : Char} {i : Nat}

theorem mem_emissions_of_apply {e : Effect} (h : k.apply c i e = .ok k') {m : Emission}
    (hm : m ∈ k'.emissions) :
    m ∈ k.emissions ∨
      e = .flush ∧ k.buffer ≠ [] ∧ m = ⟨⟨k.buffer, k.bufferStart⟩, .buffered k.state⟩ ∨
      e = .emit ∧ m = ⟨⟨[c], i⟩, .single⟩ := by
  cases e with
  | append | appendPoint | openBracket | markVariable =>
    cases h
    exact .inl hm
  | flush =>
    cases h
    unfold flush at hm
    split at hm
    · exact .inl hm
    · next nonempty =>
      rw [List.isEmpty_iff] at nonempty
      rcases Array.mem_push.mp hm with old | new
      · exact .inl old
      · exact .inr (.inl ⟨rfl, nonempty, new⟩)
  | emit =>
    cases h
    rcases Array.mem_push.mp hm with old | new
    · exact .inl old
    · exact .inr (.inr ⟨rfl, new⟩)
  | closeBracket =>
    rw [apply] at h
    split at h <;> cases h
    exact .inl hm

theorem buffer_of_apply {e : Effect} (h : k.apply c i e = .ok k') (append : e ≠ .append)
    (point : e ≠ .appendPoint) : k'.state = k.state ∧ (k'.buffer = k.buffer ∨ k'.buffer = []) := by
  cases e with
  | append => exact absurd rfl append
  | appendPoint => exact absurd rfl point
  | flush =>
    cases h
    unfold flush
    split
    · exact ⟨rfl, .inl rfl⟩
    · exact ⟨rfl, .inr rfl⟩
  | emit | openBracket | markVariable =>
    cases h
    exact ⟨rfl, .inl rfl⟩
  | closeBracket =>
    rw [apply] at h
    split at h <;> cases h
    exact ⟨rfl, .inl rfl⟩

/-- All that is out is of some kind. -/
def Kinded (k : Configuration) : Prop := ∀ m ∈ k.emissions, ∃ kind, Made m.origin m.lexeme.text kind

theorem Kinded.apply {e : Effect} (h : k.Kinded) (hk : k.apply c i e = .ok k')
    (flush : e = .flush → k.buffer ≠ [] → ∃ kind, Made (.buffered k.state) k.buffer kind)
    (emit : e = .emit → ∃ kind, Made .single [c] kind) : k'.Kinded := by
  intro m hm
  rcases mem_emissions_of_apply hk hm with old | ⟨he, nonempty, rfl⟩ | ⟨he, rfl⟩
  · exact h m old
  · exact flush he nonempty
  · exact emit he

/-- The effects of a row. The induction is on the effects, for any configuration: what is in the
buffer stays there until it is flushed. -/
theorem Kinded.effects {es : List Effect} (h : k.Kinded)
    (hk : es.foldlM (Configuration.apply c i) k = .ok k')
    (flush : .flush ∈ es → (.append ∉ es ∧ .appendPoint ∉ es) ∧
      (k.buffer ≠ [] → ∃ kind, Made (.buffered k.state) k.buffer kind))
    (emit : .emit ∈ es → ∃ kind, Made .single [c] kind) : k'.Kinded := by
  induction es generalizing k with
  | nil =>
    cases hk
    exact h
  | cons e es ih =>
    obtain ⟨k₁, he, hes⟩ := exists_of_foldlM_cons hk
    refine ih (h.apply he ?_ ?_) hes (fun later => ?_) fun later => emit (.tail e later)
    · rintro rfl
      exact (flush (.head es)).2
    · rintro rfl
      exact emit (.head es)
    · obtain ⟨⟨append, point⟩, made⟩ := flush (.tail e later)
      obtain ⟨first, append⟩ := not_or.mp (mt List.mem_cons.mpr append)
      obtain ⟨second, point⟩ := not_or.mp (mt List.mem_cons.mpr point)
      obtain ⟨state, kept | empty⟩ := buffer_of_apply he (Ne.symm first) (Ne.symm second)
      · rw [state, kept]
        exact ⟨⟨append, point⟩, made⟩
      · exact ⟨⟨append, point⟩, fun nonempty => absurd empty nonempty⟩

theorem Kinded.advance {p : Char × Nat} (h : k.Kinded) (buffer : Holds k.state k.buffer)
    (hk : k.advance p = .ok k') : k'.Kinded := by
  obtain ⟨c, i⟩ := p
  obtain ⟨t, reached, row, effects, rfl⟩ := exists_of_advance hk
  have holds := CharClass.holds_ofChar c
  show reached.Kinded
  rcases effects_of_row row with ⟨start, class', var⟩ | ⟨flush, emit⟩
  · -- the variable goes behind the signs, and they come out together
    obtain rfl : c = variableChar := (class' ▸ holds :)
    obtain ⟨n, signs⟩ := (start ▸ buffer : Holds .start k.buffer).exists_minuses
    rw [var] at effects
    obtain ⟨k₁, appended, rest⟩ := exists_of_foldlM_cons effects
    have buffer₁ : k₁.state = .start ∧ k₁.buffer = minuses n ++ [variableChar] := by
      cases appended
      exact ⟨start, congrArg (· ++ [variableChar]) signs⟩
    refine (h.apply appended nofun nofun).effects rest (fun _ => ⟨by simp, fun _ => ?_⟩) (by simp)
    rw [buffer₁.1, buffer₁.2]
    exact ⟨_, .var n⟩
  · refine h.effects effects (fun flushed => ?_) fun emitted => ?_
    · obtain ⟨append, point, operand⟩ := flush flushed
      exact ⟨⟨append, point⟩, buffer.exists_made operand⟩
    · exact exists_made_single holds (emit emitted)

theorem Kinded.scan {cs : List (Char × Nat)} (h : k.Kinded) (buffer : Holds k.state k.buffer)
    (hk : k.scan cs = .ok k') : k'.Kinded ∧ Holds k'.state k'.buffer := by
  induction cs generalizing k with
  | nil =>
    cases hk
    exact ⟨h, buffer⟩
  | cons p cs ih =>
    obtain ⟨k₁, first, rest⟩ := exists_of_foldlM_cons hk
    have seen := k.view_advance p
    rw [first] at seen
    have buffer₁ := (View.advance_eq_some_iff.mp seen.symm).holds buffer
    exact ih (h.advance buffer first) buffer₁ rest

end Configuration

end Lexeme

/-! ## Neighbours -/

namespace Token.Kind

def beginsOperand : Kind → Bool
  | number | var | function | opening => true
  | operator | closing => false

def endsOperand : Kind → Bool
  | number | var | closing => true
  | operator | function | opening => false

/-- What may stand right behind a token. -/
def Follows : Kind → Kind → Prop
  | number, k | var, k | closing, k => k = operator ∨ k = closing
  | operator, k | opening, k => k.beginsOperand = true
  | function, k => k = opening

/-- Operands and operators alternate, and operands are at both ends. -/
structure Alternates (ks : List Kind) : Prop where
  first : ∃ k ∈ ks.head?, k.beginsOperand = true
  last : ∃ k ∈ ks.getLast?, k.endsOperand = true
  chain : ks.IsChain Follows

theorem follows_closing {k : Kind} (h : k.endsOperand = true) : Follows k closing := by
  cases k with
  | number | var | closing => exact .inr rfl
  | operator | function | opening => cases h

theorem follows_operator {k : Kind} : Follows k operator ↔ k.endsOperand = true := by
  cases k with
  | number | var | closing => exact iff_of_true (.inl rfl) rfl
  | operator | function | opening => exact iff_of_false nofun nofun

namespace Alternates

variable {ks ls : List Kind}

theorem singleton {k : Kind} (first : k.beginsOperand = true) (last : k.endsOperand = true) :
    Alternates [k] :=
  ⟨⟨k, rfl, first⟩, ⟨k, rfl, last⟩, .singleton k⟩

theorem bracket (h : Alternates ks) : Alternates (opening :: (ks ++ [closing])) := by
  refine ⟨⟨_, rfl, rfl⟩, ⟨closing, ?_, rfl⟩, ?_⟩
  · rw [← List.cons_append, List.getLast?_concat]
    rfl
  · obtain ⟨k, first, begins⟩ := h.first
    obtain ⟨k', last, ends⟩ := h.last
    rw [List.isChain_cons, List.isChain_append]
    refine ⟨fun j hj => ?_, h.chain, .singleton _, fun i hi j hj => ?_⟩
    · rw [List.head?_append, first] at hj
      cases hj
      exact begins
    · rw [last] at hi
      cases hi
      cases hj
      exact follows_closing ends

theorem call (h : Alternates ks) : Alternates (function :: opening :: (ks ++ [closing])) := by
  have inner := h.bracket
  refine ⟨⟨_, rfl, rfl⟩, ?_, List.isChain_cons.mpr ⟨fun j hj => ?_, inner.chain⟩⟩
  · rw [List.getLast?_cons_cons]
    exact inner.last
  · cases hj
    rfl

theorem operator (h : Alternates ks) (h' : Alternates ls) :
    Alternates (ks ++ operator :: ls) := by
  obtain ⟨k, first, begins⟩ := h.first
  obtain ⟨k', last, ends⟩ := h.last
  obtain ⟨j, first', begins'⟩ := h'.first
  obtain ⟨j', last', ends'⟩ := h'.last
  refine ⟨⟨k, ?_, begins⟩, ⟨j', ?_, ends'⟩, ?_⟩
  · rw [List.head?_append, first]
    rfl
  · rw [List.getLast?_append, List.getLast?_cons, last']
    rfl
  · rw [List.isChain_append, List.isChain_cons]
    refine ⟨h.chain, ⟨fun i hi => ?_, h'.chain⟩, fun i hi i' hi' => ?_⟩
    · rw [first'] at hi
      cases hi
      exact begins'
    · rw [last] at hi
      cases hi
      cases hi'
      exact follows_operator.mpr ends

theorem neighbours {us vs : List Kind} {k : Kind} (h : Alternates (us ++ k :: vs)) :
    (k = .operator → (∃ j ∈ us.getLast?, j.endsOperand = true) ∧
      ∃ j ∈ vs.head?, j.beginsOperand = true) ∧
    (k = .function → vs.head? = some .opening) := by
  obtain ⟨-, behind, before⟩ := List.isChain_append.mp h.chain
  have next := (List.isChain_cons.mp behind).1
  have follower (hk : k.endsOperand = false) : ∃ j, vs.head? = some j ∧ Follows k j := by
    cases vs with
    | nil =>
      obtain ⟨j, last, ends⟩ := h.last
      rw [List.getLast?_concat] at last
      cases last
      rw [hk] at ends
      cases ends
    | cons j vs => exact ⟨j, rfl, next j rfl⟩
  constructor
  · rintro rfl
    refine ⟨?_, follower rfl⟩
    cases hu : us.getLast? with
    | none =>
      rw [List.getLast?_eq_none_iff] at hu
      obtain ⟨j, first, begins⟩ := h.first
      rw [hu] at first
      cases first
      cases begins
    | some j => exact ⟨j, rfl, follows_operator.mp (before j hu .operator rfl)⟩
  · rintro rfl
    obtain ⟨j, head, rfl⟩ := follower rfl
    exact head

end Alternates

end Token.Kind

theorem Writes.alternates {p : Nat} {ts : List Token} {T : Tree} (h : Writes p ts T) :
    Token.Kind.Alternates (ts.map Token.kind) := by
  induction h with
  | number hk =>
    rw [List.map_singleton, hk]
    exact .singleton rfl rfl
  | var hk =>
    rw [List.map_singleton, hk]
    exact .singleton rfl rfl
  | call hk ho hc _ ih =>
    rw [List.map_cons, List.map_cons, List.map_append, List.map_singleton, hk, ho, hc]
    exact ih.call
  | group ho hc _ ih =>
    rw [List.map_cons, List.map_append, List.map_singleton, ho, hc]
    exact ih.bracket
  | operator hk _ _ _ _ ihl ihr =>
    rw [List.map_append, List.map_cons, hk]
    exact ihl.operator ihr

namespace Lexeme

open Token.Kind (Alternates)

/-- The kind of each token is the one that the automaton has read, and its text is one of that kind.
Operands and operators alternate: an operator stands behind an operand and in front of one, and a
function in front of a bracket. -/
theorem kinds_agree {s : List Char} {r : Reading} (h : Reading.ofChars s = .ok r) :
    (∃ k, run s = .ok k ∧ r.lexemes = k.lexemes ∧
      ∀ m ∈ k.emissions, Made m.origin m.lexeme.text (Token.Kind.ofText m.lexeme.text)) ∧
    Alternates ((r.lexemes.map Token.ofLexeme).map Token.kind) ∧
    ∀ us k vs, (r.lexemes.map Token.ofLexeme).map Token.kind = us ++ k :: vs →
      (k = .operator → (∃ j ∈ us.getLast?, j.endsOperand = true) ∧
        ∃ j ∈ vs.head?, j.beginsOperand = true) ∧
      (k = .function → vs.head? = some .opening) := by
  obtain ⟨φ, -, texts, -⟩ := Reading.ofChars_eq_ok h
  obtain ⟨T, hT⟩ := φ.exists_writes texts
  refine ⟨?_, hT.alternates, fun us k vs split => (split ▸ hT.alternates).neighbours⟩
  obtain ⟨k', hr, rfl⟩ := Reading.exists_run h
  refine ⟨k', hr, rfl, fun m hm => ?_⟩
  obtain ⟨k, hk, operand, rfl⟩ := exists_scan_of_run hr
  obtain ⟨kinded, buffer⟩ := Configuration.Kinded.scan (k := {}) nofun (.signs 0) hk
  have flushed : k.flush.Kinded := kinded.apply (c := ' ') (i := 0) (e := .flush) rfl
    (fun _ => buffer.exists_made operand) nofun
  obtain ⟨kind, made⟩ := flushed m hm
  rw [made.ofText_eq]
  exact made

theorem kinds_agree_borders :
    ∃ r k, Reading.ofChars "-(x)-5.*exp(2)".toList = .ok r ∧
      run "-(x)-5.*exp(2)".toList = .ok k ∧
      k.emissions.toList.map (fun m => (m.lexeme.text, m.origin)) =
        [("(".toList, .single), ("-x".toList, .buffered .start), (")".toList, .single),
          ("-".toList, .single), ("5.".toList, .buffered .decimal), ("*".toList, .single),
          ("exp".toList, .buffered .name), ("(".toList, .single),
          ("2".toList, .buffered .integer), (")".toList, .single)] ∧
      ∀ m ∈ k.emissions, Made m.origin m.lexeme.text (Token.Kind.ofText m.lexeme.text) := by
  obtain ⟨⟨k, hk, -, made⟩, -⟩ := kinds_agree (s := "-(x)-5.*exp(2)".toList) rfl
  obtain rfl := Except.ok.inj (hk.symm.trans rfl)
  exact ⟨_, _, rfl, hk, by decide, made⟩

end Lexeme

end FunctionCalculator
