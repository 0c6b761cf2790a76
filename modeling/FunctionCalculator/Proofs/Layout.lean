import FunctionCalculator.Proofs.Provenance
import Mathlib.Data.List.Forall2

/-!
# Blanks do not matter

Where two texts show the same characters at different places, the automaton does the same at the
corresponding places. A relation between indices says which places correspond; it is carried along
by the run, as no index decides anything.

What is proved:
  1. `Shifted.apply`, `Shifted.advance`, `Shifted.scan`: two runs over the same characters at
     corresponding places stay in step, and where one is refused so is the other.
  2. `forall₂_visible`: the characters that a text shows, and what it shows as a text of its own.
  3. `layout_free`: a text and what it shows are read as the same lexemes, or refused for the same
     cause, at corresponding places.
-/

namespace FunctionCalculator

/-- The index in a text of its visible character number `i`. -/
def Text.place? (s : List Char) (i : Nat) : Option Nat := (visible s)[i]?.map Prod.snd

namespace Lexeme

/-! ## Runs in step -/

section Shift

variable (R : Nat → Nat → Prop)

structure Same (l l' : Lexeme) : Prop where
  text : l.text = l'.text
  position : R l.position l'.position

structure SameChar (p p' : Char × Nat) : Prop where
  char : p.1 = p'.1
  index : R p.2 p'.2

/-- Configurations that differ in indices only, which correspond. The start of the buffer counts
only if there is something in the buffer. -/
structure Shifted (k k' : Configuration) : Prop where
  state : k.state = k'.state
  buffer : k.buffer = k'.buffer
  start : k.buffer ≠ [] → R k.bufferStart k'.bufferStart
  depth : k.depth = k'.depth
  dependsOnX : k.dependsOnX = k'.dependsOnX
  lexemes : List.Forall₂ (Same R) k.lexemes k'.lexemes

/-- What is said of a character, not of the end of a text. -/
def OfCharacter (c : SyntaxError.Cause) : Prop := (∃ s d, c = .unexpected s d) ∨ c = .unopened

/-- Both runs go on in step, or both are refused for one cause at corresponding characters. -/
inductive InStep : Except Stop Configuration → Except Stop Configuration → Prop where
  | ok {k k'} (shifted : Shifted R k k') : InStep (.ok k) (.ok k')
  | error {a a' : Stop} (cause : a.error.cause = a'.error.cause)
      (character : OfCharacter a.error.cause) (position : R a.error.position a'.error.position) :
      InStep (.error a) (.error a')

variable {R} {k k' : Configuration} {c : Char} {i i' : Nat}

theorem InStep.bind {a a' : Except Stop Configuration}
    {f f' : Configuration → Except Stop Configuration} (h : InStep R a a')
    (hf : ∀ k k', a = .ok k → Shifted R k k' → InStep R (f k) (f' k')) :
    InStep R (a >>= f) (a' >>= f') := by
  cases h with
  | ok shifted => exact hf _ _ rfl shifted
  | error cause character position => exact .error cause character position

namespace Shifted

theorem lexemes_push (h : Shifted R k k') {m m' : Emission} (hm : Same R m.lexeme m'.lexeme) :
    List.Forall₂ (Same R) ((k.emissions.push m).toList.map Emission.lexeme)
      ((k'.emissions.push m').toList.map Emission.lexeme) := by
  rw [Array.toList_push, Array.toList_push, List.map_append, List.map_append]
  exact List.rel_append h.lexemes (.cons hm .nil)

theorem flush (h : Shifted R k k') : Shifted R k.flush k'.flush := by
  by_cases empty : k.buffer = []
  · have empty' : k'.buffer = [] := h.buffer ▸ empty
    rwa [Configuration.flush, if_pos (List.isEmpty_iff.mpr empty), Configuration.flush,
      if_pos (List.isEmpty_iff.mpr empty')]
  · have nonempty' : k'.buffer ≠ [] := h.buffer ▸ empty
    rw [Configuration.flush, if_neg (mt List.isEmpty_iff.mp empty), Configuration.flush,
      if_neg (mt List.isEmpty_iff.mp nonempty')]
    exact
      { state := h.state
        buffer := rfl
        start := fun nonempty => absurd rfl nonempty
        depth := h.depth
        dependsOnX := h.dependsOnX
        lexemes := h.lexemes_push ⟨h.buffer, h.start empty⟩ }

/-- One effect. A point comes to a number that has begun, so it does not start the buffer. -/
theorem apply (h : Shifted R k k') (hi : R i i') {e : Effect}
    (point : e = .appendPoint → k.buffer ≠ []) : InStep R (k.apply c i e) (k'.apply c i' e) := by
  cases e with
  | append =>
    refine .ok { h with buffer := congrArg (· ++ [c]) h.buffer, start := fun _ => ?_ }
    show R (if k.buffer.isEmpty then i else k.bufferStart)
      (if k'.buffer.isEmpty then i' else k'.bufferStart)
    rw [← h.buffer]
    split
    · exact hi
    · next nonempty => exact h.start (mt List.isEmpty_iff.mpr nonempty)
  | appendPoint =>
    exact .ok { h with
      buffer := congrArg (· ++ ['.']) h.buffer
      start := fun _ => h.start (point rfl) }
  | flush => exact .ok h.flush
  | emit => exact .ok { h with lexemes := h.lexemes_push ⟨rfl, hi⟩ }
  | openBracket => exact .ok { h with depth := congrArg (· + 1) h.depth }
  | closeBracket =>
    rw [Configuration.apply, Configuration.apply, ← h.depth]
    split
    · exact .error rfl (.inr rfl) hi
    · exact .ok { h with depth := rfl }
  | markVariable => exact .ok { h with dependsOnX := rfl }

theorem effects {es : List Effect} (h : Shifted R k k') (hi : R i i')
    (point : .appendPoint ∉ es) :
    InStep R (es.foldlM (Configuration.apply c i) k) (es.foldlM (Configuration.apply c i') k') := by
  induction es generalizing k k' with
  | nil => exact .ok h
  | cons e es ih =>
    rw [List.foldlM_cons, List.foldlM_cons]
    have first : InStep R (k.apply c i e) (k'.apply c i' e) :=
      h.apply hi fun he => absurd (he ▸ List.mem_cons_self) point
    exact first.bind fun _ _ _ shifted =>
      ih shifted fun later => point (List.mem_cons_of_mem e later)

theorem advance {p p' : Char × Nat} (h : Shifted R k k') (hp : SameChar R p p')
    (integer : k.state = .integer → k.buffer ≠ []) : InStep R (k.advance p) (k'.advance p') := by
  obtain ⟨c, i⟩ := p
  obtain ⟨c', i'⟩ := p'
  obtain rfl : c = c' := hp.char
  have hi : R i i' := hp.index
  rw [Configuration.advance, Configuration.advance, transition, transition, ← h.state]
  cases ht : Transition.of? k.state (CharClass.ofChar c) with
  | none => exact .error rfl (.inl ⟨_, _, rfl⟩) hi
  | some t =>
    have effects : InStep R (t.effects.foldlM (Configuration.apply c i) k)
        (t.effects.foldlM (Configuration.apply c i') k') := by
      rcases separator_of_row ht with ⟨state, -, rfl⟩ | ⟨-, point⟩
      · simp only [List.foldlM_cons, List.foldlM_nil, bind_pure]
        exact h.apply hi fun _ => integer state
      · exact h.effects hi point
    exact effects.bind fun _ _ _ shifted => .ok { shifted with state := rfl }

end Shifted

/-- In a number there is something in the buffer. -/
theorem View.Step.buffer_ne_nil {v w : View} (h : Step v c w) (hs : w.state = .integer) :
    w.buffer ≠ [] := by
  cases h <;> simp_all

theorem buffer_of_advance {p : Char × Nat} (h : k.advance p = .ok k') (hs : k'.state = .integer) :
    k'.buffer ≠ [] := by
  have seen := k.view_advance p
  rw [h] at seen
  exact (View.advance_eq_some_iff.mp seen.symm).buffer_ne_nil hs

theorem Shifted.scan {cs cs' : List (Char × Nat)} (h : Shifted R k k')
    (integer : k.state = .integer → k.buffer ≠ []) (hc : List.Forall₂ (SameChar R) cs cs') :
    InStep R (k.scan cs) (k'.scan cs') := by
  induction hc generalizing k k' with
  | nil => exact .ok h
  | cons hp _ ih =>
    rw [Configuration.scan, Configuration.scan, List.foldlM_cons, List.foldlM_cons]
    exact (h.advance hp integer).bind fun _ _ advanced shifted =>
      ih shifted (buffer_of_advance advanced)

end Shift

/-! ## A text and what it shows -/

variable {s : List Char}

theorem visible_shown (s : List Char) : Text.visible (Text.shown s) = (Text.shown s).zipIdx := by
  refine List.filter_eq_self.mpr fun p hp => ?_
  have member : p.1 ∈ Text.shown s := by
    rw [← List.zipIdx_map_fst 0 (Text.shown s)]
    exact List.mem_map_of_mem hp
  exact (List.mem_filter.mp member).2

/-- A place in a text and the place of the same character in what the text shows. -/
def Places (s : List Char) (i j : Nat) : Prop := Text.place? s j = some i

theorem forall₂_visible (s : List Char) :
    List.Forall₂ (SameChar (Places s)) (Text.visible s) (Text.visible (Text.shown s)) := by
  rw [visible_shown, ← Text.map_fst_visible, List.forall₂_iff_get]
  refine ⟨by simp, fun i hi _ => ⟨by simp, ?_⟩⟩
  simp [Places, Text.place?, List.getElem?_eq_getElem hi]

/-- Where a text and what it shows are refused for a cause: at corresponding places, for a missing
operand one place behind the end of each, and an empty text at its beginning. -/
def Reported (s : List Char) (i j : Nat) : SyntaxError.Cause → Prop
  | .unexpected _ _ | .unopened | .unclosed _ => Places s i j
  | .missingOperand | .missingArgument => i = s.length + 1 ∧ j = (Text.shown s).length + 1
  | .empty => i = 0 ∧ j = 0
  | .unknownFunction _ => False

/-- A text and what it shows are both read, as the same lexemes at corresponding places, or both
refused, for the same cause and so in the same words. -/
inductive SameReading (s : List Char) :
    Except SyntaxError Reading → Except SyntaxError Reading → Prop where
  | read {r r'} (lexemes : List.Forall₂ (Same (Places s)) r.lexemes r'.lexemes)
      (dependsOnX : r.dependsOnX = r'.dependsOnX) : SameReading s (.ok r) (.ok r')
  | refused {e e'} (cause : e.cause = e'.cause) (message : e.message = e'.message)
      (places : Reported s e.position e'.position e.cause) : SameReading s (.error e) (.error e')

theorem SameReading.of_cause {e e' : SyntaxError} (cause : e.cause = e'.cause)
    (places : Reported s e.position e'.position e.cause) :
    SameReading s (.error e) (.error e') :=
  .refused cause (congrArg SyntaxError.Cause.message cause) places

theorem Reported.of_character {c : SyntaxError.Cause} {i j : Nat} (h : OfCharacter c)
    (places : Places s i j) : Reported s i j c := by
  rcases h with ⟨state, found, rfl⟩ | rfl
  · exact places
  · exact places

def Reading.ofRun : Except Stop Configuration → Except SyntaxError Reading
  | .ok k => .ok ⟨k.lexemes, k.dependsOnX⟩
  | .error stop => .error stop.error

theorem Reading.ofChars_eq_ofRun (s : List Char) : ofChars s = ofRun (run s) := by
  rw [ofChars]
  cases run s <;> rfl

theorem Shifted.finish {k k' : Configuration} {last last' : Nat} (h : Shifted (Places s) k k')
    (hl : Places s last last') :
    SameReading s (Reading.ofRun (k.finish last s.length))
      (Reading.ofRun (k'.finish last' (Text.shown s).length)) := by
  have flushed := h.flush
  simp only [Configuration.finish, ← flushed.depth, ← flushed.state]
  split
  · exact .of_cause rfl hl
  · split
    · exact .of_cause rfl ⟨rfl, rfl⟩
    · exact .of_cause rfl ⟨rfl, rfl⟩
    · exact .read flushed.lexemes flushed.dependsOnX

theorem rel_getLast? {α β : Type} {R : α → β → Prop} {l : List α} {l' : List β}
    (h : List.Forall₂ R l l') : Option.Rel R l.getLast? l'.getLast? := by
  induction h with
  | nil => exact .none
  | cons first rest ih =>
    cases rest with
    | nil => exact .some first
    | cons => rwa [List.getLast?_cons_cons, List.getLast?_cons_cons]

theorem sameReading_run (s : List Char) :
    SameReading s (Reading.ofRun (run s)) (Reading.ofRun (run (Text.shown s))) := by
  have visible := forall₂_visible s
  have ends := rel_getLast? visible
  rw [run, run]
  generalize (Text.visible s).getLast? = final at ends ⊢
  generalize (Text.visible (Text.shown s)).getLast? = final' at ends ⊢
  cases ends with
  | none => exact .of_cause rfl ⟨rfl, rfl⟩
  | some last =>
    have initial : Shifted (Places s) {} {} :=
      ⟨rfl, rfl, fun nonempty => absurd rfl nonempty, rfl, rfl, .nil⟩
    have runs := initial.scan (fun integer => State.noConfusion integer) visible
    generalize Configuration.scan {} (Text.visible s) = a at runs ⊢
    generalize Configuration.scan {} (Text.visible (Text.shown s)) = a' at runs ⊢
    cases runs with
    | ok shifted => exact shifted.finish last.index
    | error cause character position => exact .of_cause cause (.of_character character position)

/-- Blanks change nothing but places: a text is read or refused as what it shows is. -/
theorem layout_free (s : String) :
    SameReading s.toList (Reading.ofChars s.toList) (Reading.ofChars (Text.shown s.toList)) := by
  rw [Reading.ofChars_eq_ofRun, Reading.ofChars_eq_ofRun]
  exact sameReading_run s.toList

/-- The stray bracket is the fifth character of the text, and the third of those it shows. -/
example : Text.place? " 1 +)".toList 2 = some 4 ∧
    Reading.ofChars " 1 +)".toList = .error ⟨.unexpected .start ')', 4⟩ ∧
    Reading.ofChars "1+)".toList = .error ⟨.unexpected .start ')', 2⟩ := by decide

end Lexeme

end FunctionCalculator
