import FunctionCalculator.Proofs.Refusal

/-!
# Where lexemes come from

A run gathers the characters of a text into pieces. Each lexeme is a piece, but for its decimal
separator, and stands at the index of the first character of the piece. A piece need not be a
stretch of the text: the signs in front of a bracket go on to the operand inside, past the bracket
itself.

What is proved:
  1. `Gathering.step_of_row`: what a row of the table does to the characters gathered so far.
  2. `Gathers.scan`: the lexemes of a run are those of the pieces that it gathers, for any invariant
     of the gathering that each step keeps.
  3. `Arranged.step`: the invariant that says how pieces lie in the text. A piece is cut out of a
     stretch that begins with signs and opening brackets, the first of them a sign: it is the signs
     of that beginning, and then the rest of the stretch.
  4. `Reading.exists_pieces`: both for a whole text.
-/

namespace FunctionCalculator.Lexeme

/-- A character as a lexeme keeps it: a decimal separator becomes a point. -/
def kept (c : Char) : Char := if isSeparator c then '.' else c

def ofPiece (q : List (Char × Nat)) : Lexeme :=
  ⟨q.map fun p => kept p.1, (q.head?.map Prod.snd).getD 0⟩

/-! ## Gathering -/

/-- The characters in the buffer and in the lexemes put out so far, with their indices. -/
structure Gathering where
  pending : List (Char × Nat) := []
  pieces : List (List (Char × Nat)) := []

namespace Gathering

def flush (g : Gathering) : Gathering :=
  if g.pending.isEmpty then g else ⟨[], g.pieces ++ [g.pending]⟩

def apply (p : Char × Nat) (g : Gathering) : Effect → Gathering
  | .append | .appendPoint => { g with pending := g.pending ++ [p] }
  | .flush => g.flush
  | .emit => { g with pieces := g.pieces ++ [[p]] }
  | .openBracket | .closeBracket | .markVariable => g

def advance (t : Transition) (p : Char × Nat) (g : Gathering) : Gathering :=
  t.effects.foldl (apply p) g

theorem flush_of_nil {g : Gathering} (h : g.pending = []) : g.flush = g :=
  if_pos (List.isEmpty_iff.mpr h)

theorem flush_of_ne_nil {g : Gathering} (h : g.pending ≠ []) :
    g.flush = ⟨[], g.pieces ++ [g.pending]⟩ :=
  if_neg (mt List.isEmpty_iff.mp h)

theorem pending_flush (g : Gathering) : g.flush.pending = [] := by
  by_cases h : g.pending = []
  · rw [flush_of_nil h, h]
  · rw [flush_of_ne_nil h]

end Gathering

/-- A configuration holds what was gathered. -/
structure Gathers (k : Configuration) (g : Gathering) : Prop where
  buffer : k.buffer = g.pending.map fun p => kept p.1
  start : ∀ p ∈ g.pending.head?, k.bufferStart = p.2
  lexemes : k.lexemes = g.pieces.map ofPiece

theorem kept_eq_self {c : Char} (h : isSeparator c = false) : kept c = c :=
  if_neg (Bool.eq_false_iff.mp h)

theorem kept_separator {c : Char} (h : isSeparator c = true) : kept c = '.' := if_pos h

theorem separator_of_row {s : State} {k : CharClass} {t : Transition}
    (ht : Transition.of? s k = some t) :
    (s = .integer ∧ k = .separator ∧ t = ⟨.decimal, [.appendPoint]⟩) ∨
      k ≠ .separator ∧ .appendPoint ∉ t.effects := by
  unfold Transition.of? at ht
  split at ht <;> cases ht
  case h_7 => exact .inl ⟨rfl, rfl, rfl⟩
  all_goals exact .inr ⟨by decide, by decide⟩

theorem isSeparator_eq_false {c : Char} (h : CharClass.ofChar c ≠ .separator) :
    isSeparator c = false := by
  rw [Bool.eq_false_iff]
  intro separator
  exact h (CharClass.ofChar_of_holds (k := .separator) (by decide) separator)

/-! ## One character -/

/-- In the characters of an operand. -/
def State.InOperand (s : State) : Prop := s.InNumber ∨ s = .name

theorem State.not_inOperand {s : State} (h : s = .start ∨ s.Closed) : ¬ s.InOperand := by
  rintro ((rfl | rfl) | rfl) <;> rcases h with h | h | h <;> cases h

namespace Gathering

/-- What a character does to the characters gathered so far. -/
inductive Step : State → Gathering → Char × Nat → State → Gathering → Prop where
  | sign {g i} : Step .start g ('-', i) .start (g.apply ('-', i) .append)
  | first {s g p} (hs : s.InOperand) (hp : isSeparator p.1 = false) :
      Step .start g p s (g.apply p .append)
  | next {s s' g p} (hs : s.InOperand) (hs' : s'.InOperand) : Step s g p s' (g.apply p .append)
  | var {g i} : Step .start g (variableChar, i) .afterVariable
      (g.apply (variableChar, i) .append).flush
  | group {g i} : Step .start g ('(', i) .start (g.apply ('(', i) .emit)
  | opener {s g p} (hs : s ≠ .start) (hp : IsOpener p.1) :
      Step s g p .start (g.flush.apply p .emit)
  | close {s g i} (hs : s.InNumber) :
      Step s g (')', i) .afterBracket (g.flush.apply (')', i) .emit)
  | closeAgain {s g i} (hs : s.Closed) :
      Step s g (')', i) .afterBracket (g.apply (')', i) .emit)

theorem step_of_row {s : State} {g : Gathering} {p : Char × Nat} {t : Transition}
    (ht : Transition.of? s (CharClass.ofChar p.1) = some t) :
    Step s g p t.next (g.advance t p) := by
  obtain ⟨c, i⟩ := p
  have holds {k} (hk : CharClass.ofChar c = k) : k.Holds c := hk ▸ CharClass.holds_ofChar c
  have operator (hk : CharClass.ofChar c = .operator ∨ CharClass.ofChar c = .minus) :
      IsOpener c := by
    rcases hk with hk | hk
    · obtain ⟨o, -, symbol⟩ := holds hk
      exact .inl (isOperator_iff.mpr ⟨o, symbol⟩)
    · exact .inl (isOperator_iff.mpr ⟨.minus, holds hk⟩)
  unfold Transition.of? at ht
  -- the rows of the table, in its order
  split at ht <;> cases ht <;> rename_i hk
  · exact .first (.inl (.inl rfl)) (isSeparator_eq_false (by rw [hk]; decide))
  · exact (holds hk : c = '(') ▸ .group
  · exact (holds hk : c = '-') ▸ .sign
  · exact .first (.inr rfl) (isSeparator_eq_false (by rw [hk]; decide))
  · exact (holds hk : c = variableChar) ▸ .var
  · exact .next (.inl (.inl rfl)) (.inl (.inl rfl))
  · exact .next (.inl (.inl rfl)) (.inl (.inr rfl))
  · exact .next (.inl (.inr rfl)) (.inl (.inr rfl))
  · exact (holds hk : c = ')') ▸ .close (.inl rfl)
  · exact (holds hk : c = ')') ▸ .close (.inr rfl)
  · exact (holds hk : c = ')') ▸ .closeAgain (.inl rfl)
  · exact (holds hk : c = ')') ▸ .closeAgain (.inr rfl)
  · exact .opener (by decide) (operator (.inl hk))
  · exact .opener (by decide) (operator (.inr hk))
  · exact .opener (by decide) (operator (.inl hk))
  · exact .opener (by decide) (operator (.inr hk))
  · exact .opener (by decide) (operator (.inl hk))
  · exact .opener (by decide) (operator (.inr hk))
  · exact .opener (by decide) (operator (.inl hk))
  · exact .opener (by decide) (operator (.inr hk))
  · exact .next (.inr rfl) (.inr rfl)
  · exact .next (.inr rfl) (.inr rfl)
  · exact .opener (by decide) (.inr (holds hk))

end Gathering

/-! ## A run -/

theorem Configuration.exists_of_advance {k k' : Configuration} {p : Char × Nat}
    (h : k.advance p = .ok k') :
    ∃ t reached, Transition.of? k.state (CharClass.ofChar p.1) = some t ∧
      t.effects.foldlM (apply p.1 p.2) k = .ok reached ∧ k' = { reached with state := t.next } := by
  rw [advance, transition] at h
  cases ht : Transition.of? k.state (CharClass.ofChar p.1) with
  | none =>
    rw [ht] at h
    cases h
  | some t =>
    rw [ht] at h
    cases he : t.effects.foldlM (apply p.1 p.2) k with
    | error stop =>
      simp only [he] at h
      cases h
    | ok reached =>
      simp only [he] at h
      cases h
      exact ⟨t, reached, rfl, he, rfl⟩

namespace Gathers

variable {k k' : Configuration} {g : Gathering} {c : Char} {i : Nat}

theorem flush (h : Gathers k g) : Gathers k.flush g.flush := by
  by_cases hp : g.pending = []
  · have empty : k.buffer = [] := by rw [h.buffer, hp, List.map_nil]
    rwa [Gathering.flush_of_nil hp, Configuration.flush, if_pos (List.isEmpty_iff.mpr empty)]
  · have nonempty : ¬ k.buffer.isEmpty = true := by
      rw [h.buffer, List.isEmpty_iff, List.map_eq_nil_iff]
      exact hp
    rw [Gathering.flush_of_ne_nil hp, Configuration.flush, if_neg nonempty]
    refine ⟨rfl, fun p none => absurd none (Option.not_mem_none p), ?_⟩
    have piece : (⟨k.buffer, k.bufferStart⟩ : Lexeme) = ofPiece g.pending := by
      obtain ⟨p, ps, pending⟩ := List.exists_cons_of_ne_nil hp
      rw [ofPiece, h.buffer, h.start p (by rw [pending]; rfl), pending]
      rfl
    have lexemes := h.lexemes
    simp only [Configuration.lexemes] at lexemes ⊢
    rw [Array.toList_push, List.map_append, List.map_append, lexemes, List.map_singleton,
      List.map_singleton, piece]

theorem append (h : Gathers k g) (hc : isSeparator c = false)
    (hk : k.apply c i .append = .ok k') : Gathers k' (g.apply (c, i) .append) := by
  cases hk
  refine ⟨?_, fun p hp => ?_, h.lexemes⟩
  · simp only [Gathering.apply, h.buffer, List.map_append, List.map_cons, List.map_nil,
      kept_eq_self hc]
  · -- the first pending character decides where the lexeme begins
    cases hg : g.pending with
    | nil =>
      rw [Gathering.apply, hg, List.nil_append, List.head?_cons, Option.mem_some_iff] at hp
      rw [if_pos (by rw [h.buffer, hg]; rfl), ← hp]
    | cons q qs =>
      rw [Gathering.apply, hg, List.cons_append, List.head?_cons, Option.mem_some_iff] at hp
      rw [if_neg (by rw [h.buffer, hg]; exact Bool.false_ne_true), ← hp]
      exact h.start q (by rw [hg]; rfl)

theorem appendPoint (h : Gathers k g) (hc : isSeparator c = true) (hg : g.pending ≠ [])
    (hk : k.apply c i .appendPoint = .ok k') : Gathers k' (g.apply (c, i) .appendPoint) := by
  cases hk
  refine ⟨?_, fun p hp => ?_, h.lexemes⟩
  · simp only [Gathering.apply, h.buffer, List.map_append, List.map_cons, List.map_nil,
      kept_separator hc]
  · obtain ⟨q, qs, pending⟩ := List.exists_cons_of_ne_nil hg
    rw [Gathering.apply, pending, List.cons_append, List.head?_cons, Option.mem_some_iff] at hp
    exact h.start p (by rw [pending, hp]; rfl)

theorem emit (h : Gathers k g) (hc : isSeparator c = false)
    (hk : k.apply c i .emit = .ok k') : Gathers k' (g.apply (c, i) .emit) := by
  cases hk
  refine ⟨h.buffer, h.start, ?_⟩
  have piece : ofPiece [(c, i)] = ⟨[c], i⟩ := by
    rw [ofPiece, List.map_singleton, kept_eq_self hc]
    rfl
  have lexemes := h.lexemes
  simp only [Configuration.lexemes] at lexemes ⊢
  rw [Array.toList_push, List.map_append, lexemes, Gathering.apply, List.map_append,
    List.map_singleton, List.map_singleton, piece]

theorem effects {es : List Effect} (h : Gathers k g) (hc : isSeparator c = false)
    (point : .appendPoint ∉ es) (hk : es.foldlM (Configuration.apply c i) k = .ok k') :
    Gathers k' (es.foldl (Gathering.apply (c, i)) g) := by
  induction es generalizing k g with
  | nil =>
    cases hk
    exact h
  | cons e es ih =>
    obtain ⟨k₁, he, hes⟩ := exists_of_foldlM_cons hk
    refine ih ?_ (fun later => point (List.mem_cons_of_mem e later)) hes
    cases e with
    | append => exact h.append hc he
    | appendPoint => exact absurd List.mem_cons_self point
    | flush =>
      cases he
      exact h.flush
    | emit => exact h.emit hc he
    | openBracket | markVariable =>
      cases he
      exact ⟨h.buffer, h.start, h.lexemes⟩
    | closeBracket =>
      rw [Configuration.apply] at he
      split at he <;> cases he
      exact ⟨h.buffer, h.start, h.lexemes⟩

theorem advance {p : Char × Nat} (h : Gathers k g) (integer : k.state = .integer → g.pending ≠ [])
    (hk : k.advance p = .ok k') :
    ∃ t, Transition.of? k.state (CharClass.ofChar p.1) = some t ∧ k'.state = t.next ∧
      Gathers k' (g.advance t p) := by
  obtain ⟨t, w, ht, effects, rfl⟩ := Configuration.exists_of_advance hk
  have gathered : Gathers w (g.advance t p) := by
    rcases separator_of_row ht with ⟨state, class', rfl⟩ | ⟨class', point⟩
    · have separator : isSeparator p.1 = true := (class' ▸ CharClass.holds_ofChar p.1 :)
      cases effects
      exact h.appendPoint separator (integer state) rfl
    · exact h.effects (isSeparator_eq_false class') point effects
  exact ⟨t, ht, rfl, gathered.buffer, gathered.start, gathered.lexemes⟩

/-- The run of a configuration with what it gathers, and an invariant that each step keeps. -/
theorem scan {P : State → Gathering → List (Char × Nat) → Prop}
    (integer : ∀ {g u}, P .integer g u → g.pending ≠ [])
    (step : ∀ {s s' g g' u p}, P s g u → Gathering.Step s g p s' g' → P s' g' (u ++ [p]))
    {u cs : List (Char × Nat)} (h : Gathers k g) (hP : P k.state g u) (hk : k.scan cs = .ok k') :
    ∃ g', Gathers k' g' ∧ P k'.state g' (u ++ cs) := by
  induction cs generalizing k g u with
  | nil =>
    cases hk
    exact ⟨g, h, by rwa [List.append_nil]⟩
  | cons p cs ih =>
    obtain ⟨k₁, hp, rest⟩ := exists_of_foldlM_cons hk
    obtain ⟨t, ht, state, h₁⟩ := h.advance (fun hs => integer (hs ▸ hP)) hp
    have kept : P k₁.state (g.advance t p) (u ++ [p]) :=
      state ▸ step hP (Gathering.step_of_row ht)
    obtain ⟨g', h', hP'⟩ := ih h₁ kept rest
    exact ⟨g', h', by rwa [List.append_assoc] at hP'⟩

end Gathers

/-! ## How pieces lie in the text -/

/-- Signs and opening brackets, a sign first. -/
structure Signs (w : List (Char × Nat)) : Prop where
  marks : ∀ p ∈ w, p.1 = '-' ∨ p.1 = '('
  first : ∀ p ∈ w.head?, p.1 = '-'

def isSign (p : Char × Nat) : Bool := p.1 == '-'

/-- The signs without the brackets between them. -/
def minusesOf (w : List (Char × Nat)) : List (Char × Nat) := w.filter isSign

theorem isSign_iff {p : Char × Nat} : isSign p = true ↔ p.1 = '-' := beq_iff_eq

/-- A piece of a text: the signs of the beginning of a stretch, and the rest of the stretch. -/
def Cut (u q : List (Char × Nat)) : Prop :=
  ∃ v w b z, u = v ++ w ++ b ++ z ∧ Signs w ∧ q = minusesOf w ++ b

/-- A piece at the end of a text, behind its signs not empty. -/
def Ends (u q : List (Char × Nat)) : Prop :=
  ∃ v w b, u = v ++ w ++ b ∧ Signs w ∧ b ≠ [] ∧ q = minusesOf w ++ b

/-- What is pending in a state, and where it lies in the text read so far. -/
def Waiting (u q : List (Char × Nat)) : State → Prop
  | .start => ∃ v w, u = v ++ w ∧ Signs w ∧ q = minusesOf w
  | .integer | .decimal | .name => Ends u q
  | .afterBracket | .afterVariable => q = []

/-- What was gathered, and where it lies in the text read so far. -/
structure Arranged (s : State) (g : Gathering) (u : List (Char × Nat)) : Prop where
  waiting : Waiting u g.pending s
  cut : ∀ q ∈ g.pieces, Cut u q

theorem Signs.nil : Signs [] := ⟨List.forall_mem_nil _, fun _ none => nomatch none⟩

theorem Signs.append {w s : List (Char × Nat)} (h : Signs w) (hs : ∀ p ∈ s, p.1 = '-') :
    Signs (w ++ s) := by
  refine ⟨List.forall_mem_append.mpr ⟨h.marks, fun p hp => .inl (hs p hp)⟩, ?_⟩
  cases w with
  | nil => exact fun p hp => hs p (List.mem_of_mem_head? hp)
  | cons p w => exact h.first

theorem Signs.bracket {p : Char × Nat} {w : List (Char × Nat)} (h : Signs (p :: w)) (i : Nat) :
    Signs (p :: w ++ [('(', i)]) :=
  ⟨List.forall_mem_append.mpr ⟨h.marks, List.forall_mem_singleton.mpr (.inr rfl)⟩, h.first⟩

theorem minusesOf_append (v w : List (Char × Nat)) :
    minusesOf (v ++ w) = minusesOf v ++ minusesOf w := List.filter_append v w

section Pieces

variable {u q : List (Char × Nat)}

theorem Cut.extend (h : Cut u q) (z : List (Char × Nat)) : Cut (u ++ z) q := by
  obtain ⟨v, w, b, y, rfl, hw, rfl⟩ := h
  exact ⟨v, w, b, y ++ z, List.append_assoc .., hw, rfl⟩

theorem Cut.last (u : List (Char × Nat)) (p : Char × Nat) : Cut (u ++ [p]) [p] :=
  ⟨u, [], [p], [], by simp, .nil, rfl⟩

theorem Ends.cut (h : Ends u q) : Cut u q := by
  obtain ⟨v, w, b, rfl, hw, -, rfl⟩ := h
  exact ⟨v, w, b, [], (List.append_nil _).symm, hw, rfl⟩

theorem Ends.ne_nil (h : Ends u q) : q ≠ [] := by
  obtain ⟨v, w, b, -, -, hb, rfl⟩ := h
  exact List.append_ne_nil_of_right_ne_nil _ hb

theorem Ends.next (h : Ends u q) (p : Char × Nat) : Ends (u ++ [p]) (q ++ [p]) := by
  obtain ⟨v, w, b, rfl, hw, -, rfl⟩ := h
  exact ⟨v, w, b ++ [p], List.append_assoc .., hw, by simp, List.append_assoc ..⟩

theorem waiting_iff_ends {s : State} (hs : s.InOperand) : Waiting u q s ↔ Ends u q := by
  rcases hs with (rfl | rfl) | rfl <;> exact Iff.rfl

theorem Waiting.fresh (u : List (Char × Nat)) : Waiting u [] .start :=
  ⟨u, [], (List.append_nil u).symm, .nil, rfl⟩

theorem Waiting.first (h : Waiting u q .start) (p : Char × Nat) : Ends (u ++ [p]) (q ++ [p]) := by
  obtain ⟨v, w, rfl, hw, rfl⟩ := h
  exact ⟨v, w, [p], rfl, hw, List.cons_ne_nil p [], rfl⟩

theorem Waiting.sign (h : Waiting u q .start) (i : Nat) :
    Waiting (u ++ [('-', i)]) (q ++ [('-', i)]) .start := by
  obtain ⟨v, w, rfl, hw, rfl⟩ := h
  refine ⟨v, w ++ [('-', i)], List.append_assoc .., hw.append (by simp), ?_⟩
  rw [minusesOf_append]
  rfl

/-- A bracket in front of an operand: the signs that wait, if any, go past it. -/
theorem Waiting.bracket (h : Waiting u q .start) (i : Nat) :
    Waiting (u ++ [('(', i)]) q .start := by
  obtain ⟨v, w, rfl, hw, rfl⟩ := h
  cases w with
  | nil => exact .fresh _
  | cons p w =>
    refine ⟨v, p :: w ++ [('(', i)], List.append_assoc .., hw.bracket i, ?_⟩
    rw [minusesOf_append]
    exact (List.append_nil _).symm

end Pieces

namespace Arranged

variable {s : State} {g : Gathering} {u : List (Char × Nat)} {p : Char × Nat}

theorem append (h : Arranged s g u) {s' : State}
    (waiting : Waiting (u ++ [p]) (g.pending ++ [p]) s') :
    Arranged s' (g.apply p .append) (u ++ [p]) :=
  ⟨waiting, fun q hq => (h.cut q hq).extend [p]⟩

theorem emit (cut : ∀ q ∈ g.pieces, Cut u q) (waiting : Waiting (u ++ [p]) g.pending s) :
    Arranged s (g.apply p .emit) (u ++ [p]) := by
  refine ⟨waiting, List.forall_mem_append.mpr ⟨fun q hq => (cut q hq).extend [p], ?_⟩⟩
  exact List.forall_mem_singleton.mpr (.last u p)

theorem cut_flush (h : Arranged s g u) (hs : s ≠ .start) : ∀ q ∈ g.flush.pieces, Cut u q := by
  have operand (ends : Ends u g.pending) : ∀ q ∈ g.flush.pieces, Cut u q := by
    rw [Gathering.flush_of_ne_nil ends.ne_nil]
    exact List.forall_mem_append.mpr ⟨h.cut, List.forall_mem_singleton.mpr ends.cut⟩
  have closed (none : g.pending = []) : ∀ q ∈ g.flush.pieces, Cut u q := by
    rw [Gathering.flush_of_nil none]
    exact h.cut
  cases s with
  | start => exact absurd rfl hs
  | integer | decimal | name => exact operand h.waiting
  | afterBracket | afterVariable => exact closed h.waiting

theorem flush_emit (h : Arranged s g u) (hs : s ≠ .start) {s' : State}
    (waiting : Waiting (u ++ [p]) [] s') : Arranged s' (g.flush.apply p .emit) (u ++ [p]) :=
  emit (h.cut_flush hs) (g.pending_flush.symm ▸ waiting)

theorem step {s' : State} {g' : Gathering} (h : Arranged s g u)
    (step : Gathering.Step s g p s' g') : Arranged s' g' (u ++ [p]) := by
  cases step with
  | @sign g i => exact h.append (h.waiting.sign i)
  | first hs => exact h.append ((waiting_iff_ends hs).mpr (h.waiting.first p))
  | next hs hs' =>
    exact h.append ((waiting_iff_ends hs').mpr (((waiting_iff_ends hs).mp h.waiting).next p))
  | @var g i =>
    -- the variable is an operand of a single character
    have operand : Arranged .name (g.apply (variableChar, i) .append) (u ++ [(variableChar, i)]) :=
      h.append (h.waiting.first (variableChar, i))
    exact ⟨Gathering.pending_flush _, operand.cut_flush (by decide)⟩
  | @group g i => exact emit h.cut (h.waiting.bracket i)
  | opener hs => exact h.flush_emit hs (.fresh _)
  | close hs =>
    refine h.flush_emit ?_ rfl
    rcases hs with rfl | rfl <;> decide
  | closeAgain hs =>
    have none : g.pending = [] := by
      have waiting := h.waiting
      rcases hs with rfl | rfl <;> exact waiting
    exact emit h.cut none

end Arranged

theorem Configuration.finish_eq_ok {k k' : Configuration} {last length : Nat}
    (h : k.finish last length = .ok k') : k' = k.flush ∧ k.state ≠ .start := by
  have state : k.flush.state = k.state := by
    unfold flush
    split <;> rfl
  simp only [finish] at h
  split at h
  · cases h
  · split at h
    · cases h
    · cases h
    · next operand _ =>
      cases h
      exact ⟨rfl, fun start => operand (state.trans start)⟩

theorem exists_scan_of_run {s : List Char} {k' : Configuration} (h : Lexeme.run s = .ok k') :
    ∃ k, Configuration.scan {} (Text.visible s) = .ok k ∧ k.state ≠ .start ∧ k' = k.flush := by
  rw [Lexeme.run] at h
  cases hl : (Text.visible s).getLast? with
  | none =>
    rw [hl] at h
    cases h
  | some p =>
    rw [hl] at h
    cases hk : Configuration.scan {} (Text.visible s) with
    | error stop =>
      rw [hk] at h
      cases h
    | ok k =>
      rw [hk] at h
      have finished : k.finish p.2 s.length = .ok k' := h
      obtain ⟨rfl, operand⟩ := Configuration.finish_eq_ok finished
      exact ⟨k, rfl, operand, rfl⟩

/-- A reading is what a run has put out. -/
theorem Reading.exists_run {s : List Char} {r : Reading} (h : ofChars s = .ok r) :
    ∃ k, Lexeme.run s = .ok k ∧ r = ⟨k.lexemes, k.dependsOnX⟩ := by
  unfold ofChars at h
  split at h <;> cases h
  exact ⟨_, ‹_›, rfl⟩

/-- A text is read as what its run gathers, for any invariant of the gathering that each step
keeps. -/
theorem Reading.exists_gathering {P : State → Gathering → List (Char × Nat) → Prop}
    (integer : ∀ {g u}, P .integer g u → g.pending ≠ [])
    (step : ∀ {s s' g g' u p}, P s g u → Gathering.Step s g p s' g' → P s' g' (u ++ [p]))
    (initial : P .start {} []) {s : List Char} {r : Reading} (h : ofChars s = .ok r) :
    ∃ s' g, s' ≠ .start ∧ P s' g (Text.visible s) ∧ r.lexemes = g.flush.pieces.map ofPiece := by
  obtain ⟨_, hr, rfl⟩ := exists_run h
  obtain ⟨k, hk, operand, rfl⟩ := exists_scan_of_run hr
  have nothing : Gathers {} {} := ⟨rfl, fun p none => absurd none (Option.not_mem_none p), rfl⟩
  obtain ⟨g, gathered, reached⟩ := nothing.scan integer step initial hk
  exact ⟨k.state, g, operand, reached, gathered.flush.lexemes⟩

/-- What a text is read as: its pieces, each cut out of its visible characters. -/
theorem Reading.exists_pieces {s : List Char} {r : Reading} (h : ofChars s = .ok r) :
    ∃ qs : List (List (Char × Nat)), r.lexemes = qs.map ofPiece ∧
      ∀ q ∈ qs, Cut (Text.visible s) q := by
  have initial : Arranged .start {} [] := ⟨.fresh [], List.forall_mem_nil _⟩
  obtain ⟨s', g, operand, arranged, lexemes⟩ := exists_gathering (P := Arranged)
    (fun h => Ends.ne_nil h.waiting) Arranged.step initial h
  exact ⟨g.flush.pieces, lexemes, arranged.cut_flush operand⟩

end FunctionCalculator.Lexeme
