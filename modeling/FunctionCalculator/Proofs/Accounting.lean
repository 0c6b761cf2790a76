import FunctionCalculator.Proofs.Provenance
import Mathlib.Data.List.Basic

/-!
# The lexemes account for the whole text

What is proved:
  1. `Accounted.step`, `InOrder.step`: nothing is lost and nothing is doubled; and as long as no
     sign stands in front of a bracket, nothing changes its place.
  2. `accounts_for_text`: the lexemes of a text together are its visible characters, each lexeme at
     the place of its first character, and in order if no sign stands in front of a bracket.
-/

namespace FunctionCalculator

open Lexeme (IsOpener)

namespace Text

/-- Every minus in front of an opening bracket is an operator: what stands before it is there, and
is neither an operator nor an opening bracket. -/
def GroupsUnsigned (t : List Char) : Prop :=
  ∀ a b, t = a ++ '-' :: '(' :: b → ∃ c ∈ a.getLast?, ¬ IsOpener c

theorem GroupsUnsigned.of_absent {t : List Char} (h : ¬ ['-', '('] <:+: t) :
    GroupsUnsigned t := by
  rintro a b rfl
  exact absurd ⟨a, b, List.append_assoc ..⟩ h

theorem GroupsUnsigned.of_append {t w : List Char} (h : GroupsUnsigned (t ++ w)) :
    GroupsUnsigned t := by
  rintro a b rfl
  exact h a (b ++ w) (List.append_assoc ..)

theorem getElem?_of_mem_visible {s : List Char} {p : Char × Nat} (h : p ∈ visible s) :
    s[p.2]? = some p.1 :=
  List.mem_zipIdx_iff_getElem?.mp (List.mem_filter.mp h).1

theorem pairwise_visible (s : List Char) : ((visible s).map Prod.snd).Pairwise (· < ·) := by
  have indices : (s.zipIdx.map Prod.snd).Pairwise (· < ·) := by
    rw [List.zipIdx_map_snd]
    exact List.pairwise_lt_range'
  exact indices.sublist (List.filter_sublist.map Prod.snd)

end Text

namespace Lexeme

namespace Gathering

/-- All characters gathered so far, those of the pieces first. -/
def all (g : Gathering) : List (Char × Nat) := g.pieces.flatten ++ g.pending

theorem all_append (g : Gathering) (p : Char × Nat) : (g.apply p .append).all = g.all ++ [p] :=
  (List.append_assoc ..).symm

theorem all_flush (g : Gathering) : g.flush.all = g.all := by
  by_cases none : g.pending = []
  · rw [flush_of_nil none]
  · rw [flush_of_ne_nil none, all, all]
    simp

theorem flatten_flush (g : Gathering) : g.flush.pieces.flatten = g.all := by
  have flushed := g.all_flush
  rwa [all, g.pending_flush, List.append_nil] at flushed

/-- A character put out overtakes those that are pending. -/
theorem all_emit (g : Gathering) (p : Char × Nat) :
    (g.apply p .emit).all = g.pieces.flatten ++ p :: g.pending := by
  simp [all, apply]

end Gathering

theorem IsOpener.isSeparator_eq_false {c : Char} (h : IsOpener c) : isSeparator c = false := by
  rcases h with h | rfl
  · obtain ⟨o, rfl⟩ := isOperator_iff.mp h
    cases o <;> decide
  · decide

/-! ## Nothing is lost -/

/-- A piece of a text begins with a character that is kept as it is. -/
structure Headed (q : List (Char × Nat)) : Prop where
  nonempty : q ≠ []
  kept : ∀ p ∈ q.head?, isSeparator p.1 = false

/-- Every character read so far was gathered once. -/
structure Accounted (s : State) (g : Gathering) (u : List (Char × Nat)) : Prop where
  once : g.all.Perm u
  begun : s.InOperand → g.pending ≠ []
  pending : g.pending ≠ [] → Headed g.pending
  pieces : ∀ q ∈ g.pieces, Headed q

theorem Headed.append {q : List (Char × Nat)} {p : Char × Nat} (h : q ≠ [] → Headed q)
    (hp : q = [] → isSeparator p.1 = false) : Headed (q ++ [p]) := by
  refine ⟨by simp, fun r hr => ?_⟩
  cases q with
  | nil =>
    cases hr
    exact hp rfl
  | cons first rest => exact (h (List.cons_ne_nil first rest)).kept r hr

namespace Accounted

variable {s s' : State} {g : Gathering} {u : List (Char × Nat)} {p : Char × Nat}

theorem append (h : Accounted s g u) (hp : g.pending = [] → isSeparator p.1 = false) :
    Accounted s' (g.apply p .append) (u ++ [p]) where
  once := by
    rw [g.all_append]
    exact h.once.append_right [p]
  begun _ := by simp [Gathering.apply]
  pending _ := Headed.append h.pending hp
  pieces := h.pieces

theorem flush (h : Accounted s g u) (hs : ¬ s'.InOperand) : Accounted s' g.flush u where
  once := g.all_flush.symm ▸ h.once
  begun inside := absurd inside hs
  pending some := absurd g.pending_flush some
  pieces := by
    by_cases none : g.pending = []
    · rw [Gathering.flush_of_nil none]
      exact h.pieces
    · rw [Gathering.flush_of_ne_nil none]
      exact List.forall_mem_append.mpr ⟨h.pieces, List.forall_mem_singleton.mpr (h.pending none)⟩

theorem emit (h : Accounted s g u) (hs : ¬ s'.InOperand) (hp : isSeparator p.1 = false) :
    Accounted s' (g.apply p .emit) (u ++ [p]) where
  once := by
    calc (g.apply p .emit).all
      _ = g.pieces.flatten ++ p :: g.pending := g.all_emit p
      List.Perm _ (g.pieces.flatten ++ (g.pending ++ [p])) :=
        (List.perm_append_singleton p g.pending).symm.append_left _
      _ = g.all ++ [p] := (List.append_assoc ..).symm
      List.Perm _ (u ++ [p]) := h.once.append_right [p]
  begun inside := absurd inside hs
  pending := h.pending
  pieces := List.forall_mem_append.mpr ⟨h.pieces,
    List.forall_mem_singleton.mpr ⟨List.cons_ne_nil p [], by simpa using hp⟩⟩

theorem flush_emit (h : Accounted s g u) (hs : ¬ s'.InOperand) (hp : isSeparator p.1 = false) :
    Accounted s' (g.flush.apply p .emit) (u ++ [p]) :=
  (h.flush hs).emit hs hp

theorem step {g' : Gathering} (h : Accounted s g u) (step : Gathering.Step s g p s' g') :
    Accounted s' g' (u ++ [p]) := by
  have start : ¬ State.start.InOperand := State.not_inOperand (.inl rfl)
  have bracket : ¬ State.afterBracket.InOperand := State.not_inOperand (.inr (.inl rfl))
  cases step with
  | sign => exact h.append fun _ => (rfl : isSeparator '-' = false)
  | first _ hp => exact h.append fun _ => hp
  | next hs => exact h.append fun none => absurd none (h.begun hs)
  | @var g i =>
    have operand : Accounted .name (g.apply (variableChar, i) .append) (u ++ [(variableChar, i)]) :=
      h.append fun _ => rfl
    exact operand.flush (State.not_inOperand (.inr (.inr rfl)))
  | group => exact h.emit start rfl
  | opener _ hp => exact h.flush_emit start hp.isSeparator_eq_false
  | close => exact h.flush_emit bracket rfl
  | closeAgain => exact h.emit bracket rfl

end Accounted

/-! ## Nothing changes its place -/

/-- The characters stand in the order of the text. Where an operand is due only signs are pending,
and what stands before them ends in an operator or an opening bracket. -/
structure InOrder (s : State) (g : Gathering) (u : List (Char × Nat)) : Prop where
  order : g.all = u
  signs : s = .start → ∀ p ∈ g.pending, p.1 = '-'
  opener : s = .start → ∀ p ∈ g.pieces.flatten.getLast?, IsOpener p.1
  closed : s.Closed → g.pending = []

namespace InOrder

variable {s s' : State} {g : Gathering} {u : List (Char × Nat)} {p : Char × Nat}

/-- No sign waits where a bracket opens, if none may stand in front of it. -/
theorem pending_of_group {i : Nat} (h : InOrder .start g u)
    (text : Text.GroupsUnsigned ((u ++ [('(', i)]).map Prod.fst)) : g.pending = [] := by
  rcases List.eq_nil_or_concat g.pending with none | ⟨m, q, pending⟩
  · exact none
  · have sign : q.1 = '-' := h.signs rfl q (by simp [pending])
    have split : (u ++ [('(', i)]).map Prod.fst =
        (g.pieces.flatten ++ m).map Prod.fst ++ ['-', '('] := by
      simp [← h.order, Gathering.all, pending, sign]
    obtain ⟨c, last, other⟩ := text _ _ split
    refine absurd ?_ other
    rcases List.eq_nil_or_concat m with rfl | ⟨m', r, rfl⟩
    · rw [List.append_nil, List.getLast?_map] at last
      obtain ⟨r, hr, rfl⟩ := Option.map_eq_some_iff.mp last
      exact h.opener rfl r hr
    · have minus : r.1 = '-' := h.signs rfl r (by simp [pending])
      obtain rfl : '-' = c := by simpa [minus] using last
      exact .inl rfl

theorem flush_emit (h : InOrder s g u) (hp : s' = .start → IsOpener p.1) :
    InOrder s' (g.flush.apply p .emit) (u ++ [p]) where
  order := by
    rw [Gathering.all_emit, g.flatten_flush, g.pending_flush, h.order]
  signs _ q hq := by simp [Gathering.apply, g.pending_flush] at hq
  opener hs q hq := by
    obtain rfl : p = q := by simpa [Gathering.apply] using hq
    exact hp hs
  closed _ := g.pending_flush

theorem emit (h : InOrder s g u) (none : g.pending = []) (hp : s' = .start → IsOpener p.1) :
    InOrder s' (g.apply p .emit) (u ++ [p]) := by
  have flushed : InOrder s' (g.flush.apply p .emit) (u ++ [p]) := h.flush_emit hp
  rwa [Gathering.flush_of_nil none] at flushed

theorem append (h : InOrder s g u) (hs : s'.InOperand) :
    InOrder s' (g.apply p .append) (u ++ [p]) where
  order := by rw [g.all_append, h.order]
  signs start := absurd hs (State.not_inOperand (.inl start))
  opener start := absurd hs (State.not_inOperand (.inl start))
  closed closed := absurd hs (State.not_inOperand (.inr closed))

theorem step {g' : Gathering} (h : InOrder s g u) (step : Gathering.Step s g p s' g')
    (text : Text.GroupsUnsigned ((u ++ [p]).map Prod.fst)) : InOrder s' g' (u ++ [p]) := by
  cases step with
  | sign =>
    exact
      { order := by rw [g.all_append, h.order]
        signs := fun _ => List.forall_mem_append.mpr ⟨h.signs rfl, by simp⟩
        opener := fun _ => h.opener rfl
        closed := by simp [State.Closed] }
  | first hs => exact h.append hs
  | next _ hs => exact h.append hs
  | var =>
    exact
      { order := by rw [Gathering.all_flush, g.all_append, h.order]
        signs := by simp
        opener := by simp
        closed := fun _ => Gathering.pending_flush _ }
  | group => exact h.emit (h.pending_of_group text) fun _ => .inr rfl
  | opener _ hp => exact h.flush_emit fun _ => hp
  | close => exact h.flush_emit nofun
  | closeAgain hs => exact h.emit (h.closed hs) nofun

end InOrder

/-! ## A whole text -/

structure Conserved (s : State) (g : Gathering) (u : List (Char × Nat)) : Prop where
  accounted : Accounted s g u
  inOrder : Text.GroupsUnsigned (u.map Prod.fst) → InOrder s g u

namespace Conserved

theorem initial : Conserved .start {} [] where
  accounted :=
    { once := .nil
      begun := fun inside => absurd inside (State.not_inOperand (.inl rfl))
      pending := nofun
      pieces := List.forall_mem_nil _ }
  inOrder _ :=
    { order := rfl
      signs := fun _ => List.forall_mem_nil _
      opener := fun _ => nofun
      closed := fun _ => rfl }

theorem step {s s' : State} {g g' : Gathering} {u : List (Char × Nat)} {p : Char × Nat}
    (h : Conserved s g u) (step : Gathering.Step s g p s' g') : Conserved s' g' (u ++ [p]) where
  accounted := h.accounted.step step
  inOrder text := by
    have before : Text.GroupsUnsigned (u.map Prod.fst) := by
      rw [List.map_append] at text
      exact text.of_append
    exact (h.inOrder before).step step text

end Conserved

/-- A text is read as pieces that have each of its visible characters once, in their order if no
sign stands in front of a bracket. -/
theorem Reading.exists_accounted {s : List Char} {r : Reading} (h : ofChars s = .ok r) :
    ∃ qs : List (List (Char × Nat)), r.lexemes = qs.map ofPiece ∧ (∀ q ∈ qs, Headed q) ∧
      qs.flatten.Perm (Text.visible s) ∧
      (Text.GroupsUnsigned (Text.shown s) → qs.flatten = Text.visible s) := by
  obtain ⟨s', g, -, conserved, lexemes⟩ := exists_gathering (P := Conserved)
    (fun h => h.accounted.begun (.inl (.inl rfl))) Conserved.step .initial h
  have flushed : Accounted .start g.flush (Text.visible s) :=
    conserved.accounted.flush (State.not_inOperand (.inl rfl))
  refine ⟨g.flush.pieces, lexemes, flushed.pieces, ?_, fun text => ?_⟩
  · rw [g.flatten_flush]
    exact conserved.accounted.once
  · rw [← Text.map_fst_visible] at text
    rw [g.flatten_flush]
    exact (conserved.inOrder text).order

theorem texts_ofPiece (qs : List (List (Char × Nat))) :
    (qs.map ofPiece).flatMap Lexeme.text = qs.flatten.map fun p => kept p.1 := by
  rw [List.flatMap_map, List.map_flatten]
  rfl

theorem positions_sublist {qs : List (List (Char × Nat))} (h : ∀ q ∈ qs, Headed q) :
    ((qs.map ofPiece).map Lexeme.position).Sublist (qs.flatten.map Prod.snd) := by
  induction qs with
  | nil => exact .slnil
  | cons q qs ih =>
    obtain ⟨headed, rest⟩ := List.forall_mem_cons.mp h
    obtain ⟨p, q, rfl⟩ := List.exists_cons_of_ne_nil headed.nonempty
    rw [List.flatten_cons, List.cons_append, List.map_cons (f := Prod.snd), List.map_append]
    exact ((ih rest).trans (List.sublist_append_right ..)).cons_cons p.2

theorem Headed.exists_first {q : List (Char × Nat)} (h : Headed q) :
    ∃ p ∈ q, (ofPiece q).text.head? = some p.1 ∧ (ofPiece q).position = p.2 := by
  obtain ⟨p, q, rfl⟩ := List.exists_cons_of_ne_nil h.nonempty
  refine ⟨p, List.mem_cons_self, ?_, rfl⟩
  rw [ofPiece, List.map_cons, List.head?_cons, kept_eq_self (h.kept p rfl)]

theorem kept_eq (c : Char) : kept c = if c = ',' then '.' else c := by
  by_cases point : c = '.'
  · rw [point]
    rfl
  · simp [kept, isSeparator, point]

/-- The lexemes of a text account for it: each stands where its first character does, no two stand
at one place, and together they are the visible characters of the text, with a point for a comma.
They are so in the order of the text if no sign stands in front of a bracket. -/
theorem accounts_for_text {s : String} {r : Reading} (h : Reading.ofChars s.toList = .ok r) :
    (∀ l ∈ r.lexemes, ∃ c, l.text.head? = some c ∧ s.toList[l.position]? = some c) ∧
      (r.lexemes.map Lexeme.position).Nodup ∧
      (r.lexemes.flatMap Lexeme.text).Perm
        ((Text.shown s.toList).map fun c => if c = ',' then '.' else c) ∧
      (Text.GroupsUnsigned (Text.shown s.toList) →
        r.lexemes.flatMap Lexeme.text =
            (Text.shown s.toList).map (fun c => if c = ',' then '.' else c) ∧
          (r.lexemes.map Lexeme.position).Pairwise (· < ·)) := by
  obtain ⟨qs, lexemes, headed, once, order⟩ := Reading.exists_accounted h
  have places := positions_sublist headed
  have increasing := Text.pairwise_visible s.toList
  have characters : (Text.visible s.toList).map (fun p => kept p.1) =
      (Text.shown s.toList).map fun c => if c = ',' then '.' else c := by
    rw [← Text.map_fst_visible, List.map_map]
    exact List.map_congr_left fun p _ => kept_eq p.1
  rw [lexemes, texts_ofPiece, ← characters]
  refine ⟨fun l hl => ?_, ?_, once.map _, fun text => ⟨by rw [order text], ?_⟩⟩
  · obtain ⟨q, hq, rfl⟩ := List.mem_map.mp hl
    obtain ⟨p, hp, first, position⟩ := (headed q hq).exists_first
    have visible : p ∈ Text.visible s.toList :=
      once.mem_iff.mp (List.mem_flatten_of_mem hq hp)
    exact ⟨p.1, first, position ▸ Text.getElem?_of_mem_visible visible⟩
  · have distinct : (qs.flatten.map Prod.snd).Nodup :=
      (once.map Prod.snd).nodup_iff.mpr (increasing.imp Nat.ne_of_lt)
    exact distinct.sublist places
  · rw [order text] at places
    exact increasing.sublist places

theorem accounts_for_text_comma :
    ∃ r, Reading.ofChars " -1,5*(x)".toList = .ok r ∧ (r.lexemes.map Lexeme.position).Nodup ∧
      r.lexemes.flatMap Lexeme.text =
        (Text.shown " -1,5*(x)".toList).map (fun c => if c = ',' then '.' else c) ∧
      (r.lexemes.map Lexeme.position).Pairwise (· < ·) := by
  have read : Reading.ofChars " -1,5*(x)".toList =
      .ok ⟨[⟨['-', '1', '.', '5'], 1⟩, ⟨['*'], 5⟩, ⟨['('], 6⟩, ⟨['x'], 7⟩, ⟨[')'], 8⟩], true⟩ := by
    decide
  have shown : Text.shown " -1,5*(x)".toList = ['-', '1', ',', '5', '*', '(', 'x', ')'] := by
    decide
  have unsigned : Text.GroupsUnsigned (Text.shown " -1,5*(x)".toList) := by
    rw [shown]
    exact .of_absent (by simp [List.infix_cons_iff])
  obtain ⟨-, distinct, -, order⟩ := accounts_for_text read
  exact ⟨_, read, distinct, order unsigned⟩

/-- A sign in front of a bracket is overtaken by it. -/
example : Reading.ofChars "-(3)".toList =
    .ok ⟨[⟨['('], 1⟩, ⟨['-', '3'], 0⟩, ⟨[')'], 3⟩], false⟩ := by decide

end Lexeme

end FunctionCalculator
