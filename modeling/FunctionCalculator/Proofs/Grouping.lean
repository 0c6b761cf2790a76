import FunctionCalculator.Postorder
import FunctionCalculator.Proofs.Tree

/-!
# How tokens group into trees

`Writes p ts T` is the layered grammar of expressions: the tokens `ts` write the tree `T`, and no
operator outside its brackets binds more loosely than the level `p`. The levels are sums, products
and powers. The left operand of an operator may hold operators of its own level, the right operand
only tighter ones, so that every operator groups to the left; an operand or a call stands at any
level.

What is proved:
  1. `Operator.priority_eq`: the priorities of the conversion follow the levels of the grammar.
  2. `Writes.postorder_eq`: the conversion by a stack of operators puts out the listing of the
     tree. The invariant of the stack is `Writes.unwinds`: above a top that waits for something
     higher, the tokens of a tree leave a spine that the next lower operator releases at once.
  3. `Writes.unique`: tokens write at most one tree.
  4. `Writes.extend`: an operator and one more operand still write a tree.
-/

namespace FunctionCalculator

open Postorder (Move moves)

/-- How tightly an operator binds: sums and differences least, powers most. -/
def Operator.level : Operator → Nat
  | plus | minus => 0
  | times | divide => 1
  | power => 2

/-- The tokens write the tree; outside brackets no operator is of a lower level. -/
inductive Writes : Nat → List Token → Tree → Prop where
  | number {p t} (kind : t.kind = .number) : Writes p [t] (.number t)
  | var {p t} (kind : t.kind = .var) : Writes p [t] (.var t)
  | call {p f o c ts a} (kind : f.kind = .function) (opening : o.kind = .opening)
      (closing : c.kind = .closing) (argument : Writes 0 ts a) :
      Writes p (f :: o :: (ts ++ [c])) (.function f a)
  | group {p o c ts T} (opening : o.kind = .opening) (closing : c.kind = .closing)
      (inner : Writes 0 ts T) : Writes p (o :: (ts ++ [c])) T
  | operator {p t ls rs l r} {o : Operator} (kind : t.kind = .operator)
      (symbol : Operator.ofText? t.text = some o) (level : p ≤ o.level)
      (left : Writes o.level ls l) (right : Writes (o.level + 1) rs r) :
      Writes p (ls ++ t :: rs) (.operator t l r)

theorem Operator.level_le_two (o : Operator) : o.level ≤ 2 := by
  cases o <;> decide

/-- The table of the conversion orders the operators as the grammar does. -/
theorem Operator.priority_eq (o : Operator) : o.priority = o.level + 2 := by
  cases o <;> rfl

theorem Token.priority_operator {t : Token} {o : Operator} (hk : t.kind = .operator)
    (ho : Operator.ofText? t.text = some o) : t.priority = o.level + 2 := by
  simp only [Token.priority, hk, ho, Option.map_some, Option.getD_some, o.priority_eq]

theorem Token.priority_function {t : Token} (hk : t.kind = .function) : t.priority = 4 := by
  simp only [Token.priority, hk]

theorem Token.priority_opening {t : Token} (hk : t.kind = .opening) : t.priority = 1 := by
  simp only [Token.priority, hk]

namespace Postorder

/-- What the conversion puts out from a stack and the tokens still to come. -/
def output (st ts : List Token) : List Token := (moves st ts).filterMap Move.output?

theorem filterMap_drain (st : List Token) :
    (st.map Move.drain).filterMap Move.output? = st := by
  rw [List.filterMap_map]
  exact List.filterMap_some

theorem filterMap_release (p : Nat) (st : List Token) :
    (st.map (Move.release · p)).filterMap Move.output? = st := by
  rw [List.filterMap_map]
  exact List.filterMap_some

theorem output_nil (st : List Token) : output st [] = st := by
  rw [output, moves, filterMap_drain]

theorem output_operand {t : Token} (h : t.kind = .number ∨ t.kind = .var) (st rest : List Token) :
    output st (t :: rest) = t :: output st rest := by
  rcases h with h | h <;> simp only [output, moves, h, List.filterMap_cons, Move.output?]

theorem output_push {t : Token} (h : t.kind = .function ∨ t.kind = .opening)
    (st rest : List Token) : output st (t :: rest) = output (t :: st) rest := by
  rcases h with h | h <;> simp only [output, moves, h, List.filterMap_cons, Move.output?]

/-- An operator releases a spine that binds at least as tightly, and stops at a looser top. -/
theorem output_operator {t : Token} (hk : t.kind = .operator) {spine st : List Token}
    (hs : ∀ s ∈ spine, t.priority ≤ s.priority) (ht : ∀ s ∈ st.head?, s.priority < t.priority)
    (rest : List Token) :
    output (spine ++ st) (t :: rest) = spine ++ output (t :: st) rest := by
  have stays : st.takeWhile (fun s => t.priority ≤ s.priority) = [] ∧
      st.dropWhile (fun s => t.priority ≤ s.priority) = st := by
    cases st with
    | nil => exact ⟨rfl, rfl⟩
    | cons s st =>
      have : ¬ t.priority ≤ s.priority := Nat.not_le.mpr (ht s rfl)
      simp only [List.takeWhile_cons, List.dropWhile_cons, this, decide_false, Bool.false_eq_true,
        if_false, and_self]
  have leaves : ∀ s ∈ spine, decide (t.priority ≤ s.priority) = true :=
    fun s h => decide_eq_true (hs s h)
  simp only [output, moves, hk, List.filterMap_append, filterMap_release,
    List.takeWhile_append_of_pos leaves, List.dropWhile_append_of_pos leaves, stays,
    List.append_nil]

/-- A closing bracket drains a spine down to the nearest opening one, which it drops. -/
theorem output_closing {c o : Token} (hc : c.kind = .closing) (ho : o.kind = .opening)
    {spine : List Token} (hs : ∀ s ∈ spine, s.kind ≠ .opening) (st rest : List Token) :
    output (spine ++ o :: st) (c :: rest) = spine ++ output st rest := by
  have leaves : ∀ s ∈ spine, (s.kind != .opening) = true := fun s h => bne_iff_ne.mpr (hs s h)
  simp only [output, moves, hc, List.filterMap_append, filterMap_drain,
    List.takeWhile_append_of_pos leaves, List.dropWhile_append_of_pos leaves, ho, bne_self_eq_false,
    List.takeWhile_cons, List.dropWhile_cons, Bool.false_eq_true, if_false, List.append_nil,
    List.tail_cons]

end Postorder

namespace Writes

variable {p q : Nat} {ts : List Token} {T : Tree}

open Postorder (output output_nil output_operand output_push output_operator output_closing)

theorem mono (h : Writes p ts T) (hq : q ≤ p) : Writes q ts T := by
  cases h with
  | number hk => exact .number hk
  | var hk => exact .var hk
  | call hk ho hc ha => exact .call hk ho hc ha
  | group ho hc hi => exact .group ho hc hi
  | operator hk ho hp hl hr => exact .operator hk ho (Nat.le_trans hq hp) hl hr

theorem typed (h : Writes p ts T) : T.Typed := by
  induction h with
  | number hk => exact hk
  | var hk => exact hk
  | call hk _ _ _ ih => exact ⟨hk, ih⟩
  | group _ _ _ ih => exact ih
  | operator hk _ _ _ _ ihl ihr => exact ⟨hk, ihl, ihr⟩

theorem mem_of_mem_postorder (h : Writes p ts T) {t : Token} (ht : t ∈ T.postorder) : t ∈ ts := by
  induction h with
  | number _ => exact ht
  | var _ => exact ht
  | call _ _ _ _ ih =>
    rw [Tree.postorder, List.mem_append, List.mem_singleton] at ht
    rcases ht with ht | rfl
    · exact .tail _ (.tail _ (List.mem_append_left _ (ih ht)))
    · exact .head _
  | group _ _ _ ih => exact .tail _ (List.mem_append_left _ (ih ht))
  | operator _ _ _ _ _ ihl ihr =>
    rw [Tree.postorder, List.mem_append, List.mem_append, List.mem_singleton] at ht
    rcases ht with (ht | ht) | rfl
    · exact List.mem_append_left _ (ihl ht)
    · exact List.mem_append_right _ (.tail _ (ihr ht))
    · exact List.mem_append_right _ (.head _)

/-! ## The conversion by a stack -/

/-- The induction is on the tree as it is written. The top of the stack binds more loosely than
any operator of the level; what the tokens leave on the stack binds at least as tightly as the
level, so the operator that comes next at a lower level releases all of it. -/
theorem unwinds (h : Writes p ts T) (st rest : List Token)
    (top : ∀ s ∈ st.head?, s.priority < p + 2) :
    ∃ out spine, output st (ts ++ rest) = out ++ output (spine ++ st) rest ∧
      out ++ spine = T.postorder ∧ ∀ s ∈ spine, s.kind ≠ .opening ∧ min (p + 2) 4 ≤ s.priority := by
  induction h generalizing st rest with
  | @number p t hk =>
    exact ⟨[t], [], output_operand (.inl hk) st rest, rfl, fun s hs => absurd hs List.not_mem_nil⟩
  | @var p t hk =>
    exact ⟨[t], [], output_operand (.inr hk) st rest, rfl, fun s hs => absurd hs List.not_mem_nil⟩
  | @call p f o c ts a hk ho hc _ ih =>
    have inside : ∀ s ∈ (o :: f :: st).head?, s.priority < 0 + 2 := by
      intro s hs
      cases hs
      rw [Token.priority_opening ho]
      decide
    obtain ⟨out, spine, hout, hpost, hs⟩ := ih (o :: f :: st) (c :: rest) inside
    -- the closing bracket drains the spine of the argument and leaves the function waiting
    refine ⟨out ++ spine, [f], ?_, ?_, ?_⟩
    · rw [List.cons_append, List.cons_append, List.append_assoc, List.singleton_append,
        output_push (.inl hk), output_push (.inr ho), hout,
        output_closing hc ho fun s h => (hs s h).1, List.append_assoc, List.singleton_append]
    · rw [hpost, Tree.postorder]
    · intro s hs
      rw [List.mem_singleton] at hs
      subst hs
      rw [hk, Token.priority_function hk]
      exact ⟨Token.Kind.noConfusion, Nat.min_le_right _ _⟩
  | @group p o c ts T ho hc _ ih =>
    have inside : ∀ s ∈ (o :: st).head?, s.priority < 0 + 2 := by
      intro s hs
      cases hs
      rw [Token.priority_opening ho]
      decide
    obtain ⟨out, spine, hout, hpost, hs⟩ := ih (o :: st) (c :: rest) inside
    refine ⟨out ++ spine, [], ?_, ?_, fun s hs => absurd hs List.not_mem_nil⟩
    · rw [List.cons_append, List.append_assoc, List.singleton_append, output_push (.inr ho), hout,
        output_closing hc ho fun s h => (hs s h).1, List.append_assoc, List.nil_append]
    · rw [List.append_nil, hpost]
  | @operator p t ls rs l r o hk ho hp _ _ ihl ihr =>
    have hpri := Token.priority_operator hk ho
    have htwo := o.level_le_two
    obtain ⟨outl, spinel, houtl, hpostl, hsl⟩ := ihl st (t :: (rs ++ rest)) fun s hs =>
      Nat.lt_of_lt_of_le (top s hs) (by omega)
    have above : ∀ s ∈ (t :: st).head?, s.priority < o.level + 1 + 2 := by
      intro s hs
      cases hs
      omega
    obtain ⟨outr, spiner, houtr, hpostr, hsr⟩ := ihr (t :: st) rest above
    -- the operator releases the spine of its left operand, and nothing below
    have released : ∀ s ∈ spinel, t.priority ≤ s.priority := fun s hs => by
      have := (hsl s hs).2
      omega
    have below : ∀ s ∈ st.head?, s.priority < t.priority := fun s hs => by
      have := top s hs
      omega
    refine ⟨outl ++ spinel ++ outr, spiner ++ [t], ?_, ?_, ?_⟩
    · rw [List.append_assoc, List.cons_append, houtl, output_operator hk released below, houtr]
      simp only [List.append_assoc, List.singleton_append]
    · rw [Tree.postorder, ← hpostl, ← hpostr]
      simp only [List.append_assoc]
    · intro s hs
      rw [List.mem_append, List.mem_singleton] at hs
      rcases hs with hs | rfl
      · have := hsr s hs
        exact ⟨this.1, by omega⟩
      · rw [hk]
        exact ⟨Token.Kind.noConfusion, by omega⟩

/-- The conversion puts out the listing of the tree. -/
theorem postorder_eq (h : Writes p ts T) : Token.postorder ts = T.postorder := by
  obtain ⟨out, spine, hout, hpost, -⟩ := h.unwinds [] [] fun s hs => nomatch hs
  rw [List.append_nil, List.append_nil, output_nil, hpost] at hout
  exact hout

/-- Tokens write at most one tree. -/
theorem unique {S : Tree} (hS : Writes q ts S) (hT : Writes p ts T) : S = T :=
  Tree.postorder_injective hS.typed hT.typed (hS.postorder_eq.symm.trans hT.postorder_eq)

/-! ## A chain grows -/

/-- An operand behind a new operator goes as deep into the right side of the tree as the operators
there bind more loosely than the new one. -/
theorem extend (h : Writes p ts T) {t : Token} {us : List Token} {U : Tree} {o : Operator}
    (hk : t.kind = .operator) (ho : Operator.ofText? t.text = some o) (hp : p ≤ o.level)
    (hU : Writes 3 us U) : ∃ S, Writes p (ts ++ t :: us) S := by
  have hright : Writes (o.level + 1) us U := hU.mono (Nat.succ_le_succ o.level_le_two)
  induction h with
  | number hn => exact ⟨_, .operator hk ho hp (.number hn) hright⟩
  | var hv => exact ⟨_, .operator hk ho hp (.var hv) hright⟩
  | call hf hopen hclose ha => exact ⟨_, .operator hk ho hp (.call hf hopen hclose ha) hright⟩
  | group hopen hclose hi => exact ⟨_, .operator hk ho hp (.group hopen hclose hi) hright⟩
  | @operator p t' ls rs l r o' hk' ho' hp' hl hr ihl ihr =>
    rcases Nat.lt_or_ge o'.level o.level with tighter | looser
    · -- the new operator takes its left operand from the end of the right one
      obtain ⟨S, hS⟩ := ihr tighter
      rw [List.append_assoc, List.cons_append]
      exact ⟨_, .operator hk' ho' hp' hl hS⟩
    · exact ⟨_, .operator hk ho hp (.operator hk' ho' looser hl hr) hright⟩

end Writes

end FunctionCalculator
