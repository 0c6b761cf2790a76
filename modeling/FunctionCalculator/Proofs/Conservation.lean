import FunctionCalculator.Proofs.Grouping
import Mathlib.Data.List.TakeWhile

/-!
# What the conversion keeps of its tokens

The conversion to postorder takes any list of tokens: operators without operands, brackets that are
not closed, closing brackets that close nothing. None of that is an error to it.

What is proved:
  1. `closes_iff`: whether an opening bracket is closed is told by counting, from the end, the
     closing brackets that still look for an opening one.
  2. `count_output`, `operands_output`, `openings_output`: what is put out from any stack and any
     tokens still to come, against that stack and those tokens.
  3. `postorder_conserves`: each token but the brackets is put out exactly once, the operands in
     their order; no closing bracket is, and of the opening ones those that nothing closes.
-/

namespace FunctionCalculator

namespace Token

def isOperand (t : Token) : Bool := t.kind == .number || t.kind == .var

def isOpening (t : Token) : Bool := t.kind == .opening

def isClosing (t : Token) : Bool := t.kind == .closing

def isBracket (t : Token) : Bool := t.isOpening || t.isClosing

variable {t : Token}

theorem isOperand_iff : t.isOperand = true ↔ t.kind = .number ∨ t.kind = .var := by
  simp [isOperand]

theorem isOpening_iff : t.isOpening = true ↔ t.kind = .opening := by simp [isOpening]

/-- The four ways in which a token is converted. -/
theorem conversion_cases (t : Token) :
    (t.kind = .number ∨ t.kind = .var) ∨ (t.kind = .function ∨ t.kind = .opening) ∨
      t.kind = .operator ∨ t.kind = .closing := by
  cases t.kind <;> simp

end Token

/-! ## Which brackets match -/

namespace Brackets

/-- Tokens whose brackets match one another. -/
inductive Balanced : List Token → Prop where
  | nil : Balanced []
  | other {t ts} (opening : t.kind ≠ .opening) (closing : t.kind ≠ .closing) (rest : Balanced ts) :
      Balanced (t :: ts)
  | pair {o us c ts} (opening : o.kind = .opening) (inner : Balanced us)
      (closing : c.kind = .closing) (rest : Balanced ts) : Balanced (o :: (us ++ c :: ts))

/-- The tokens behind an opening bracket close it: up to its closing bracket they are balanced. -/
def Closes (ts : List Token) : Prop :=
  ∃ us c vs, ts = us ++ c :: vs ∧ Balanced us ∧ c.kind = .closing

/-- How many closing brackets match no opening one in front of them. -/
def surplus : List Token → Nat
  | [] => 0
  | t :: ts =>
    match t.kind with
    | .opening => surplus ts - 1
    | .closing => surplus ts + 1
    | _ => surplus ts

variable {t : Token}

theorem surplus_opening (hk : t.kind = .opening) (ts : List Token) :
    surplus (t :: ts) = surplus ts - 1 := by
  simp only [surplus, hk]

theorem surplus_closing (hk : t.kind = .closing) (ts : List Token) :
    surplus (t :: ts) = surplus ts + 1 := by
  simp only [surplus, hk]

theorem surplus_other (opening : t.kind ≠ .opening) (closing : t.kind ≠ .closing)
    (ts : List Token) : surplus (t :: ts) = surplus ts := by
  cases hk : t.kind <;> simp_all [surplus]

theorem Balanced.surplus_append {us : List Token} (h : Balanced us) (vs : List Token) :
    surplus (us ++ vs) = surplus vs := by
  induction h generalizing vs with
  | nil => rfl
  | other opening closing _ ih => rw [List.cons_append, surplus_other opening closing, ih]
  | pair opening _ closing _ ihu iht =>
    rw [List.cons_append, List.append_assoc, List.cons_append, surplus_opening opening, ihu,
      surplus_closing closing, iht]
    omega

/-- Where there is a closing bracket too many, the tokens in front of the first such one are
balanced. Behind an opening bracket the first one closes it, and the next one is looked for. -/
theorem exists_closing {ts : List Token} (h : 0 < surplus ts) :
    ∃ us c vs, ts = us ++ c :: vs ∧ Balanced us ∧ c.kind = .closing ∧
      surplus ts = surplus vs + 1 := by
  match ts with
  | [] => exact absurd h (by simp [surplus])
  | t :: ts =>
    by_cases opening : t.kind = .opening
    · rw [surplus_opening opening] at h ⊢
      obtain ⟨us, c, vs, split, inner, closing, first⟩ :=
        exists_closing (show 0 < surplus ts by omega)
      have shorter : vs.length < ts.length := by
        rw [split, List.length_append, List.length_cons]
        omega
      obtain ⟨ws, d, zs, rfl, rest, last, second⟩ := exists_closing (show 0 < surplus vs by omega)
      refine ⟨t :: (us ++ c :: ws), d, zs, ?_, .pair opening inner closing rest, last, by omega⟩
      rw [split]
      simp
    · by_cases closing : t.kind = .closing
      · exact ⟨[], t, ts, rfl, .nil, closing, surplus_closing closing ts⟩
      · rw [surplus_other opening closing] at h ⊢
        obtain ⟨us, c, vs, rfl, balanced, last, count⟩ := exists_closing h
        exact ⟨t :: us, c, vs, rfl, .other opening closing balanced, last, count⟩
termination_by ts.length

theorem closes_iff {ts : List Token} : Closes ts ↔ 0 < surplus ts := by
  constructor
  · intro ⟨us, c, vs, split, balanced, closing⟩
    rw [split, balanced.surplus_append, surplus_closing closing]
    omega
  · intro h
    obtain ⟨us, c, vs, split, balanced, closing, -⟩ := exists_closing h
    exact ⟨us, c, vs, split, balanced, closing⟩

instance (ts : List Token) : Decidable (Closes ts) := decidable_of_iff _ closes_iff.symm

/-- The opening brackets that nothing behind them closes. -/
def unclosed : List Token → List Token
  | [] => []
  | t :: ts => if t.kind = .opening ∧ ¬ Closes ts then t :: unclosed ts else unclosed ts

theorem unclosed_other (hk : t.kind ≠ .opening) (ts : List Token) :
    unclosed (t :: ts) = unclosed ts :=
  if_neg fun h => hk h.1

/-- Of the opening brackets on a stack, the tokens still to come leave those below the ones that
they close; a new bracket on top is the first to be closed. -/
theorem unclosed_opening (hk : t.kind = .opening) (ts os : List Token) :
    (unclosed ts).reverse ++ (t :: os).drop (surplus ts) =
      (unclosed (t :: ts)).reverse ++ os.drop (surplus (t :: ts)) := by
  rw [surplus_opening hk]
  by_cases closed : Closes ts
  · obtain ⟨n, hn⟩ := Nat.exists_eq_add_of_lt (closes_iff.mp closed)
    rw [unclosed, if_neg fun h => h.2 closed, hn]
    simp
  · have none : surplus ts = 0 := by have := closes_iff.not.mp closed; omega
    rw [unclosed, if_pos ⟨hk, closed⟩, none]
    simp

end Brackets

/-! ## What is put out from a stack -/

namespace Postorder

open Brackets

variable {st ts : List Token} {t : Token}

theorem output_cons_operator (hk : t.kind = .operator) (st ts : List Token) :
    output st (t :: ts) =
      (st.takeWhile fun s => t.priority ≤ s.priority) ++
        output (t :: st.dropWhile fun s => t.priority ≤ s.priority) ts := by
  simp only [output, moves, hk, List.filterMap_append, filterMap_release]

theorem output_cons_closing (hk : t.kind = .closing) (st ts : List Token) :
    output st (t :: ts) =
      (st.takeWhile fun s => s.kind != .opening) ++
        output (st.dropWhile fun s => s.kind != .opening).tail ts := by
  simp only [output, moves, hk, List.filterMap_append, filterMap_drain]

/-- A closing bracket drops nothing from the stack but an opening one. -/
theorem count_drained {a : Token} (ha : a.kind ≠ .opening) (st : List Token) :
    (st.takeWhile fun s => s.kind != .opening).count a +
      (st.dropWhile fun s => s.kind != .opening).tail.count a = st.count a := by
  induction st with
  | nil => rfl
  | cons s st ih =>
    by_cases opening : s.kind = .opening
    · have other : s ≠ a := fun h => ha (h ▸ opening)
      simp [opening, other]
    · simp only [List.takeWhile_cons, List.dropWhile_cons, bne_iff_ne, ne_eq, opening,
        not_false_eq_true, if_true, List.count_cons]
      omega

/-- Apart from opening brackets, what comes in is put out as often, and closing brackets never. -/
theorem count_output {a : Token} (ha : a.kind ≠ .opening) (st ts : List Token) :
    (output st ts).count a = st.count a + (ts.filter fun t => !t.isClosing).count a := by
  induction ts generalizing st with
  | nil => rw [output_nil, List.filter_nil, List.count_nil, Nat.add_zero]
  | cons t ts ih =>
    have kept (hk : t.kind ≠ .closing) : ((t :: ts).filter fun t => !t.isClosing).count a =
        (ts.filter fun t => !t.isClosing).count a + if t == a then 1 else 0 := by
      rw [List.filter_cons_of_pos (by simp [Token.isClosing, hk]), List.count_cons]
    rcases t.conversion_cases with hk | hk | hk | hk
    · rw [output_operand hk, List.count_cons, ih, kept (by rcases hk with hk | hk <;> simp [hk])]
      omega
    · rw [output_push hk, ih, List.count_cons, kept (by rcases hk with hk | hk <;> simp [hk])]
      omega
    · have split : (st.takeWhile fun s => t.priority ≤ s.priority).count a +
          (st.dropWhile fun s => t.priority ≤ s.priority).count a = st.count a := by
        rw [← List.count_append, List.takeWhile_append_dropWhile]
      rw [output_cons_operator hk, List.count_append, ih, List.count_cons, kept (by simp [hk])]
      omega
    · have split := count_drained ha st
      rw [output_cons_closing hk, List.count_append, ih,
        List.filter_cons_of_neg (by simp [Token.isClosing, hk])]
      omega

theorem filter_takeWhile_eq_nil {p q : Token → Bool} (h : ∀ s ∈ st, q s = true → p s = false) :
    (st.takeWhile q).filter p = [] := by
  refine List.filter_eq_nil_iff.mpr fun s hs => ?_
  rw [h s ((List.takeWhile_prefix q).subset hs) (List.mem_takeWhile_imp hs)]
  exact Bool.false_ne_true

/-- Operands do not wait on the stack, so they keep their order. -/
theorem operands_output (hst : ∀ s ∈ st, s.isOperand = false) (ts : List Token) :
    (output st ts).filter Token.isOperand = ts.filter Token.isOperand := by
  induction ts generalizing st with
  | nil =>
    rw [output_nil]
    exact List.filter_eq_nil_iff.mpr fun s hs => by simp [hst s hs]
  | cons t ts ih =>
    have released {q : Token → Bool} : (st.takeWhile q).filter Token.isOperand = [] :=
      filter_takeWhile_eq_nil fun s hs _ => hst s hs
    rcases t.conversion_cases with hk | hk | hk | hk
    · have operand := Token.isOperand_iff.mpr hk
      rw [output_operand hk, List.filter_cons_of_pos operand, List.filter_cons_of_pos operand,
        ih hst]
    · have other : t.isOperand = false := by rcases hk with hk | hk <;> simp [Token.isOperand, hk]
      rw [output_push hk, ih (List.forall_mem_cons.mpr ⟨other, hst⟩),
        List.filter_cons_of_neg (by simp [other])]
    · have other : t.isOperand = false := by simp [Token.isOperand, hk]
      have below : ∀ s ∈ st.dropWhile (fun s => t.priority ≤ s.priority), s.isOperand = false :=
        fun s hs => hst s ((List.dropWhile_suffix _).subset hs)
      rw [output_cons_operator hk, List.filter_append, released, List.nil_append,
        ih (List.forall_mem_cons.mpr ⟨other, below⟩), List.filter_cons_of_neg (by simp [other])]
    · have other : t.isOperand = false := by simp [Token.isOperand, hk]
      have below : ∀ s ∈ (st.dropWhile fun s => s.kind != .opening).tail, s.isOperand = false :=
        fun s hs => hst s ((List.dropWhile_suffix _).subset (List.mem_of_mem_tail hs))
      rw [output_cons_closing hk, List.filter_append, released, List.nil_append, ih below,
        List.filter_cons_of_neg (by simp [other])]

theorem openings_drained (st : List Token) :
    (st.dropWhile fun s => s.kind != .opening).tail.filter Token.isOpening =
      (st.filter Token.isOpening).tail := by
  induction st with
  | nil => rfl
  | cons s st ih =>
    by_cases opening : s.kind = .opening
    · simp [Token.isOpening, opening]
    · simpa [Token.isOpening, opening] using ih

/-- No operator of a known text releases an opening bracket. -/
theorem openings_released {o : Operator} (hk : t.kind = .operator)
    (ho : Operator.ofText? t.text = some o) (st : List Token) :
    (st.takeWhile fun s => t.priority ≤ s.priority).filter Token.isOpening = [] := by
  refine filter_takeWhile_eq_nil fun s _ tight => ?_
  rw [Bool.eq_false_iff]
  intro opening
  have low := Token.priority_opening (Token.isOpening_iff.mp opening)
  have high := Token.priority_operator hk ho
  have := of_decide_eq_true tight
  omega

/-- The opening brackets that are put out: those of the tokens still to come that nothing closes,
the last one first, and then those of the stack that are left. -/
theorem openings_output (known : ∀ t ∈ ts, t.kind = .operator → (Operator.ofText? t.text).isSome)
    (st : List Token) :
    (output st ts).filter Token.isOpening =
      (unclosed ts).reverse ++ (st.filter Token.isOpening).drop (surplus ts) := by
  induction ts generalizing st with
  | nil => rw [output_nil]; rfl
  | cons t ts ih =>
    have ih := ih fun u hu => known u (List.mem_cons_of_mem t hu)
    have skipped (opening : t.kind ≠ .opening) (us : List Token) :
        (t :: us).filter Token.isOpening = us.filter Token.isOpening :=
      List.filter_cons_of_neg (by simp [Token.isOpening, opening])
    rcases t.conversion_cases with hk | hk | hk | hk
    · have opening : t.kind ≠ .opening := by rcases hk with hk | hk <;> simp [hk]
      have closing : t.kind ≠ .closing := by rcases hk with hk | hk <;> simp [hk]
      rw [output_operand hk, skipped opening, ih, unclosed_other opening,
        surplus_other opening closing]
    · rw [output_push hk, ih]
      rcases hk with hk | hk
      · rw [skipped (by simp [hk]), unclosed_other (by simp [hk]),
          surplus_other (by simp [hk]) (by simp [hk])]
      · rw [List.filter_cons_of_pos (Token.isOpening_iff.mpr hk), unclosed_opening hk]
    · obtain ⟨o, ho⟩ := Option.isSome_iff_exists.mp (known t List.mem_cons_self hk)
      have released := openings_released hk ho st
      have below : (st.dropWhile fun s => t.priority ≤ s.priority).filter Token.isOpening =
          st.filter Token.isOpening := by
        have split := congrArg (List.filter Token.isOpening)
          (List.takeWhile_append_dropWhile (p := fun s => t.priority ≤ s.priority) (l := st))
        rwa [List.filter_append, released, List.nil_append] at split
      rw [output_cons_operator hk, List.filter_append, released, List.nil_append, ih,
        skipped (by simp [hk]), below, unclosed_other (by simp [hk]),
        surplus_other (by simp [hk]) (by simp [hk])]
    · have drained : (st.takeWhile fun s => s.kind != .opening).filter Token.isOpening = [] :=
        filter_takeWhile_eq_nil fun s _ hs => by simpa [Token.isOpening] using hs
      rw [output_cons_closing hk, List.filter_append, drained, List.nil_append, ih,
        openings_drained, unclosed_other (by simp [hk]), surplus_closing hk, List.drop_tail]

end Postorder

/-! ## The whole conversion -/

namespace Token

open Brackets

/-- From any tokens whose operators are known, the conversion puts out all but the brackets exactly
once, the numbers and variables in their order, no closing bracket, and the opening brackets that no
later closing one matches, the last of them first. -/
theorem postorder_conserves (ts : List Token)
    (known : ∀ t ∈ ts, t.kind = .operator → (Operator.ofText? t.text).isSome) :
    ((postorder ts).filter fun t => !t.isBracket).Perm (ts.filter fun t => !t.isBracket) ∧
      (postorder ts).filter isOperand = ts.filter isOperand ∧
      (∀ t ∈ postorder ts, t.kind ≠ .closing) ∧
      (postorder ts).filter isOpening = (unclosed ts).reverse := by
  have count {a : Token} (ha : a.kind ≠ .opening) :
      (postorder ts).count a = (ts.filter fun t => !t.isClosing).count a := by
    have := Postorder.count_output ha [] ts
    rwa [List.count_nil, Nat.zero_add] at this
  refine ⟨List.perm_iff_count.mpr fun a => ?_,
    Postorder.operands_output (List.forall_mem_nil _) ts, fun t ht closing => ?_, ?_⟩
  · cases bracket : a.isBracket with
    | true =>
      have absent (us : List Token) : (us.filter fun t => !t.isBracket).count a = 0 :=
        List.count_eq_zero.mpr fun member => by simp [bracket] at member
      rw [absent, absent]
    | false =>
      obtain ⟨opening, closing⟩ := Bool.or_eq_false_iff.mp bracket
      have ha : a.kind ≠ .opening := fun h => Bool.eq_false_iff.mp opening (isOpening_iff.mpr h)
      rw [List.count_filter (by simp [bracket]), List.count_filter (by simp [bracket]), count ha,
        List.count_filter (by simp [closing])]
  · have member : 0 < (postorder ts).count t := List.count_pos_iff.mpr ht
    rw [count (by simp [closing]), List.count_pos_iff, List.mem_filter] at member
    simp [isClosing, closing] at member
  · have openings := Postorder.openings_output known []
    rwa [List.filter_nil, List.drop_nil, List.append_nil] at openings

/-- A closing bracket that closes nothing, and two opening ones of which the second is closed. -/
theorem postorder_conserves_stray :
    ∃ ts : List Token, ts.map text = [[')'], ['2'], ['*'], ['('], ['x'], ['('], ['3'], [')']] ∧
      ((postorder ts).filter fun t => !t.isBracket).Perm (ts.filter fun t => !t.isBracket) ∧
      (postorder ts).filter isOperand = ts.filter isOperand ∧
      ((postorder ts).filter isOpening).map position = [3] := by
  obtain ⟨once, order, -, openings⟩ := postorder_conserves
    (")2*(x(3)".toList.zipIdx.map fun p => ofLexeme ⟨[p.1], p.2⟩) (by decide)
  exact ⟨_, by decide, once, order, by rw [openings]; decide⟩

end Token

end FunctionCalculator
