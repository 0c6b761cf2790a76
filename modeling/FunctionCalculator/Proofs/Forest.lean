import FunctionCalculator.Proofs.Tree
import Mathlib.Logic.ExistsUnique

/-!
# What a run leaves behind

A run over any tokens, in whatever order, is the listing of a forest as long as it goes on: the
stack holds the values of its trees, the last one on top. So a run that ends with one value was a
run over the listing of one tree.

What is proved:
  1. `Forest.step`, `Forest.exec`: the tokens read so far list a forest whose values are the stack.
     A token that finds its operands joins the last trees to one; a token that does not ends the
     run.
  2. `yields_iff`: tokens yield a value exactly if they list a tree with that value; the tree is
     the only one that they list, and the listing of a tree never meets a fault.
-/

namespace FunctionCalculator

/-- Every token stands where its kind belongs and means what its kind promises. -/
structure Tree.Proper (T : Tree) : Prop where
  typed : T.Typed
  known : ∀ t ∈ T.postorder, t.Known

namespace Tree.Proper

variable {t : Token} {a l r : Tree}

theorem number (hk : t.kind = .number) (ht : (Action.number? t.text).isSome) :
    (number t).Proper where
  typed := hk
  known u hu := by
    rw [List.mem_singleton.mp hu, Token.Known, hk]
    exact ht

theorem var (hk : t.kind = .var) : (var t).Proper where
  typed := hk
  known u hu := by
    rw [List.mem_singleton.mp hu, Token.Known, hk]
    trivial

theorem function (hk : t.kind = .function) (ht : (Registry.find? (Text.unsigned t.text)).isSome)
    (ha : a.Proper) : (function t a).Proper where
  typed := ⟨hk, ha.typed⟩
  known u hu := by
    rw [postorder, List.mem_append, List.mem_singleton] at hu
    rcases hu with hu | rfl
    · exact ha.known u hu
    · rw [Token.Known, hk]
      exact ht

theorem operator (hk : t.kind = .operator) (ht : (Operator.ofText? t.text).isSome)
    (hl : l.Proper) (hr : r.Proper) : (operator t l r).Proper where
  typed := ⟨hk, hl.typed, hr.typed⟩
  known u hu := by
    rw [postorder, List.mem_append, List.mem_append, List.mem_singleton] at hu
    rcases hu with (hu | hu) | rfl
    · exact hl.known u hu
    · exact hr.known u hu
    · rw [Token.Known, hk]
      exact ht

end Tree.Proper

/-- A run goes on only with a value on top. -/
theorem Program.exists_of_push {t : Token} {byZero : Bool} {v : Option Float} {s s' : List Float}
    (h : push t byZero v s = .ok s') : ∃ w, v = some w ∧ s' = w :: s := by
  cases v with
  | none => cases h
  | some w => exact ⟨w, rfl, (Except.ok.inj h).symm⟩

/-- The tokens list a forest, one tree behind the other, and the stack holds the values of the
trees at `x`, that of the last tree on top. -/
inductive Forest (x : Float) : List Token → List Float → Prop where
  | nil : Forest x [] []
  | cons {ts s v} {T : Tree} (others : Forest x ts s) (proper : T.Proper)
      (value : T.value? x = some v) : Forest x (ts ++ T.postorder) (v :: s)

namespace Forest

variable {x : Float} {ts : List Token} {s s' : List Float}

/-- A token after which the run goes on takes the last trees of the forest and is the root of a
new one. -/
theorem step {t : Token} (h : Forest x ts s)
    (hs : Program.step x ⟨t, Action.ofToken t⟩ s = .ok s') : Forest x (ts ++ [t]) s' := by
  cases hk : t.kind with
  | number =>
    simp only [Action.ofToken, hk] at hs
    cases hn : Action.number? t.text with
    | none =>
      rw [hn] at hs
      cases hs
    | some v =>
      rw [hn] at hs
      obtain ⟨w, hw, rfl⟩ := Program.exists_of_push hs
      refine h.cons (.number hk (by rw [hn]; rfl)) ?_
      rw [Tree.value?_number, hn]
      exact hw
  | var =>
    simp only [Action.ofToken, hk] at hs
    obtain ⟨w, hw, rfl⟩ := Program.exists_of_push hs
    exact h.cons (.var hk) hw
  | function =>
    simp only [Action.ofToken, hk] at hs
    cases hf : Registry.find? (Text.unsigned t.text) with
    | none =>
      rw [hf] at hs
      cases h <;> cases hs
    | some f =>
      rw [hf] at hs
      cases h with
      | nil => cases hs
      | cons others proper value =>
        obtain ⟨w, hw, rfl⟩ := Program.exists_of_push hs
        rw [List.append_assoc]
        refine others.cons (.function hk (by rw [hf]; rfl) proper) ?_
        rw [Tree.value?_function, hf, value]
        exact hw
  | operator =>
    simp only [Action.ofToken, hk] at hs
    cases ho : Operator.ofText? t.text with
    | none =>
      rw [ho] at hs
      -- the stack is looked at first, but any stack ends the run
      obtain - | ⟨- | _, _, _⟩ := h <;> cases hs
    | some o =>
      rw [ho] at hs
      cases h with
      | nil => cases hs
      | cons others properR valueR =>
        cases others with
        | nil => cases hs
        | cons others properL valueL =>
          obtain ⟨w, hw, rfl⟩ := Program.exists_of_push hs
          rw [List.append_assoc, List.append_assoc]
          rw [← List.append_assoc (Tree.postorder _)]
          refine others.cons (.operator hk (by rw [ho]; rfl) properL properR) ?_
          rw [Tree.value?_operator, ho, valueL, valueR]
          exact hw
  | opening | closing =>
    simp only [Action.ofToken, hk] at hs
    cases hs

/-- As long as a run goes on, its tokens list a forest whose values are the stack. -/
theorem exec (h : Forest x ts s) {us : List Token}
    (hu : Program.exec x (Program.ofTokens us) s = .ok s') : Forest x (ts ++ us) s' := by
  induction us generalizing ts s with
  | nil =>
    cases hu
    rwa [List.append_nil]
  | cons t us ih =>
    rw [Program.ofTokens, List.map_cons, Program.exec] at hu
    cases ht : Program.step x ⟨t, Action.ofToken t⟩ s with
    | error stop =>
      rw [ht] at hu
      cases hu
    | ok s₁ =>
      rw [ht] at hu
      rw [← List.singleton_append, ← List.append_assoc]
      exact ih (h.step ht) hu

theorem exists_tree {v : Float} (h : Forest x ts [v]) :
    ∃ T : Tree, T.Proper ∧ T.postorder = ts ∧ T.value? x = some v := by
  cases h with
  | cons others proper value =>
    cases others with
    | nil => exact ⟨_, proper, rfl, value⟩

end Forest

namespace Program

theorem exec_of_value {p : Program} {x v : Float} (h : p.value x = .ok (some v)) :
    exec x p [] = .ok [v] := by
  unfold value run at h
  split at h
  · next hv =>
    split at hv
    · next he =>
      cases hv
      cases h
      exact he
    · cases hv
    · cases hv
  · cases h
  · cases h

theorem value_listing {T : Tree} (hT : T.Proper) (x : Float) :
    (ofTokens T.postorder).value x = .ok (T.value? x) :=
  Tree.value_postorder hT.typed hT.known

theorem exists_tree_of_value {ts : List Token} {x v : Float}
    (h : (ofTokens ts).value x = .ok (some v)) :
    ∃ T : Tree, T.Proper ∧ T.postorder = ts ∧ T.value? x = some v :=
  (Forest.nil.exec (exec_of_value h)).exists_tree

/-- Tokens of any kinds and texts yield a value exactly if they list a tree that has it. They list
one tree only, and what lists no tree or more than one yields nothing; the listing of a tree meets
no fault, whether it has a value or not. -/
theorem yields_iff (ts : List Token) (x : Float) :
    (∀ v, (ofTokens ts).value x = .ok (some v) ↔
      ∃ T : Tree, T.Proper ∧ T.postorder = ts ∧ T.value? x = some v) ∧
    ((¬ ∃! T : Tree, T.Proper ∧ T.postorder = ts) → ∀ v, (ofTokens ts).value x ≠ .ok (some v)) ∧
    ∀ T : Tree, T.Proper → T.postorder = ts → (ofTokens ts).value x = .ok (T.value? x) := by
  have listing (T : Tree) (hT : T.Proper) (hts : T.postorder = ts) :
      (ofTokens ts).value x = .ok (T.value? x) := hts ▸ value_listing hT x
  refine ⟨fun v => ⟨exists_tree_of_value, ?_⟩, ?_, listing⟩
  · rintro ⟨T, hT, hts, hv⟩
    rw [listing T hT hts, hv]
  · intro ambiguous v hv
    obtain ⟨T, hT, hts, -⟩ := exists_tree_of_value hv
    refine ambiguous ⟨T, ⟨hT, hts⟩, fun S hS => ?_⟩
    exact Tree.postorder_injective hS.1.typed hT.typed (hS.2.trans hts.symm)

end Program

end FunctionCalculator
