import FunctionCalculator.Proofs.Projections
import FunctionCalculator.Task

/-!
# Displayed roots

A root is displayed with its value, for which the expression is evaluated once more. The search has
ended at that very point, so there is a value, and it is within the tolerance.

What is proved:
  1. `Decimal.mem_fixed`: the characters that a number is written with.
  2. `Report.mem_root_iff`: the texts of roots that speak of an undefined value can be told from all
     others.
  3. `Expression.displays_true_root`: a root that is found has a value within the tolerance, and
     the text of the answer shows both, or says that there is no root.
-/

namespace FunctionCalculator

namespace Decimal

theorem mem_fixed {places : Nat} {x : Float} {c : Char} (h : c ∈ (fixed places x).toList) :
    c.isDigit = true ∨ c ∈ ['-', '.', 'i', 'n', 'f', 'N', 'a'] := by
  have sign (negative : Bool) :
      ∀ d ∈ (signText negative).toList, d ∈ ['-', '.', 'i', 'n', 'f', 'N', 'a'] := by
    cases negative <;> simp [signText]
  have word : ∀ d ∈ "inf".toList ++ "NaN".toList, d ∈ ['-', '.', 'i', 'n', 'f', 'N', 'a'] := by
    simp
  have figure {n : Nat} (h : c ∈ digits n) : c.isDigit = true :=
    Nat.isDigit_of_mem_toDigits (by decide) (by decide) h
  have number {k : Nat} (h : c ∈ (pointed places k).toList) : c.isDigit = true ∨ c = '.' := by
    rw [pointed, String.toList_ofList, List.mem_append, List.mem_cons, List.leftpad,
      List.mem_append] at h
    rcases h with whole | point | padding | fraction
    · exact .inl (figure whole)
    · exact .inr point
    · rw [List.eq_of_mem_replicate padding]
      exact .inl rfl
    · exact .inl (figure fraction)
  unfold fixed at h
  split at h
  · exact .inr (word c (List.mem_append_right _ h))
  · rw [String.toList_append, List.mem_append] at h
    exact .inr (h.elim (sign _ c) fun h => word c (List.mem_append_left _ h))
  · rw [String.toList_append, List.mem_append] at h
    rcases h with h | h
    · exact .inr (sign _ c h)
    · rcases number h with digit | rfl
      · exact .inl digit
      · exact .inr (by decide)

end Decimal

theorem Report.mem_root_iff (r atRoot : Option Float) :
    'é' ∈ (root r atRoot).toList ↔ r.isSome ∧ atRoot = none := by
  have number (places : Nat) (x : Float) : 'é' ∉ (Decimal.fixed places x).toList := by
    intro h
    rcases Decimal.mem_fixed h with digit | other
    · exact absurd digit (by decide)
    · exact absurd other (by decide)
  cases r with
  | none =>
    rw [show root none atRoot = "x ∈ ∅" from rfl]
    simp
  | some r =>
    cases atRoot with
    | none => simp [root]
    | some v => simp [root, number]

namespace Expression

theorem value_of_value? {e : Expression} {x v : Float} (h : e.value? x = some v) :
    e.value x = .ok (some v) := by
  unfold value? at h
  split at h
  · next value => rw [value, h]
  · cases h

/-- A root of an expression has a value there within the tolerance. The answer to a request for one
is the text that there is none, or shows the root and its value; it never says that the value is
undefined. -/
theorem displays_true_root (e : Expression) (a b : Float) :
    (∀ r, e.root a b = some r → ∃ v, e.value r = .ok (some v) ∧ v.abs ≤ 1e-4) ∧
    (e.root a b = none ∧ (e.solve (.root a b)).text = "x ∈ ∅" ∨
      ∃ r v, e.root a b = some r ∧ e.value r = .ok (some v) ∧ v.abs ≤ 1e-4 ∧
        (e.solve (.root a b)).text = "x ≈ " ++ Decimal.fixed 2 r ++ ", f(" ++ Decimal.fixed 2 r
          ++ ") ≈ " ++ Decimal.fixed 8 v) ∧
    ∀ r, (e.solve (.root a b)).text ≠ Report.root (some r) none := by
  have true_root {r : Float} (h : e.root a b = some r) :
      ∃ v, e.value? r = some v ∧ v.abs ≤ 1e-4 := Secant.exists_value_of_root h
  have answer : (e.solve (.root a b)).text =
      Report.root (e.root a b) ((e.root a b).bind e.value?) := rfl
  refine ⟨fun r h => ?_, ?_, fun r same => ?_⟩
  · obtain ⟨v, value, close⟩ := true_root h
    exact ⟨v, value_of_value? value, close⟩
  · rw [answer]
    cases h : e.root a b with
    | none => exact .inl ⟨rfl, rfl⟩
    | some r =>
      obtain ⟨v, value, close⟩ := true_root h
      refine .inr ⟨r, v, rfl, value_of_value? value, close, ?_⟩
      rw [Option.bind_some, value]
      simp only [Report.root, Report.places, Report.rootValuePlaces, String.append_assoc]
      rfl
  · have undefined := (Report.mem_root_iff (some r) none).mpr ⟨rfl, rfl⟩
    rw [← same, answer, Report.mem_root_iff] at undefined
    obtain ⟨found, none⟩ := undefined
    obtain ⟨r, h⟩ := Option.isSome_iff_exists.mp found
    obtain ⟨v, value, -⟩ := true_root h
    rw [h, Option.bind_some, value] at none
    cases none

example : ((ofString "x-1").toOption.map fun e => (e.solve (.root (-10) 10)).text) =
    some "x ≈ 1.00, f(1.00) ≈ 0.00000000" := by decide +kernel

end Expression

end FunctionCalculator
