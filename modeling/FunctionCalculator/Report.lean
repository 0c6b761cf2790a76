import FunctionCalculator.Decimal.Fixed

/-!
# Texts of results

Results are shown with two places, the value at a root with eight. Where there is no result, the
text says that the set of results is empty.
-/

namespace FunctionCalculator.Report

def places : Nat := 2

/-- The places of the value at a root, which is near zero. -/
def rootValuePlaces : Nat := 8

/-- The text of a number or of the empty set, behind a name. -/
def named (name : String) : Option Float → String
  | some v => name ++ " ≈ " ++ Decimal.fixed places v
  | none => name ++ " ∈ ∅"

/-- The text of a value, named as a function of the variable if it depends on it. -/
def value (dependsOnX : Bool) (v : Option Float) : String :=
  named (if dependsOnX then "f(x)" else "f") v

def root (r : Option Float) (atRoot : Option Float) : String :=
  match r with
  | none => named "x" none
  | some r =>
    let shown := Decimal.fixed places r
    "x ≈ " ++ shown ++ ", f(" ++ shown ++ ")"
      ++ match atRoot with
        | some v => " ≈ " ++ Decimal.fixed rootValuePlaces v
        | none => " indéfini"

def integral (v : Option Float) : String := named "∫" v

def progress (panel total : Nat) : String :=
  "∫ étape " ++ toString panel ++ " / " ++ toString total

/-- The text that holds the place of a result to come. -/
def waiting : String := "calcul en cours…"

end FunctionCalculator.Report
