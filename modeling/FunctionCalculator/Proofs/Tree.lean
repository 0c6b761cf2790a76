import FunctionCalculator.Program

/-!
# Expression trees

The tree that a program stands for: its leaves are the operands, its inner nodes functions and
operators, and brackets are gone. Its listing in postorder is a program, and its value is defined
by recursion, without a stack.

What is proved:
  1. `value?_number`, `value?_var`, `value?_function`, `value?_operator`: each case of the value is
     what the machine does with one token.
  2. `postorder_injective`: a listing is read in one way only, as the kinds of its tokens tell how
     many values each of them takes.
  3. `value_postorder`: the run over a listing gives the value of the tree, never a fault, if every
     token means something (`Token.Known`).
  4. `isFinite_of_value?`: a value is finite.
-/

namespace FunctionCalculator

/-- Whether the text of a token means what its kind promises: a number is a literal, an operator
one of the five, a function one of the registry. -/
def Token.Known (t : Token) : Prop :=
  match t.kind with
  | .number => (Action.number? t.text).isSome
  | .operator => (Operator.ofText? t.text).isSome
  | .function => Registry.isKnown (Text.unsigned t.text)
  | .var | .opening | .closing => True

/-- An expression without its brackets. -/
inductive Tree where
  | number (t : Token)
  | var (t : Token)
  | function (t : Token) (argument : Tree)
  | operator (t : Token) (left right : Tree)
  deriving DecidableEq, Repr

namespace Tree

/-- The tokens of a tree, each behind its operands. -/
def postorder : Tree → List Token
  | number t | var t => [t]
  | function t a => a.postorder ++ [t]
  | operator t l r => l.postorder ++ r.postorder ++ [t]

/-- Every token stands where its kind belongs. -/
def Typed : Tree → Prop
  | number t => t.kind = .number
  | var t => t.kind = .var
  | function t a => t.kind = .function ∧ a.Typed
  | operator t l r => t.kind = .operator ∧ l.Typed ∧ r.Typed

/-- An odd number of signs in front of a text negates its value. -/
def negated (text : List Char) (v : Float) : Float :=
  if (Text.signs text).length % 2 == 1 then -v else v

/-- The arithmetic of the operators, which know no division by zero. -/
def combine? : Operator → Float → Float → Option Float
  | .plus, v, u => some (v + u)
  | .minus, v, u => some (v - u)
  | .times, v, u => some (v * u)
  | .divide, v, u => if u == 0 then none else some (v / u)
  | .power, v, u => some (v.pow u)

/-- The value at `x`: there is none if a part of the tree has none, if the number that comes out is
not finite, or if a divisor is zero. -/
def value? (x : Float) : Tree → Option Float
  | number t => do
    let v ← Decimal.literal? (Text.unsigned t.text)
    let w := negated t.text v
    if w.isFinite then some w else none
  | var t =>
    let w := negated t.text x
    if w.isFinite then some w else none
  | function t a => do
    let f ← Registry.find? (Text.unsigned t.text)
    let v ← a.value? x
    let w := negated t.text (f.apply v)
    if w.isFinite then some w else none
  | operator t l r => do
    let o ← Operator.ofText? t.text
    let v ← l.value? x
    let u ← r.value? x
    let w ← combine? o v u
    if w.isFinite then some w else none

/-! ## The value in the words of the machine -/

theorem value?_number (x : Float) (t : Token) :
    (number t).value? x = (Action.number? t.text).bind finite? := by
  rw [Action.number?, Option.bind_map]
  rfl

theorem value?_var (x : Float) (t : Token) :
    (var t).value? x = finite? (signed (Text.isNegative t.text) x) := rfl

theorem value?_function (x : Float) (t : Token) (a : Tree) :
    (function t a).value? x = (Registry.find? (Text.unsigned t.text)).bind fun f =>
      (a.value? x).bind fun v => finite? (signed (Text.isNegative t.text) (f.apply v)) := rfl

theorem combine?_bind (o : Operator) (v u : Float) :
    (combine? o v u).bind finite? = o.value? v u := by
  cases o with
  | plus | minus | times | power => rfl
  | divide =>
    show (if u == 0 then none else some (v / u)).bind finite? =
      if u == 0 then none else finite? (v / u)
    split <;> rfl

theorem value?_operator (x : Float) (t : Token) (l r : Tree) :
    (operator t l r).value? x = (Operator.ofText? t.text).bind fun o =>
      (l.value? x).bind fun v => (r.value? x).bind fun u => o.value? v u := by
  simp only [← combine?_bind]
  rfl

/-! ## A listing is read in one way -/

/-- The trees that a listing leaves on a stack of trees. -/
def rebuild : List Token → List Tree → List Tree
  | [], s => s
  | t :: ts, s =>
    match t.kind, s with
    | .number, s => rebuild ts (number t :: s)
    | .var, s => rebuild ts (var t :: s)
    | .function, a :: s => rebuild ts (function t a :: s)
    | .operator, r :: l :: s => rebuild ts (operator t l r :: s)
    | _, s => s

theorem rebuild_postorder {T : Tree} (h : T.Typed) (ts : List Token) (s : List Tree) :
    rebuild (T.postorder ++ ts) s = rebuild ts (T :: s) := by
  induction T generalizing ts s with
  | number t =>
    rw [Typed] at h
    simp only [postorder, List.cons_append, List.nil_append, rebuild, h]
  | var t =>
    rw [Typed] at h
    simp only [postorder, List.cons_append, List.nil_append, rebuild, h]
  | function t a ih =>
    obtain ⟨hk, ha⟩ := h
    rw [postorder, List.append_assoc, ih ha]
    simp only [List.cons_append, List.nil_append, rebuild, hk]
  | operator t l r ihl ihr =>
    obtain ⟨hk, hl, hr⟩ := h
    rw [postorder, List.append_assoc, List.append_assoc, ihl hl, ihr hr]
    simp only [List.cons_append, List.nil_append, rebuild, hk]

theorem postorder_injective {S T : Tree} (hS : S.Typed) (hT : T.Typed)
    (h : S.postorder = T.postorder) : S = T := by
  have hs := rebuild_postorder hS [] []
  have ht := rebuild_postorder hT [] []
  rw [List.append_nil] at hs ht
  rw [h, ht] at hs
  exact (List.cons.inj hs).1.symm

/-! ## A value is finite -/

theorem isFinite_of_finite? {v w : Float} (h : finite? v = some w) : w.isFinite := by
  unfold finite? at h
  split at h
  · next hv => cases h; exact hv
  · cases h

theorem isFinite_of_value? {x w : Float} {T : Tree} (h : T.value? x = some w) : w.isFinite := by
  cases T with
  | number t =>
    obtain ⟨v, -, hv⟩ := Option.bind_eq_some_iff.mp h
    exact isFinite_of_finite? hv
  | var t => exact isFinite_of_finite? h
  | function t a =>
    obtain ⟨f, -, hf⟩ := Option.bind_eq_some_iff.mp h
    obtain ⟨v, -, hv⟩ := Option.bind_eq_some_iff.mp hf
    exact isFinite_of_finite? hv
  | operator t l r =>
    obtain ⟨o, -, ho⟩ := Option.bind_eq_some_iff.mp h
    obtain ⟨v, -, hv⟩ := Option.bind_eq_some_iff.mp ho
    obtain ⟨u, -, hu⟩ := Option.bind_eq_some_iff.mp hv
    obtain ⟨w', -, hw⟩ := Option.bind_eq_some_iff.mp hu
    exact isFinite_of_finite? hw

/-! ## The run over a listing -/

/-- The tokens `ts` replace the values `vs` on top of any stack by `v`; where there is no `v` they
end the run, as a token is undefined. -/
def Leaves (x : Float) (ts : List Token) (vs : List Float) : Option Float → Prop
  | some v => ∀ s, Program.exec x (Program.ofTokens ts) (vs ++ s) = .ok (v :: s)
  | none =>
    ∀ s, ∃ t byZero, Program.exec x (Program.ofTokens ts) (vs ++ s) = .error (.undefined t byZero)

theorem exec_ofTokens_append (x : Float) (ts us : List Token) (s : List Float) :
    Program.exec x (Program.ofTokens (ts ++ us)) s =
      (Program.exec x (Program.ofTokens ts) s).bind (Program.exec x (Program.ofTokens us)) := by
  rw [← Program.exec_append, Program.ofTokens, List.map_append]
  rfl

theorem exec_ofTokens_singleton (x : Float) (t : Token) (s : List Float) :
    Program.exec x (Program.ofTokens [t]) s = Program.step x ⟨t, Action.ofToken t⟩ s := by
  simp only [Program.ofTokens, List.map_cons, List.map_nil, Program.exec]
  cases Program.step x ⟨t, Action.ofToken t⟩ s <;> rfl

theorem Leaves.of_step {x : Float} {t : Token} {vs : List Float} {v : Option Float} {byZero : Bool}
    (h : ∀ s, Program.step x ⟨t, Action.ofToken t⟩ (vs ++ s) = Program.push t byZero v s) :
    Leaves x [t] vs v := by
  cases v with
  | some v => intro s; rw [exec_ofTokens_singleton, h]; rfl
  | none => intro s; exact ⟨t, byZero, by rw [exec_ofTokens_singleton, h]; rfl⟩

/-- What ends the run over the first tokens ends the run over all of them; else the others find
the value of the first on top. -/
theorem Leaves.append {x : Float} {ts us : List Token} {vs : List Float} {v : Option Float}
    {g : Float → Option Float} (ht : Leaves x ts [] v)
    (hu : ∀ w, Leaves x us (w :: vs) (g w)) : Leaves x (ts ++ us) vs (v.bind g) := by
  cases v with
  | none =>
    intro s
    obtain ⟨t, z, h⟩ := ht (vs ++ s)
    exact ⟨t, z, by rw [exec_ofTokens_append, ← List.nil_append (vs ++ s), h]; rfl⟩
  | some w =>
    have first (s) : Program.exec x (Program.ofTokens ts) (vs ++ s) = .ok (w :: (vs ++ s)) :=
      ht (vs ++ s)
    have rest := hu w
    rw [Option.bind_some]
    cases hg : g w with
    | some u =>
      rw [hg] at rest
      intro s
      rw [exec_ofTokens_append, first]
      exact rest s
    | none =>
      rw [hg] at rest
      intro s
      obtain ⟨t, z, h⟩ := rest s
      exact ⟨t, z, by rw [exec_ofTokens_append, first]; exact h⟩

theorem leaves_number {x v : Float} {t : Token} (hk : t.kind = .number)
    (hv : Action.number? t.text = some v) : Leaves x [t] [] (finite? v) := by
  have ha : Action.ofToken t = .constant (.ok v) := by simp only [Action.ofToken, hk, hv]
  exact Leaves.of_step fun s => by rw [ha]; rfl

theorem leaves_var {x : Float} {t : Token} (hk : t.kind = .var) :
    Leaves x [t] [] (finite? (signed (Text.isNegative t.text) x)) := by
  have ha : Action.ofToken t = .var (Text.isNegative t.text) := by simp only [Action.ofToken, hk]
  exact Leaves.of_step fun s => by rw [ha]; rfl

theorem leaves_function {x v : Float} {t : Token} {f : UnaryFunction} (hk : t.kind = .function)
    (hf : Registry.find? (Text.unsigned t.text) = some f) :
    Leaves x [t] [v] (finite? (signed (Text.isNegative t.text) (f.apply v))) := by
  have ha : Action.ofToken t = .function (Text.isNegative t.text) (.ok f) := by
    simp only [Action.ofToken, hk, hf]
  exact Leaves.of_step fun s => by rw [ha]; rfl

theorem leaves_operator {x l r : Float} {t : Token} {o : Operator} (hk : t.kind = .operator)
    (ho : Operator.ofText? t.text = some o) : Leaves x [t] [r, l] (o.value? l r) := by
  have ha : Action.ofToken t = .operator (.ok o) := by simp only [Action.ofToken, hk, ho]
  exact Leaves.of_step fun s => by rw [ha]; rfl

/-- The induction is on the tree: each node finds the values of its parts on top of the stack. -/
theorem leaves_postorder {x : Float} {T : Tree} (hT : T.Typed)
    (known : ∀ t ∈ T.postorder, t.Known) : Leaves x T.postorder [] (T.value? x) := by
  induction T with
  | number t =>
    have hk : t.kind = .number := hT
    have ht := known t List.mem_cons_self
    rw [Token.Known, hk] at ht
    obtain ⟨v, hv⟩ := Option.isSome_iff_exists.mp ht
    rw [value?_number, hv]
    exact leaves_number hk hv
  | var t => exact leaves_var hT
  | function t a ih =>
    obtain ⟨hk, ha⟩ := hT
    have ht := known t (List.mem_append_right _ List.mem_cons_self)
    rw [Token.Known, hk] at ht
    obtain ⟨f, hf⟩ := Option.isSome_iff_exists.mp ht
    rw [value?_function, hf]
    exact (ih ha fun u hu => known u (List.mem_append_left _ hu)).append fun v =>
      leaves_function hk hf
  | operator t l r ihl ihr =>
    obtain ⟨hk, hl, hr⟩ := hT
    have ht := known t (List.mem_append_right _ List.mem_cons_self)
    rw [Token.Known, hk] at ht
    obtain ⟨o, ho⟩ := Option.isSome_iff_exists.mp ht
    rw [value?_operator, ho, postorder, List.append_assoc]
    refine (ihl hl fun u hu => ?_).append fun v => (ihr hr fun u hu => ?_).append fun w =>
      leaves_operator hk ho
    · exact known u (List.mem_append_left _ (List.mem_append_left _ hu))
    · exact known u (List.mem_append_left _ (List.mem_append_right _ hu))

theorem value_postorder {x : Float} {T : Tree} (hT : T.Typed)
    (known : ∀ t ∈ T.postorder, t.Known) :
    (Program.ofTokens T.postorder).value x = .ok (T.value? x) := by
  have h := leaves_postorder (x := x) hT known
  cases hv : T.value? x with
  | some v =>
    rw [hv] at h
    have hs : Program.exec x (Program.ofTokens T.postorder) [] = .ok [v] := h []
    rw [Program.value, Program.run, hs]
  | none =>
    rw [hv] at h
    obtain ⟨t, z, hs⟩ := h []
    rw [List.nil_append] at hs
    rw [Program.value, Program.run, hs]

end Tree

end FunctionCalculator
