import FunctionCalculator.Proofs.Meaning

/-!
# Tokens wherever they stand

Positions are for error messages only: neither the grouping of tokens nor the value of their tree
looks at them. The same goes for other changes of tokens that keep what is looked at.

What is proved:
  1. `Writes.map`, `Writes.value?_map`, `Expression.unknownFunction?_map`: an inert change of the
     tokens keeps the grouping, the value and the check of the names.
  2. `Expression.exists_alike`: texts whose tokens are the same but for such a change become the
     same expression but for it.
  3. `Expression.exists_phrase`, `Expression.exists_of_phrase`: the value of an expression is that
     of the tree which the lexemes of its phrase write, wherever they stand in the text.
-/

namespace FunctionCalculator

namespace Token

/-- A token wherever it stands. -/
def bare (t : Token) : Token := { t with position := 0 }

/-- The token of a text wherever it stands. -/
def ofText (u : List Char) : Token := ofLexeme ⟨u, 0⟩

theorem map_bare {ls : List Lexeme} {us : List (List Char)} (h : ls.map Lexeme.text = us) :
    (ls.map ofLexeme).map bare = us.map ofText := by
  rw [← h, List.map_map, List.map_map]
  rfl

/-- A change of tokens that keeps all that an expression looks at: the kinds, the operators, the
parity of the signs and what is behind them. -/
structure Inert (f : Token → Token) : Prop where
  kind : ∀ t, (f t).kind = t.kind
  symbol : ∀ t o, Operator.ofText? t.text = some o → Operator.ofText? (f t).text = some o
  negative : ∀ t, Text.isNegative (f t).text = Text.isNegative t.text
  unsigned : ∀ t, Text.unsigned (f t).text = Text.unsigned t.text

theorem inert_bare : Inert bare :=
  ⟨fun _ => rfl, fun _ _ symbol => symbol, fun _ => rfl, fun _ => rfl⟩

theorem Inert.number? {f : Token → Token} (hf : Inert f) (t : Token) :
    Action.number? (f t).text = Action.number? t.text := by
  rw [Action.number?, Action.number?, hf.unsigned, hf.negative]

end Token

namespace Tree

def map (f : Token → Token) : Tree → Tree
  | number t => number (f t)
  | var t => var (f t)
  | function t a => function (f t) (a.map f)
  | operator t l r => operator (f t) (l.map f) (r.map f)

theorem postorder_map (f : Token → Token) (T : Tree) :
    (T.map f).postorder = T.postorder.map f := by
  induction T with
  | number | var => rfl
  | function t a ih => simp only [map, postorder, ih, List.map_append, List.map_cons, List.map_nil]
  | operator t l r ihl ihr =>
    simp only [map, postorder, ihl, ihr, List.map_append, List.map_cons, List.map_nil]

theorem value?_map {f : Token → Token} (hf : ∀ t, (f t).text = t.text) (x : Float) (T : Tree) :
    (T.map f).value? x = T.value? x := by
  induction T with
  | number | var => simp only [map, value?, hf]
  | function t a ih => simp only [map, value?, hf, ih]
  | operator t l r ihl ihr => simp only [map, value?, hf, ihl, ihr]

variable {S T : Tree}

theorem postorder_of_bare (h : S.map Token.bare = T.map Token.bare) :
    S.postorder.map Token.bare = T.postorder.map Token.bare := by
  rw [← postorder_map, h, postorder_map]

theorem value?_of_bare (h : S.map Token.bare = T.map Token.bare) (x : Float) :
    S.value? x = T.value? x := by
  rw [← value?_map (f := Token.bare) (fun _ => rfl) x S, h,
    value?_map (f := Token.bare) fun _ => rfl]

end Tree

namespace Writes

variable {p : Nat} {ts : List Token} {T : Tree} {f : Token → Token}

theorem map (hf : Token.Inert f) (h : Writes p ts T) : Writes p (ts.map f) (T.map f) := by
  induction h with
  | number hk => exact .number ((hf.kind _).trans hk)
  | var hk => exact .var ((hf.kind _).trans hk)
  | call hk ho hc _ ih =>
    rw [List.map_cons, List.map_cons, List.map_append]
    exact .call ((hf.kind _).trans hk) ((hf.kind _).trans ho) ((hf.kind _).trans hc) ih
  | group ho hc _ ih =>
    rw [List.map_cons, List.map_append]
    exact .group ((hf.kind _).trans ho) ((hf.kind _).trans hc) ih
  | operator hk ho hp _ _ ihl ihr =>
    rw [List.map_append, List.map_cons]
    exact .operator ((hf.kind _).trans hk) (hf.symbol _ _ ho) hp ihl ihr

theorem value?_map (hf : Token.Inert f) (h : Writes p ts T) (x : Float) :
    (T.map f).value? x = T.value? x := by
  induction h with
  | number => simp only [Tree.map, Tree.value?_number, hf.number?]
  | var => simp only [Tree.map, Tree.value?_var, hf.negative]
  | call _ _ _ _ ih => simp only [Tree.map, Tree.value?_function, hf.unsigned, hf.negative, ih]
  | group _ _ _ ih => exact ih
  | operator _ symbol _ _ _ ihl ihr =>
    simp only [Tree.map, Tree.value?_operator, hf.symbol _ _ symbol, symbol, ihl, ihr]

theorem bare (h : Writes p ts T) : Writes p (ts.map Token.bare) (T.map Token.bare) :=
  h.map Token.inert_bare

end Writes

namespace Expression

open Lexeme (Reading)

theorem unknownFunction?_map {f : Token → Token} (hf : Token.Inert f) (ts : List Token) :
    unknownFunction? (ts.map f) = none ↔ unknownFunction? ts = none := by
  have test : (fun t : Token =>
      t.kind == .function && !Registry.isKnown (Text.unsigned t.text)) ∘ f =
      fun t => t.kind == .function && !Registry.isKnown (Text.unsigned t.text) := by
    funext t
    rw [Function.comp_apply, hf.kind, hf.unsigned]
  rw [unknownFunction?, unknownFunction?, List.find?_map, test]
  simp only [Option.map_eq_none_iff]

/-- A text whose tokens are those of an expression, but for an inert change, becomes the same
expression but for that change. -/
theorem exists_alike {f : Token → Token} (hf : Token.Inert f) {s u : List Char} {e : Expression}
    {r r' : Reading} (h : ofChars s = .ok e) (hr : Reading.ofChars s = .ok r)
    (hr' : Reading.ofChars u = .ok r')
    (tokens : (r'.lexemes.map Token.ofLexeme).map f = (r.lexemes.map Token.ofLexeme).map f)
    (mark : r'.dependsOnX = r.dependsOnX) :
    ∃ e', ofChars u = .ok e' ∧ e'.dependsOnX = e.dependsOnX ∧
      e'.postorder.map f = e.postorder.map f ∧
      ∀ x, e'.value x = e.value x ∧ e'.value? x = e.value? x := by
  obtain ⟨r₁, -, T, hr₁, -, -, hT, listing, value⟩ := exists_tree h
  obtain rfl := Except.ok.inj (hr.symm.trans hr₁)
  have passed : unknownFunction? (r.lexemes.map Token.ofLexeme) = none := by
    rw [ofChars, hr] at h
    exact (ofReading_eq_ok h).1
  have passed' : unknownFunction? (r'.lexemes.map Token.ofLexeme) = none := by
    rwa [← unknownFunction?_map hf, tokens, unknownFunction?_map hf]
  obtain ⟨e', he'⟩ := exists_ofReading_iff.mpr passed'
  have h' : ofChars u = .ok e' := by
    rw [ofChars, hr']
    exact he'
  obtain ⟨r₂, -, T', hr₂, -, -, hT', listing', value'⟩ := exists_tree h'
  obtain rfl := Except.ok.inj (hr'.symm.trans hr₂)
  have same : T'.map f = T.map f := (tokens ▸ hT'.map hf).unique (hT.map hf)
  have values (x : Float) : e'.value x = e.value x := by
    rw [value, value', ← hT'.value?_map hf, same, hT.value?_map hf]
  refine ⟨e', h', ?_, ?_, fun x => ⟨values x, ?_⟩⟩
  · rw [(fields_of_reading h' hr').1, (fields_of_reading h hr).1, mark]
  · rw [listing', listing, ← Tree.postorder_map, same, Tree.postorder_map]
  · rw [value?, value?, values]

/-- The phrase behind an expression and the tree that its lexemes write. -/
theorem exists_phrase {s : List Char} {e : Expression} (h : ofChars s = .ok e) :
    ∃ (φ : Phrase .expression) (T : Tree), φ.text = Text.shown s ∧
      (∀ f ∈ φ.names, Registry.isKnown f.letters = true) ∧
      Writes 0 ((φ.lexemes 0).map Token.ofText) T ∧ ∀ x, e.value x = .ok (T.value? x) := by
  obtain ⟨r, φ, T, -, text, texts, hT, -, value⟩ := exists_tree h
  have bare := hT.bare
  rw [Token.map_bare texts] at bare
  refine ⟨φ, _, text, (exists_ofChars_iff text).mp ⟨e, h⟩, bare, fun x => ?_⟩
  rw [value, Tree.value?_map (f := Token.bare) fun _ => rfl]

theorem exists_of_phrase {s : List Char} {φ : Phrase .expression} {T : Tree}
    (text : φ.text = Text.shown s) (known : ∀ f ∈ φ.names, Registry.isKnown f.letters = true)
    (hT : Writes 0 ((φ.lexemes 0).map Token.ofText) T) :
    ∃ e, ofChars s = .ok e ∧ ∀ x, e.value x = .ok (T.value? x) := by
  obtain ⟨e, r, S, he, texts, hS, -, value⟩ := exists_tree_of_phrase text known
  have bare := hS.bare
  rw [Token.map_bare texts] at bare
  refine ⟨e, he, fun x => ?_⟩
  rw [value, ← bare.unique hT, Tree.value?_map (f := Token.bare) fun _ => rfl]

end Expression

end FunctionCalculator
