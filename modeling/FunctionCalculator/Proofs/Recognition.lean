import FunctionCalculator.Proofs.Phrase
import FunctionCalculator.Proofs.View

/-!
# The automaton recognizes the phrases

What is proved:
  1. `read_text`: the text of a phrase is read, and as the lexemes of the phrase.
  2. `exists_phrase`: a text that is read is the text of a phrase. The invariant of the run is
     `Viable`: what was read is a list of open brackets, each with the part of an expression in
     front of it, and behind the last of them the beginning of an expression.
-/

namespace FunctionCalculator.Lexeme

namespace View

variable {s : State} {b : List Char} {d n : Nat} {x : Bool} {ts : List (List Char)}

theorem run_append (v : View) (cs ds : List Char) :
    v.run (cs ++ ds) = (v.run cs).bind fun w => w.run ds := List.foldlM_append

theorem Step.run {v w : View} {c : Char} (h : Step v c w) (cs : List Char) :
    v.run (c :: cs) = w.run cs := by
  rw [View.run, List.foldlM_cons, h.advance_eq]
  rfl

/-- What holds of a view and the text read so far, if no step breaks it. -/
theorem run_invariant {P : View → List Char → Prop}
    (step : ∀ {v w : View} {c : Char} {u : List Char}, P v u → Step v c w → P w (u ++ [c]))
    {v w : View} {cs u : List Char} (h : P v u) (hr : v.run cs = some w) : P w (u ++ cs) := by
  induction cs generalizing v u with
  | nil =>
    cases hr
    rwa [List.append_nil]
  | cons c cs ih =>
    rw [View.run, List.foldlM_cons] at hr
    obtain ⟨v', first, rest⟩ := Option.bind_eq_some_iff.mp hr
    have := ih (step h (advance_eq_some_iff.mp first)) rest
    rwa [List.append_assoc] at this

/-! ## Phrases are read -/

theorem run_loop {cs : List Char}
    (h : ∀ c ∈ cs, ∀ b, Step ⟨s, b, d, x, ts⟩ c ⟨s, b ++ [c], d, x, ts⟩) (b : List Char) :
    run ⟨s, b, d, x, ts⟩ cs = some ⟨s, b ++ cs, d, x, ts⟩ := by
  induction cs generalizing b with
  | nil =>
    rw [List.append_nil]
    rfl
  | cons c cs ih =>
    rw [(h c List.mem_cons_self b).run, ih fun e he => h e (List.mem_cons_of_mem c he)]
    rw [List.append_assoc, List.singleton_append]

theorem run_minuses (m n : Nat) :
    run ⟨.start, minuses m, d, x, ts⟩ (minuses n) = some ⟨.start, minuses (m + n), d, x, ts⟩ := by
  rw [← minuses_append]
  refine run_loop (fun c hc b => ?_) _
  obtain rfl := List.eq_of_mem_replicate hc
  exact .sign

theorem run_numeral (k : Numeral) (b : List Char) (d : Nat) (x : Bool) (ts : List (List Char)) :
    ∃ s, s.InNumber ∧ run ⟨.start, b, d, x, ts⟩ k.text = some ⟨s, b ++ k.point, d, x, ts⟩ := by
  have whole : run ⟨.start, b, d, x, ts⟩ (k.first :: k.digits) =
      some ⟨.integer, b ++ k.first :: k.digits, d, x, ts⟩ := by
    rw [(Step.firstDigit k.first_ok).run,
      run_loop (fun c hc b => .nextDigit (.inl rfl) (k.digits_ok c hc)), List.append_assoc,
      List.singleton_append]
  rw [Numeral.text, Numeral.point, run_append, whole, Option.bind_some]
  cases k.fraction with
  | none =>
    refine ⟨.integer, .inl rfl, ?_⟩
    rw [Option.map_none, Option.map_none, Option.getD_none, List.append_nil]
    rfl
  | some f =>
    refine ⟨.decimal, .inr rfl, ?_⟩
    rw [Option.map_some, Option.map_some, Option.getD_some, Fraction.text,
      (Step.point f.separator_ok).run,
      run_loop (fun c hc b => .nextDigit (.inr rfl) (f.digits_ok c hc))]
    simp only [Fraction.point, Option.getD_some, List.append_assoc, List.cons_append,
      List.nil_append]

theorem run_letters (f : FunctionName) (b : List Char) :
    run ⟨.start, b, d, x, ts⟩ f.letters = some ⟨.name, b ++ f.letters, d, x, ts⟩ := by
  rw [FunctionName.letters, (Step.firstLetter f.first_ok f.first_ne).run,
    run_loop (fun c hc b => .nextLetter (f.rest_ok c hc)), List.append_assoc,
    List.singleton_append]

theorem pending_append_cons (b : List Char) (c : Char) (cs : List Char) :
    pending (b ++ c :: cs) = [b ++ c :: cs] :=
  if_neg (by simp)

/-- Behind an operand that may end here. -/
def Ended (s : State) (b : List Char) : Prop := s.InNumber ∨ s.Closed ∧ b = []

theorem Ended.close (h : Ended s b) :
    Step ⟨s, b, d + 1, x, ts⟩ ')' ⟨.afterBracket, [], d, x, ts ++ pending b ++ [[')']]⟩ := by
  rcases h with number | ⟨closed, rfl⟩
  · exact .closeNumber number
  · rw [show pending [] = [] from rfl, List.append_nil]
    exact .closeAgain closed

theorem Ended.operator (h : Ended s b) (o : Operator) :
    Step ⟨s, b, d, x, ts⟩ o.symbol ⟨.start, [], d, x, ts ++ pending b ++ [[o.symbol]]⟩ :=
  .operator (h.imp id And.left) o

/-- From any point where an operand is due and `b` signs wait for it, the run over a phrase adds
its lexemes; the last of them may still be in the buffer. -/
def Reads {c : Category} (φ : Phrase c) (b : Nat) : Prop :=
  ∀ d x ts, ∃ s buffer us, Ended s buffer ∧ us ++ pending buffer = ts ++ φ.lexemes b ∧
    run ⟨.start, minuses b, d, x, ts⟩ φ.text = some ⟨s, buffer, d, x || φ.dependsOnX, us⟩

theorem Reads.bracket {a : Phrase .expression} {b : Nat} (h : Reads a b) (d : Nat) (x : Bool)
    (ts : List (List Char)) :
    run ⟨.start, minuses b, d + 1, x, ts⟩ (a.text ++ [')']) =
      some ⟨.afterBracket, [], d, x || a.dependsOnX, ts ++ (a.lexemes b ++ [[')']])⟩ := by
  obtain ⟨s, buffer, us, ended, texts, reached⟩ := h (d + 1) x ts
  rw [run_append, reached, Option.bind_some, ended.close.run, texts, List.append_assoc]
  rfl

/-- The induction is on the phrase, for any number of signs that wait: a bracket takes them inward
together with its own, a name takes them away. -/
theorem reads {c : Category} (φ : Phrase c) (b : Nat) : Reads φ b := by
  induction φ generalizing b with
  | number n k =>
    intro d x ts
    obtain ⟨s, number, reached⟩ := run_numeral k (minuses (b + n)) d x ts
    refine ⟨s, minuses (b + n) ++ k.point, ts, .inl number, ?_, ?_⟩
    · rw [Numeral.point, List.cons_append, pending_append_cons]
      rfl
    · rw [Phrase.text, run_append, run_minuses, Option.bind_some, reached, Phrase.dependsOnX,
        Bool.or_false]
  | var n =>
    intro d x ts
    refine ⟨.afterVariable, [], _, .inr ⟨.inr rfl, rfl⟩, List.append_nil _, ?_⟩
    rw [Phrase.text, run_append, run_minuses, Option.bind_some, Step.var.run, pending_append_cons,
      Phrase.dependsOnX, Bool.or_true]
    rfl
  | call n f a ih =>
    intro d x ts
    refine ⟨.afterBracket, [], _, .inr ⟨.inl rfl, rfl⟩, List.append_nil _, ?_⟩
    -- the name has taken the signs, so none waits inside the bracket
    have inner := (ih 0).bracket d x (ts ++ pending (minuses (b + n) ++ f.letters) ++ [['(']])
    rw [minuses_zero] at inner
    rw [Phrase.text, run_append, run_append, run_minuses, Option.bind_some, run_letters,
      Option.bind_some, Step.call.run, inner, FunctionName.letters, pending_append_cons]
    simp only [Phrase.lexemes, Phrase.dependsOnX, FunctionName.letters, List.append_assoc,
      List.cons_append, List.nil_append]
  | group n a ih =>
    intro d x ts
    refine ⟨.afterBracket, [], _, .inr ⟨.inl rfl, rfl⟩, List.append_nil _, ?_⟩
    rw [Phrase.text, run_append, run_minuses, Option.bind_some, Step.group.run,
      (ih (b + n)).bracket, List.append_assoc]
    rfl
  | single t ih => exact ih b
  | chain e o t ihe iht =>
    intro d x ts
    obtain ⟨s, buffer, us, ended, texts, reached⟩ := ihe b d x ts
    obtain ⟨s', buffer', us', ended', texts', reached'⟩ :=
      iht 0 d (x || e.dependsOnX) (ts ++ e.lexemes b ++ [[o.symbol]])
    refine ⟨s', buffer', us', ended', ?_, ?_⟩
    · rw [texts', Phrase.lexemes]
      simp only [List.append_assoc, List.singleton_append]
    · rw [Phrase.text, run_append, reached, Option.bind_some, (ended.operator o).run, texts,
        Phrase.dependsOnX, ← Bool.or_assoc]
      exact reached'

theorem Ended.finish (h : Ended s b) : finish ⟨s, b, 0, x, ts⟩ = some (ts ++ pending b, x) := by
  rcases h with (rfl | rfl) | ⟨rfl | rfl, -⟩ <;>
    exact if_pos ⟨rfl, State.noConfusion, State.noConfusion⟩

/-- The text of an expression is read as its lexemes. -/
theorem read_text (φ : Phrase .expression) : read φ.text = some (φ.lexemes 0, φ.dependsOnX) := by
  obtain ⟨s, buffer, us, ended, texts, reached⟩ := reads φ 0 0 false []
  have reached : run {} φ.text = some ⟨s, buffer, 0, false || φ.dependsOnX, us⟩ := reached
  rw [read, reached, Option.bind_some, ended.finish, texts, Bool.false_or, List.nil_append]

/-- The sign in front of the bracket ends on the number inside. -/
example : read ['-', '(', '3', ')'] = some ([['('], ['-', '3'], [')']], false) := by decide

end View

/-! ## What is read is a phrase -/

/-- What stands in front of a term: nothing, or an expression with an operator. -/
inductive Lead where
  | first
  | behind (e : Phrase .expression) (o : Operator)

namespace Lead

def text : Lead → List Char
  | first => []
  | behind e o => e.text ++ [o.symbol]

/-- The expression that a term completes. -/
def attach : Lead → Phrase .term → Phrase .expression
  | first, t => .single t
  | behind e o, t => .chain e o t

theorem text_attach (l : Lead) (t : Phrase .term) : (l.attach t).text = l.text ++ t.text := by
  cases l with
  | first => rfl
  | behind e o =>
    rw [attach, Phrase.text, text, List.append_assoc]
    rfl

end Lead

/-- An open bracket with what stands in front of it, up to the bracket before. -/
structure Frame where
  lead : Lead
  signs : Nat
  name : Option FunctionName

namespace Frame

def text (f : Frame) : List Char :=
  f.lead.text ++ minuses f.signs ++ (f.name.map FunctionName.letters).getD [] ++ ['(']

/-- The term that a closing bracket makes of a frame. -/
def term (f : Frame) (a : Phrase .expression) : Phrase .term :=
  match f.name with
  | none => .group f.signs a
  | some n => .call f.signs n a

theorem text_term (f : Frame) (a : Phrase .expression) :
    (f.lead.attach (f.term a)).text = f.text ++ a.text ++ [')'] := by
  obtain ⟨l, n, name⟩ := f
  cases name <;>
    simp [Lead.text_attach, term, text, Phrase.text]

/-- The text of the open brackets, the innermost first. -/
def texts : List Frame → List Char
  | [] => []
  | f :: fs => texts fs ++ f.text

end Frame

/-- The beginning of an expression, up to a place where the automaton is in the given state. -/
inductive Begun : State → List Char → Prop
  | start (l : Lead) (n : Nat) : Begun .start (l.text ++ minuses n)
  | integer (l : Lead) (n : Nat) {c : Char} {ds : List Char} (hc : c.isDigit = true)
      (hd : ∀ e ∈ ds, e.isDigit = true) : Begun .integer (l.text ++ minuses n ++ c :: ds)
  | decimal (l : Lead) (n : Nat) {c : Char} {ds : List Char} (f : Fraction)
      (hc : c.isDigit = true) (hd : ∀ e ∈ ds, e.isDigit = true) :
      Begun .decimal (l.text ++ minuses n ++ c :: (ds ++ f.text))
  | name (l : Lead) (n : Nat) (f : FunctionName) :
      Begun .name (l.text ++ minuses n ++ f.letters)
  | bracket (e : Phrase .expression) : Begun .afterBracket e.text
  | var (e : Phrase .expression) : Begun .afterVariable e.text

theorem Begun.exists_phrase {s : State} {u : List Char} (h : Begun s u)
    (hs : s.InNumber ∨ s.Closed) : ∃ e : Phrase .expression, e.text = u := by
  cases h with
  | start => rcases hs with (hs | hs) | (hs | hs) <;> cases hs
  | integer l n hc hd =>
    refine ⟨l.attach (.number n ⟨_, _, none, hc, hd⟩), ?_⟩
    rw [Lead.text_attach, Phrase.text, Numeral.text, ← List.append_assoc, Option.map_none,
      Option.getD_none, List.append_nil]
  | decimal l n f hc hd =>
    refine ⟨l.attach (.number n ⟨_, _, some f, hc, hd⟩), ?_⟩
    rw [Lead.text_attach, Phrase.text, Numeral.text, ← List.append_assoc]
    rfl
  | name => rcases hs with (hs | hs) | (hs | hs) <;> cases hs
  | bracket e => exact ⟨e, rfl⟩
  | var e => exact ⟨e, rfl⟩

/-- What may have been read when the automaton is in the given state with so many brackets open. -/
def Viable (v : View) (u : List Char) : Prop :=
  ∃ fs w, fs.length = v.depth ∧ Begun v.state w ∧ u = Frame.texts fs ++ w

theorem Viable.step {v w : View} {c : Char} {u : List Char} (h : Viable v u)
    (step : View.Step v c w) : Viable w (u ++ [c]) := by
  obtain ⟨fs, t, depth, begun, rfl⟩ := h
  rw [List.append_assoc]
  -- a closing bracket ends the expression behind the innermost open one, and takes the frame
  -- of that bracket away
  have close {s b d x ts b' ts'} (hs : s.InNumber ∨ s.Closed)
      (depth : fs.length = (⟨s, b, d + 1, x, ts⟩ : View).depth) (begun : Begun s t) :
      Viable ⟨.afterBracket, b', d, x, ts'⟩ (Frame.texts fs ++ (t ++ [')'])) := by
    obtain ⟨e, rfl⟩ := begun.exists_phrase hs
    obtain - | ⟨f, fs⟩ := fs
    · cases depth
    · refine ⟨fs, _, Nat.succ.inj depth, .bracket (f.lead.attach (f.term e)), ?_⟩
      simp only [Frame.text_term, Frame.texts, List.append_assoc]
  cases step with
  | sign =>
    obtain ⟨l, n⟩ := begun
    refine ⟨fs, _, depth, .start l (n + 1), ?_⟩
    rw [← minuses_append_singleton, List.append_assoc]
  | firstDigit hc =>
    obtain ⟨l, n⟩ := begun
    exact ⟨fs, _, depth, .integer l n hc (List.forall_mem_nil _), rfl⟩
  | firstLetter hc hx =>
    obtain ⟨l, n⟩ := begun
    exact ⟨fs, _, depth, .name l n ⟨_, [], hc, hx, List.forall_mem_nil _⟩, rfl⟩
  | var =>
    obtain ⟨l, n⟩ := begun
    refine ⟨fs, _, depth, .var (l.attach (.var n)), ?_⟩
    rw [Lead.text_attach, Phrase.text, List.append_assoc]
  | group =>
    obtain ⟨l, n⟩ := begun
    refine ⟨⟨l, n, none⟩ :: fs, _, congrArg (· + 1) depth, .start .first 0, ?_⟩
    simp [Frame.texts, Frame.text, Lead.text, minuses_zero]
  | nextDigit hs hc =>
    rcases hs with rfl | rfl
    · obtain - | ⟨l, n, h, hd⟩ := begun
      have digits := List.forall_mem_append.mpr ⟨hd, List.forall_mem_singleton.mpr hc⟩
      refine ⟨fs, _, depth, .integer l n h digits, ?_⟩
      rw [List.append_assoc, List.cons_append]
    · obtain - | - | ⟨l, n, f, h, hd⟩ := begun
      have digits := List.forall_mem_append.mpr ⟨f.digits_ok, List.forall_mem_singleton.mpr hc⟩
      refine ⟨fs, _, depth, .decimal l n ⟨f.separator, _, f.separator_ok, digits⟩ h hd, ?_⟩
      simp [Fraction.text]
  | point hc =>
    obtain - | ⟨l, n, h, hd⟩ := begun
    refine ⟨fs, _, depth, .decimal l n ⟨_, [], hc, List.forall_mem_nil _⟩ h hd, ?_⟩
    rw [List.append_assoc]
    rfl
  | nextLetter hc =>
    obtain - | - | - | ⟨l, n, f⟩ := begun
    have letters := List.forall_mem_append.mpr ⟨f.rest_ok, List.forall_mem_singleton.mpr hc⟩
    refine ⟨fs, _, depth, .name l n ⟨f.first, _, f.first_ok, f.first_ne, letters⟩, ?_⟩
    simp [FunctionName.letters]
  | call =>
    obtain - | - | - | ⟨l, n, f⟩ := begun
    refine ⟨⟨l, n, some f⟩ :: fs, _, congrArg (· + 1) depth, .start .first 0, ?_⟩
    simp [Frame.texts, Frame.text, Lead.text, minuses_zero]
  | closeNumber hs => exact close (.inl hs) depth begun
  | closeAgain hs => exact close (.inr hs) depth begun
  | operator hs o =>
    obtain ⟨e, rfl⟩ := begun.exists_phrase hs
    refine ⟨fs, _, depth, .start (.behind e o) 0, ?_⟩
    rw [minuses_zero, List.append_nil]
    rfl

theorem Viable.run {v w : View} {cs u : List Char} (h : Viable v u) (hr : v.run cs = some w) :
    Viable w (u ++ cs) :=
  View.run_invariant Viable.step h hr

namespace View

theorem exists_phrase {cs : List Char} {r : List (List Char) × Bool} (h : read cs = some r) :
    ∃ φ : Phrase .expression, φ.text = cs := by
  obtain ⟨v, hr, hf⟩ := Option.bind_eq_some_iff.mp h
  have initial : Viable {} [] := ⟨[], _, rfl, .start .first 0, rfl⟩
  obtain ⟨fs, t, depth, begun, rfl⟩ := initial.run hr
  unfold finish at hf
  split at hf
  · next good =>
    obtain ⟨closed, operand, argument⟩ := good
    -- no bracket is open, so nothing stands in front of the expression
    obtain rfl := List.eq_nil_of_length_eq_zero (depth.trans closed)
    refine begun.exists_phrase ?_
    cases h : v.state with
    | start => exact absurd h operand
    | name => exact absurd h argument
    | integer => exact .inl (.inl rfl)
    | decimal => exact .inl (.inr rfl)
    | afterBracket => exact .inr (.inl rfl)
    | afterVariable => exact .inr (.inr rfl)
  · cases hf

/-- A text is read exactly if it is the text of an expression, and only as its lexemes. -/
theorem read_eq_some_iff {cs : List Char} {r : List (List Char) × Bool} :
    read cs = some r ↔
      ∃ φ : Phrase .expression, φ.text = cs ∧ r = (φ.lexemes 0, φ.dependsOnX) := by
  constructor
  · intro h
    obtain ⟨φ, rfl⟩ := exists_phrase h
    exact ⟨φ, rfl, Option.some.inj (h.symm.trans (read_text φ))⟩
  · intro ⟨φ, text, same⟩
    rw [← text, same]
    exact read_text φ

end View

end FunctionCalculator.Lexeme
