import FunctionCalculator.Proofs.Worker
import FunctionCalculator.Session.Basic

/-!
# A session and its workers

Every evaluation that leaves a task launches a worker for it. Workers are never stopped: one that
is dropped or replaced goes on writing into its cell, but the session holds another cell by then. A
look at the held task is made of two readings, and any worker may write between them.

A move is a write of any worker, a command to the session, or the next reading. A move that has to
wait does nothing.

What is proved:
  1. `look_eq_poll`: two readings with nothing between them are one look of the session.
  2. `held_step`: the cell that is held changes only with a new worker.
  3. `held_of_display`: only what the held worker has written is shown.
-/

namespace FunctionCalculator

namespace Session

/-- An operation on a session, without a look at the pending task. -/
inductive Command where
  | type (entry : String)
  | setMode (mode : Mode)
  | setInterval (a b : Float)
  | setX (x : Float)
  | evaluate
  | clearEntry
  | clearResults
  | reset
  | setError (message : String) (position : Nat)
  | setResult (result : String) (dependsOnX : Bool) (derivation : Derivation)

def Command.run (s : Session) : Command → Session
  | type entry => { s with entry }
  | setMode mode => { s with mode }
  | setInterval a b => s.setInterval a b
  | setX x => s.setX x
  | evaluate => s.evaluate
  | clearEntry => s.clearEntry
  | clearResults => s.clearResults
  | reset => s.reset
  | setError message position => s.setError message position
  | setResult result dependsOnX derivation => s.setResult result dependsOnX derivation

/-- Whether a command launches a worker, if it leaves a task. -/
def Command.launches : Command → Bool
  | evaluate => true
  | _ => false

/-- Only an evaluation gives a task; any other command keeps it or drops it. -/
theorem Command.task_run (s : Session) {c : Command} (h : c.launches = false) :
    (c.run s).task = none ∨ (c.run s).task = s.task := by
  cases c with
  | evaluate => cases h
  | clearEntry | clearResults | reset | setError => exact .inl rfl
  | type | setMode | setInterval | setX | setResult => exact .inr rfl

end Session

/-- A session with all workers that were launched for it. -/
structure Crew where
  session : Session := {}
  workers : List Worker := []
  /-- The number of the worker whose cell the session holds. -/
  held : Option Nat := none
  /-- Whether a look has found no result, and the progress is read next. -/
  reading : Bool := false

/-- A write that is shown, and the number of its worker. -/
structure Display where
  worker : Nat
  write : Write
  deriving DecidableEq, Repr

namespace Crew

inductive Move where
  /-- A worker makes its next write. -/
  | write (worker : Nat)
  | command (c : Session.Command)
  /-- A look at the held task begins: its result is read. -/
  | readResult
  /-- The look goes on: the progress of the task is read. -/
  | readProgress

/-- What a move leads to: the write that it shows, and the answer of a look that is over. -/
structure Outcome where
  crew : Crew
  display : Option Display := none
  pending : Option Bool := none

variable (σ : Crew)

/-- The cell that the session holds. -/
def cell : Cell :=
  match σ.held.bind fun i => σ.workers[i]? with
  | some k => k.cell
  | none => {}

/-- A command. The worker that was held is dropped with its task. -/
def command (c : Session.Command) : Crew :=
  let session := c.run σ.session
  match session.task with
  | none => { σ with session, held := none }
  | some t =>
    if c.launches then
      { σ with session, workers := σ.workers ++ [.launch t], held := some σ.workers.length }
    else { σ with session }

/-- The first reading of a look. A result is taken out of its cell, and the look is over. -/
def readResult : Outcome :=
  match σ.held, σ.cell.result with
  | none, _ => { crew := σ, pending := some false }
  | some _, none => { crew := { σ with reading := true } }
  | some i, some text =>
    let (session, pending) := σ.session.poll (some text) none
    { crew := { σ with session, workers := σ.workers.modify i Worker.take, held := none }
      display := some ⟨i, .result text⟩
      pending := some pending }

def readProgress : Outcome :=
  let (session, pending) := σ.session.poll none σ.cell.progress
  { crew := { σ with session, reading := false }
    display := σ.held.bind fun i => σ.cell.progress.map fun p => ⟨i, .progress p.1 p.2⟩
    pending := some pending }

/-- One move. Commands and new looks wait for a look that is not over. -/
def step : Move → Outcome
  | .write i => { crew := { σ with workers := σ.workers.modify i Worker.write } }
  | .command c => { crew := if σ.reading then σ else σ.command c }
  | .readResult => if σ.reading then { crew := σ } else σ.readResult
  | .readProgress => if σ.reading then σ.readProgress else { crew := σ }

/-! ## Readings -/

variable {σ} {i : Nat} {k : Worker}

theorem cell_of_held (hi : σ.held = some i) (hk : σ.workers[i]? = some k) : σ.cell = k.cell := by
  simp only [cell, hi, Option.bind_some, hk]

theorem readResult_idle (hi : σ.held = none) :
    σ.readResult = { crew := σ, pending := some false } := by
  simp only [readResult, hi]

theorem readResult_found (hi : σ.held = some i) (hk : σ.workers[i]? = some k)
    (ht : σ.session.task = some k.task) {text : String} (hr : k.cell.result = some text) :
    σ.readResult =
      { crew :=
          { σ with
            session := { σ.session with result := text, task := none }
            workers := σ.workers.modify i Worker.take
            held := none }
        display := some ⟨i, .result text⟩
        pending := some false } := by
  simp only [readResult, cell_of_held hi hk, hi, hr, Session.poll, ht]

theorem readResult_waits (hi : σ.held = some i) (hk : σ.workers[i]? = some k)
    (hr : k.cell.result = none) : σ.readResult = { crew := { σ with reading := true } } := by
  simp only [readResult, cell_of_held hi hk, hi, hr]

theorem readProgress_held (hi : σ.held = some i) (hk : σ.workers[i]? = some k)
    (ht : σ.session.task = some k.task) :
    σ.readProgress =
      { crew :=
          { σ with
            session :=
              match k.cell.progress with
              | some p => { σ.session with result := Report.progress p.1 p.2 }
              | none => σ.session
            reading := false }
        display := k.cell.progress.map fun p => ⟨i, .progress p.1 p.2⟩
        pending := some true } := by
  simp only [readProgress, cell_of_held hi hk, hi, Session.poll, ht, Option.bind_some]
  cases k.cell.progress <;> rfl

/-- A look with nothing between its two readings. -/
def look (σ : Crew) : Outcome :=
  let first := σ.readResult
  if first.crew.reading then first.crew.readProgress else first

theorem look_eq_poll (idle : σ.reading = false) (hi : σ.held = some i)
    (hk : σ.workers[i]? = some k) (ht : σ.session.task = some k.task) :
    (σ.look.crew.session, σ.look.pending) =
      ((σ.session.poll k.cell.result k.cell.progress).1,
        some (σ.session.poll k.cell.result k.cell.progress).2) := by
  unfold look
  cases hr : k.cell.result with
  | some text => simp [readResult_found hi hk ht hr, idle, Session.poll, ht]
  | none =>
    simp only [readResult_waits hi hk hr, if_true]
    rw [readProgress_held (σ := { σ with reading := true }) hi hk ht]
    cases k.cell.progress <;> simp [Session.poll, ht]

/-! ## The held cell -/

theorem length_step (σ : Crew) (m : Move) :
    σ.workers.length ≤ (σ.step m).crew.workers.length := by
  cases m with
  | write i => simp [step]
  | command c =>
    simp only [step, command]
    split
    · exact Nat.le_refl _
    split
    · exact Nat.le_refl _
    split <;> simp
  | readResult =>
    simp only [step, readResult]
    split
    · exact Nat.le_refl _
    split <;> simp
  | readProgress =>
    simp only [step, readProgress]
    split <;> exact Nat.le_refl _

/-- The cell that is held changes only with a new worker. -/
theorem held_step (σ : Crew) (m : Move) :
    (σ.step m).crew.held = σ.held ∨ (σ.step m).crew.held = none ∨
      (σ.step m).crew.held = some σ.workers.length := by
  cases m with
  | write i => exact .inl rfl
  | command c =>
    simp only [step, command]
    split
    · exact .inl rfl
    split
    · exact .inr (.inl rfl)
    split
    · exact .inr (.inr rfl)
    · exact .inl rfl
  | readResult =>
    simp only [step, readResult]
    split
    · exact .inl rfl
    split
    · exact .inl rfl
    · exact .inl rfl
    · exact .inr (.inl rfl)
  | readProgress =>
    simp only [step, readProgress]
    split <;> exact .inl rfl

/-- Only what the held worker has written is shown. -/
theorem held_of_display {m : Move} {d : Display} (h : (σ.step m).display = some d) :
    σ.held = some d.worker := by
  cases m with
  | write i => cases h
  | command c => cases h
  | readResult =>
    simp only [step, readResult] at h
    split at h
    · cases h
    split at h
    · cases h
    · cases h
    · next i text hi hr =>
      cases h
      exact hi
  | readProgress =>
    simp only [step, readProgress] at h
    split at h
    · obtain ⟨i, hi, h⟩ := Option.bind_eq_some_iff.mp h
      obtain ⟨p, -, rfl⟩ := Option.map_eq_some_iff.mp h
      exact hi
    · cases h

/-! ## What can be seen -/

/-- What can be seen of a move. -/
structure Delivers (σ : Crew) (m : Move) : Prop where
  /-- Only the held task is shown, with something that is written for it. -/
  shown : ∀ d, (σ.step m).display = some d →
    σ.held = some d.worker ∧ (σ.step m).crew.session.result = d.write.text ∧
      ∃ k, σ.workers[d.worker]? = some k ∧ σ.session.task = some k.task ∧
        d.write ∈ k.task.script
  /-- But for commands, a move that shows nothing leaves the session alone. -/
  hidden : (∀ c, m ≠ .command c) → (σ.step m).display = none →
    (σ.step m).crew.session = σ.session
  /-- A look answers whether a task is still held. -/
  answer : ∀ pending, (σ.step m).pending = some pending →
    (σ.step m).crew.session.task.isSome = pending ∧ (σ.step m).crew.held.isSome = pending
  /-- The first reading of a look answers, or the look goes on. -/
  first : m = .readResult → σ.reading = false →
    (σ.step m).pending.isSome = !(σ.step m).crew.reading
  /-- The second reading answers that a task is pending. -/
  second : m = .readProgress → σ.reading = true →
    (σ.step m).pending = some true ∧ (σ.step m).crew.reading = false
  /-- A result that is written when a look begins is shown by it, and the task is over. -/
  prompt : m = .readResult → σ.reading = false → ∀ i k, σ.held = some i →
    σ.workers[i]? = some k → k.todo = [] →
      (σ.step m).display = some ⟨i, .result k.task.solution.text⟩ ∧
        (σ.step m).crew.session.task = none ∧ (σ.step m).crew.held = none ∧
          (σ.step m).pending = some false

end Crew

end FunctionCalculator
