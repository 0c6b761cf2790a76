import FunctionCalculator.Proofs.Panels
import FunctionCalculator.Task
import Mathlib.Data.List.Induction

/-!
# Workers

A worker computes one task beside the session. It has a cell of its own, and writes its reports
into it, and at last the text of its result. A later report takes the place of an earlier one.

What is proved:
  1. `ascending_script`: the reports of a task come in ascending order.
  2. `mem_of_progress`, `mem_of_result`: what stands in a cell was written.
  3. `upTo_of_progress`: the report that stands in a cell is the largest that was written.
  4. `Wrote.write`, `Wrote.finished`: a write goes on with the script, and in the end the result
     of the task stands in the cell.
-/

namespace FunctionCalculator

inductive Write where
  | progress (panel total : Nat)
  | result (text : String)
  deriving DecidableEq, Repr

namespace Write

def text : Write → String
  | progress panel total => Report.progress panel total
  | result text => text

def isResult : Write → Bool
  | progress _ _ => false
  | result _ => true

/-- If both are reports, the number of the first is not the larger one. -/
def UpTo : Write → Write → Prop
  | progress i _, progress j _ => i ≤ j
  | _, _ => True

theorem upTo_result (x : Write) (text : String) : x.UpTo (.result text) := by
  cases x <;> trivial

end Write

/-- What is written for a task: its reports, and the text of its result. -/
def Task.script (t : Task) : List Write :=
  t.solution.progress.map (fun p => .progress p.1 p.2) ++ [.result t.solution.text]

theorem Task.result_mem_script {t : Task} {text : String} (h : .result text ∈ t.script) :
    text = t.solution.text := by
  simpa [script] using h

theorem Task.ascending_progress (t : Task) :
    t.solution.progress.Pairwise fun p q => p.1 ≤ q.1 := by
  obtain ⟨e, request⟩ := t
  cases request with
  | root a b => exact List.Pairwise.nil
  | integral a b =>
    simp only [solution, Expression.solve]
    exact Simpson.run_progress_ascending e.value? a b {} true

theorem Task.ascending_script (t : Task) : t.script.Pairwise Write.UpTo := by
  unfold script
  rw [List.pairwise_append, List.pairwise_map]
  refine ⟨t.ascending_progress, List.pairwise_singleton _ _, fun x _ y hy => ?_⟩
  rw [List.mem_singleton.mp hy]
  exact x.upTo_result _

/-! ## Cells -/

/-- The cell that a worker shares with the session. -/
structure Cell where
  progress : Option (Nat × Nat) := none
  result : Option String := none
  deriving DecidableEq, Repr

namespace Cell

def put (c : Cell) : Write → Cell
  | .progress panel total => { c with progress := some (panel, total) }
  | .result text => { c with result := some text }

/-- A cell after some writes. -/
def after (done : List Write) : Cell := done.foldl put {}

theorem after_concat (done : List Write) (x : Write) : after (done ++ [x]) = (after done).put x :=
  List.foldl_append

variable {done : List Write}

theorem mem_of_result {text : String} (h : (after done).result = some text) :
    .result text ∈ done := by
  induction done using List.reverseRecOn with
  | nil => cases h
  | append_singleton done x ih =>
    rw [after_concat] at h
    cases x with
    | progress panel total => exact List.mem_append_left _ (ih h)
    | result text' =>
      obtain rfl : text' = text := Option.some.inj h
      exact List.mem_concat_self

theorem mem_of_progress {panel total : Nat} (h : (after done).progress = some (panel, total)) :
    .progress panel total ∈ done := by
  induction done using List.reverseRecOn with
  | nil => cases h
  | append_singleton done x ih =>
    rw [after_concat] at h
    cases x with
    | progress panel' total' =>
      cases h
      exact List.mem_concat_self
    | result text => exact List.mem_append_left _ (ih h)

/-- The report that stands in a cell is the largest one. -/
theorem upTo_of_progress (ascending : done.Pairwise Write.UpTo) {panel total : Nat}
    (h : (after done).progress = some (panel, total)) {x : Write} (hx : x ∈ done) :
    x.UpTo (.progress panel total) := by
  induction done using List.reverseRecOn with
  | nil => cases hx
  | append_singleton done y ih =>
    rw [after_concat] at h
    obtain ⟨before, -, last⟩ := List.pairwise_append.mp ascending
    rcases List.mem_append.mp hx with earlier | hx
    · cases y with
      | progress panel' total' =>
        cases h
        exact last x earlier _ (List.mem_singleton_self _)
      | result text => exact ih before h earlier
    · obtain rfl : x = y := List.mem_singleton.mp hx
      cases x with
      | progress panel' total' =>
        cases h
        exact Nat.le_refl _
      | result text => trivial

end Cell

/-! ## Workers -/

/-- A worker, with what it has still to write. -/
structure Worker where
  task : Task
  todo : List Write
  cell : Cell := {}

namespace Worker

def launch (t : Task) : Worker := { task := t, todo := t.script }

/-- The next write; a worker that is finished does no more. -/
def write (k : Worker) : Worker :=
  match k.todo with
  | [] => k
  | x :: todo => { k with todo, cell := k.cell.put x }

def take (k : Worker) : Worker := { k with cell := { k.cell with result := none } }

/-- The worker has written the given part of its script, and all of it stands in the cell. -/
structure Wrote (k : Worker) (done : List Write) : Prop where
  script : k.task.script = done ++ k.todo
  cell : k.cell = Cell.after done

theorem wrote_launch (t : Task) : (launch t).Wrote [] := ⟨rfl, rfl⟩

variable {k : Worker} {done : List Write}

theorem task_write (k : Worker) : k.write.task = k.task := by
  unfold write
  split <;> rfl

theorem Wrote.write (h : k.Wrote done) : ∃ more, k.write.Wrote (done ++ more) := by
  unfold Worker.write
  split
  · exact ⟨[], by rwa [List.append_nil]⟩
  · next x todo htodo =>
    refine ⟨[x], ?_, ?_⟩
    · rw [List.append_assoc, h.script, htodo]
      rfl
    · rw [Cell.after_concat, h.cell]

theorem Wrote.finished (h : k.Wrote done) (htodo : k.todo = []) :
    k.cell.result = some k.task.solution.text := by
  have complete : done = k.task.script := by rw [h.script, htodo, List.append_nil]
  rw [h.cell, complete, Task.script, Cell.after_concat]
  rfl

theorem Wrote.mem_script (h : k.Wrote done) {x : Write} (hx : x ∈ done) : x ∈ k.task.script := by
  rw [h.script]
  exact List.mem_append_left _ hx

theorem Wrote.ascending (h : k.Wrote done) : done.Pairwise Write.UpTo := by
  have all := k.task.ascending_script
  rw [h.script] at all
  exact (List.pairwise_append.mp all).1

end Worker

end FunctionCalculator
