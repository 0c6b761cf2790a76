import FunctionCalculator.Proofs.Crew

/-!
# Every result is shown once

A schedule is any list of moves: the workers write and the session is used in any order. A trace is
what a schedule has led to, with all that was shown on the way.

What is proved:
  1. `coherent_step`, `coherent_after`: the cell that is held belongs to the pending task, and what
     was shown of that task are reports that its worker has written.
  2. `released_step`, `released_foldl`: a worker that is not held any more is never shown again.
  3. `Coherent.delivers`: what a move shows is written for the held task, and a look finds the
     result of a worker that is finished.
  4. `delivers_once`: under every schedule each task is shown in order, its result at most once and
     at last, and only while it is held.
-/

namespace FunctionCalculator

/-- Of two displays in their order: if they are of one worker, the earlier one is a report, and a
later report has no smaller number. -/
def Display.Before (d e : Display) : Prop :=
  d.worker = e.worker → d.write.isResult = false ∧ d.write.UpTo e.write

structure Trace where
  crew : Crew := {}
  shown : List Display := []

namespace Trace

def step (r : Trace) (m : Crew.Move) : Trace :=
  { crew := (r.crew.step m).crew, shown := r.shown ++ (r.crew.step m).display.toList }

/-- A schedule, from the beginning. -/
def after (ms : List Crew.Move) : Trace := ms.foldl step {}

/-- Worker number `i` computes the pending task. It has written a part of its script, and what
was shown of it are reports in that part. -/
structure Serves (r : Trace) (i : Nat) (k : Worker) (done : List Write) : Prop where
  worker : r.crew.workers[i]? = some k
  task : r.crew.session.task = some k.task
  wrote : k.Wrote done
  shown : ∀ d ∈ r.shown, d.worker = i → d.write.isResult = false ∧ d.write ∈ done

/-- The session holds the cell of the worker that serves it, or none if no task is pending. -/
structure Coherent (r : Trace) : Prop where
  idle : r.crew.held = none → r.crew.session.task = none ∧ r.crew.reading = false
  busy : ∀ i, r.crew.held = some i → ∃ k done, r.Serves i k done
  launched : ∀ d ∈ r.shown, d.worker < r.crew.workers.length
  ordered : r.shown.Pairwise Display.Before

variable {r : Trace} {i : Nat} {k : Worker} {done : List Write}

theorem Coherent.write (h : r.Coherent) (j : Nat) :
    Coherent { r with
      crew := { r.crew with workers := r.crew.workers.modify j Worker.write } } where
  idle := h.idle
  busy i hi := by
    obtain ⟨k, done, serves⟩ := h.busy i hi
    by_cases hij : j = i
    · obtain ⟨more, wrote⟩ := serves.wrote.write
      refine ⟨k.write, done ++ more, ?_, ?_, wrote, fun d hd hw => ?_⟩
      · simp [serves.worker, hij]
      · rw [k.task_write]
        exact serves.task
      · obtain ⟨report, written⟩ := serves.shown d hd hw
        exact ⟨report, List.mem_append_left _ written⟩
    · refine ⟨k, done, ?_, serves.task, serves.wrote, serves.shown⟩
      simp [serves.worker, hij]
  launched d hd := by
    rw [List.length_modify]
    exact h.launched d hd
  ordered := h.ordered

/-- Nothing was shown yet of a worker that is launched. -/
theorem Coherent.command (h : r.Coherent) (quiet : r.crew.reading = false) (c : Session.Command) :
    Coherent { r with crew := r.crew.command c } := by
  unfold Crew.command
  simp only
  cases ht : (c.run r.crew.session).task with
  | none =>
    exact ⟨fun _ => ⟨ht, quiet⟩, nofun, h.launched, h.ordered⟩
  | some t =>
    cases hc : c.launches with
    | true =>
      refine ⟨nofun, ?_, fun d hd => ?_, h.ordered⟩
      · rintro i ⟨⟩
        refine ⟨.launch t, [], by simp, ht, Worker.wrote_launch t, fun d hd hw => ?_⟩
        exact absurd hw (Nat.ne_of_lt (h.launched d hd))
      · have old := h.launched d hd
        simp only [if_true, List.length_append, List.length_singleton]
        omega
    | false =>
      have kept : (c.run r.crew.session).task = r.crew.session.task := by
        rcases Session.Command.task_run r.crew.session hc with dropped | kept
        · rw [ht] at dropped
          cases dropped
        · exact kept
      refine ⟨fun idle => ?_, fun i hi => ?_, h.launched, h.ordered⟩
      · have := (h.idle idle).1
        rw [← kept, ht] at this
        cases this
      · obtain ⟨k, done, serves⟩ := h.busy i hi
        exact ⟨k, done, serves.worker, kept.trans serves.task, serves.wrote, serves.shown⟩

/-- What is shown next of the worker that serves is behind all that was shown of it before. -/
theorem Coherent.concat (h : r.Coherent) (serves : r.Serves i k done) {x : Write}
    (behind : ∀ y ∈ done, y.UpTo x) : (r.shown ++ [Display.mk i x]).Pairwise Display.Before := by
  rw [List.pairwise_append]
  refine ⟨h.ordered, List.pairwise_singleton _ _, fun d hd e he hw => ?_⟩
  obtain rfl : e = ⟨i, x⟩ := List.mem_singleton.mp he
  obtain ⟨report, written⟩ := serves.shown d hd hw
  exact ⟨report, behind _ written⟩

theorem Coherent.launched_concat (h : r.Coherent) (serves : r.Serves i k done) {x : Write}
    {d : Display} (hd : d ∈ r.shown ++ [Display.mk i x]) : d.worker < r.crew.workers.length := by
  rcases List.mem_append.mp hd with earlier | hd
  · exact h.launched d earlier
  · obtain rfl : d = ⟨i, x⟩ := List.mem_singleton.mp hd
    exact (List.getElem?_eq_some_iff.mp serves.worker).1

/-- It does not matter to a held cell where its look is. -/
theorem Coherent.setReading (h : r.Coherent) (hi : r.crew.held = some i) (reading : Bool) :
    Coherent { r with crew := { r.crew with reading } } where
  idle idle := by
    rw [hi] at idle
    cases idle
  busy j hj := by
    obtain ⟨k, done, serves⟩ := h.busy j hj
    exact ⟨k, done, serves.worker, serves.task, serves.wrote, serves.shown⟩
  launched := h.launched
  ordered := h.ordered

theorem Coherent.readResult (h : r.Coherent) (quiet : r.crew.reading = false) :
    Coherent
      { crew := r.crew.readResult.crew
        shown := r.shown ++ r.crew.readResult.display.toList } := by
  cases hi : r.crew.held with
  | none =>
    rw [Crew.readResult_idle hi]
    simpa using h
  | some i =>
    obtain ⟨k, done, serves⟩ := h.busy i hi
    cases hr : k.cell.result with
    | none =>
      rw [Crew.readResult_waits hi serves.worker hr]
      simpa using h.setReading hi true
    | some text =>
      rw [Crew.readResult_found hi serves.worker serves.task hr]
      refine ⟨fun _ => ⟨rfl, quiet⟩, nofun, ?_, ?_⟩
      · intro d hd
        rw [List.length_modify]
        exact h.launched_concat serves hd
      · exact h.concat serves fun y _ => y.upTo_result text

theorem Coherent.readProgress (h : r.Coherent) (reading : r.crew.reading = true) :
    Coherent
      { crew := r.crew.readProgress.crew
        shown := r.shown ++ r.crew.readProgress.display.toList } := by
  cases hi : r.crew.held with
  | none =>
    have quiet := (h.idle hi).2
    rw [reading] at quiet
    cases quiet
  | some i =>
    obtain ⟨k, done, serves⟩ := h.busy i hi
    rw [Crew.readProgress_held hi serves.worker serves.task]
    cases hp : k.cell.progress with
    | none => simpa using h.setReading hi false
    | some p =>
      rw [serves.wrote.cell] at hp
      refine ⟨fun idle => ?_, fun j hj => ?_, ?_, ?_⟩
      · rw [hi] at idle
        cases idle
      · obtain rfl : i = j := Option.some.inj (hi.symm.trans hj)
        refine ⟨k, done, serves.worker, serves.task, serves.wrote, fun d hd hw => ?_⟩
        rcases List.mem_append.mp hd with earlier | hd
        · exact serves.shown d earlier hw
        · rw [List.mem_singleton.mp hd]
          exact ⟨rfl, Cell.mem_of_progress hp⟩
      · exact fun d hd => h.launched_concat serves hd
      · exact h.concat serves fun y hy => Cell.upTo_of_progress serves.wrote.ascending hp hy

theorem coherent_step (h : r.Coherent) (m : Crew.Move) : (r.step m).Coherent := by
  unfold step
  cases m with
  | write j => simpa [Crew.step] using h.write j
  | command c =>
    cases quiet : r.crew.reading with
    | true => simpa [Crew.step, quiet] using h
    | false => simpa [Crew.step, quiet] using h.command quiet c
  | readResult =>
    cases quiet : r.crew.reading with
    | true => simpa [Crew.step, quiet] using h
    | false => simpa [Crew.step, quiet] using h.readResult quiet
  | readProgress =>
    cases quiet : r.crew.reading with
    | true => simpa [Crew.step, quiet] using h.readProgress quiet
    | false => simpa [Crew.step, quiet] using h

theorem coherent_foldl (h : r.Coherent) (ms : List Crew.Move) : (ms.foldl step r).Coherent := by
  induction ms generalizing r with
  | nil => exact h
  | cons m ms ih => exact ih (coherent_step h m)

theorem coherent_initial : Coherent {} where
  idle _ := ⟨rfl, rfl⟩
  busy _ hi := by cases hi
  launched _ hd := by cases hd
  ordered := List.Pairwise.nil

theorem coherent_after (ms : List Crew.Move) : (after ms).Coherent :=
  coherent_foldl coherent_initial ms

/-! ## Workers that are not held any more -/

/-- Worker number `i` was launched, and is not held any more. -/
def Released (r : Trace) (i : Nat) : Prop :=
  i < r.crew.workers.length ∧ r.crew.held ≠ some i

theorem released_step (h : r.Released i) (m : Crew.Move) : (r.step m).Released i := by
  obtain ⟨launched, dropped⟩ := h
  refine ⟨Nat.lt_of_lt_of_le launched (r.crew.length_step m), ?_⟩
  show (r.crew.step m).crew.held ≠ some i
  rcases r.crew.held_step m with kept | freed | new
  · rwa [kept]
  · rw [freed]
    exact nofun
  · rw [new]
    exact fun h => Nat.ne_of_gt launched (Option.some.inj h)

/-- A worker that is not held any more is never shown again. -/
theorem released_foldl (h : r.Released i) (ms : List Crew.Move) :
    ∃ later, (ms.foldl step r).shown = r.shown ++ later ∧ ∀ d ∈ later, d.worker ≠ i := by
  induction ms generalizing r with
  | nil => exact ⟨[], (List.append_nil _).symm, nofun⟩
  | cons m ms ih =>
    obtain ⟨later, shown, others⟩ := ih (released_step h m)
    refine ⟨(r.crew.step m).display.toList ++ later, ?_, fun d hd => ?_⟩
    · rw [List.foldl_cons, shown, step, List.append_assoc]
    · rcases List.mem_append.mp hd with now | hd
      · have held := Crew.held_of_display (Option.mem_toList.mp now)
        exact fun hw => h.2 (hw ▸ held)
      · exact others d hd

/-! ## What is delivered -/

theorem Coherent.delivers_readResult (h : r.Coherent) (quiet : r.crew.reading = false) :
    r.crew.Delivers .readResult := by
  have eq : r.crew.step .readResult = r.crew.readResult := by simp [Crew.step, quiet]
  cases hi : r.crew.held with
  | none =>
    rw [Crew.readResult_idle hi] at eq
    have idle := (h.idle hi).1
    constructor <;> simp [eq, hi, idle, quiet]
  | some i =>
    obtain ⟨k, done, serves⟩ := h.busy i hi
    cases hr : k.cell.result with
    | none =>
      rw [Crew.readResult_waits hi serves.worker hr] at eq
      refine ⟨by simp [eq], by simp [eq], by simp [eq], by simp [eq], by simp, ?_⟩
      -- a held worker that is finished has left its result
      intro _ _ j k' hj hk' finished
      obtain rfl : i = j := Option.some.inj (hi.symm.trans hj)
      obtain rfl : k = k' := Option.some.inj (serves.worker.symm.trans hk')
      rw [serves.wrote.finished finished] at hr
      cases hr
    | some text =>
      rw [Crew.readResult_found hi serves.worker serves.task hr] at eq
      rw [serves.wrote.cell] at hr
      have written := serves.wrote.mem_script (Cell.mem_of_result hr)
      refine ⟨?_, by simp [eq], by simp [eq], by simp [eq, quiet], by simp, ?_⟩
      · rintro d hd
        obtain rfl : ⟨i, .result text⟩ = d := by simpa [eq] using hd
        refine ⟨hi, by simp [eq, Write.text], k, serves.worker, serves.task, written⟩
      · intro _ _ j k' hj hk' _
        obtain rfl : i = j := Option.some.inj (hi.symm.trans hj)
        obtain rfl : k = k' := Option.some.inj (serves.worker.symm.trans hk')
        simp [eq, Task.result_mem_script written]

theorem Coherent.delivers_readProgress (h : r.Coherent) (reading : r.crew.reading = true) :
    r.crew.Delivers .readProgress := by
  have eq : r.crew.step .readProgress = r.crew.readProgress := by simp [Crew.step, reading]
  cases hi : r.crew.held with
  | none =>
    have quiet := (h.idle hi).2
    rw [reading] at quiet
    cases quiet
  | some i =>
    obtain ⟨k, done, serves⟩ := h.busy i hi
    rw [Crew.readProgress_held hi serves.worker serves.task] at eq
    cases hp : k.cell.progress with
    | none =>
      refine ⟨?_, ?_, ?_, by simp, ?_, by simp⟩ <;> simp [eq, hp, hi, serves.task]
    | some p =>
      have written := serves.wrote.mem_script (Cell.mem_of_progress (serves.wrote.cell ▸ hp))
      refine ⟨?_, ?_, ?_, by simp, ?_, by simp⟩
      · intro d hd
        obtain rfl : ⟨i, .progress p.1 p.2⟩ = d := by simpa [eq, hp] using hd
        exact ⟨hi, by simp [eq, hp, Write.text], k, serves.worker, serves.task, written⟩
      · simp [eq, hp]
      · simp [eq, hp, hi, serves.task]
      · simp [eq]

theorem Coherent.delivers (h : r.Coherent) (m : Crew.Move) : r.crew.Delivers m := by
  cases m with
  | write i => constructor <;> simp [Crew.step]
  | command c => constructor <;> simp [Crew.step]
  | readResult =>
    cases reading : r.crew.reading with
    | true => constructor <;> simp [Crew.step, reading]
    | false => exact h.delivers_readResult reading
  | readProgress =>
    cases reading : r.crew.reading with
    | true => exact h.delivers_readProgress reading
    | false => constructor <;> simp [Crew.step, reading]

theorem countP_result_le_one {ds : List Display} (h : ds.Pairwise Display.Before) (i : Nat) :
    ds.countP (fun d => d.worker == i && d.write.isResult) ≤ 1 := by
  induction ds with
  | nil => simp
  | cons d ds ih =>
    obtain ⟨before, rest⟩ := List.pairwise_cons.mp h
    rw [List.countP_cons]
    split
    · next result =>
      -- behind the result of a worker there is nothing of it
      simp only [Bool.and_eq_true, beq_iff_eq] at result
      have none : ds.countP (fun d => d.worker == i && d.write.isResult) = 0 := by
        rw [List.countP_eq_zero]
        intro e he again
        simp only [Bool.and_eq_true, beq_iff_eq] at again
        have report := (before e he (result.1.trans again.1.symm)).1
        rw [result.2] at report
        cases report
      omega
    · exact ih rest

/-- Under every schedule, what is shown of one task are reports with numbers that do not decrease,
and its result at most once and at last. Only the task that is held is shown, with what is written
for it, and not again once it is dropped or replaced; a look answers whether a task is still held,
and finds the result of a worker that is finished. -/
theorem delivers_once (ms : List Crew.Move) :
    (after ms).shown.Pairwise Display.Before ∧
      (∀ i, (after ms).shown.countP (fun d => d.worker == i && d.write.isResult) ≤ 1) ∧
      (∀ m, (after ms).crew.Delivers m) ∧
      ∀ i, (after ms).Released i → ∀ later, ∃ shown,
        (after (ms ++ later)).shown = (after ms).shown ++ shown ∧ ∀ d ∈ shown, d.worker ≠ i := by
  have coherent := coherent_after ms
  refine ⟨coherent.ordered, countP_result_le_one coherent.ordered, coherent.delivers, ?_⟩
  intro i released later
  unfold after
  rw [List.foldl_append]
  exact released_foldl released later

/-- A task is replaced, and its worker is finished only then. The look that comes next finds neither
that result nor one of the second worker. -/
def replaced : List Crew.Move :=
  [.command (.type "x-1"), .command .evaluate, .command .evaluate, .write 0, .readResult,
    .readProgress, .write 1, .readResult]

theorem delivers_once_replaced :
    (∃ text, (after replaced).shown = [⟨1, .result text⟩]) ∧
      (after replaced).Released 0 ∧
        ∀ later, ∃ shown, (after (replaced ++ later)).shown = (after replaced).shown ++ shown ∧
          ∀ d ∈ shown, d.worker ≠ 0 := by
  have released : (after replaced).Released 0 := ⟨by decide, by decide⟩
  obtain ⟨-, -, -, silent⟩ := delivers_once replaced
  exact ⟨⟨_, rfl⟩, released, silent 0 released⟩

end Trace

end FunctionCalculator
