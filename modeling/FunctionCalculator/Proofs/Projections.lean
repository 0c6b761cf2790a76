import FunctionCalculator.Solver.Secant

/-!
# The projections of the secant method

The seeds and the projections are one sequence of points. Each point from the third on is projected
from the window of the two points before it, so that projection number `k` is point number `k + 1`.
There is no further point where a value is absent.

What is proved, for any type of scalars, be there laws for it or not:
  1. `iterate_unfolds`, `run_unfolds`: what one window leads to, and the first.
  2. `accepts_one_iff`, `accepts_succ_iff`: what it means for the sequence from a window that a
     projection is accepted, in terms of the sequence from the next window.
  3. `iterate_root`, `iterate_samples`: by induction on the number of windows that are allowed, what
     a run returns and where it evaluates its function.
  4. `run_root_iff`, `run_root_eq_none_iff`, `run_samples`: the same for a whole run.
  5. `exists_value_of_root`: a root has a value within the tolerance.
  6. `returns_first_accepted`: the whole specification of a run.
-/

namespace FunctionCalculator.Secant

variable {α : Type}

def samplesOf (past : Array (Event α)) : List α := past.toList.filterMap Event.sample?

theorem samplesOf_push (past : Array (Event α)) (e : Event α) :
    samplesOf (past.push e) = samplesOf past ++ e.sample?.toList := by
  rw [samplesOf, Array.toList_push, List.filterMap_append]
  cases e <;> rfl

variable [Scalar α]

/-- Point number `k` of the sequence that begins with the seeds `a` and `b`. -/
def point (f : α → Option α) (a b : α) : Nat → Option α
  | 0 => some a
  | 1 => some b
  | k + 2 => do
    let p ← point f a b k
    let q ← point f a b (k + 1)
    let fp ← f p
    let fq ← f q
    return p - (q - p) * fp / (fq - fp)

def valueAt (f : α → Option α) (a b : α) (k : Nat) : Option α := (point f a b k).bind f

/-- Projection number `k` is accepted and none was before: up to it there are values, no window is
level, and no earlier projection is within the tolerance; it is so itself, and lies in the window
that it was projected from. -/
structure Accepts (f : α → Option α) (tolerance a b : α) (k : Nat) : Prop where
  defined : ∀ j ≤ k + 1, (valueAt f a b j).isSome
  sloped : ∀ j < k, ∀ y ∈ valueAt f a b j, ∀ z ∈ valueAt f a b (j + 1), (y != z) = true
  far : ∀ j, 1 ≤ j → j < k → ∀ y ∈ valueAt f a b (j + 1), ¬ Scalar.abs y ≤ tolerance
  near : ∀ y ∈ valueAt f a b (k + 1), Scalar.abs y ≤ tolerance
  within : ∀ p ∈ point f a b (k - 1), ∀ q ∈ point f a b k, ∀ x ∈ point f a b (k + 1),
    p ≤ x ∧ x ≤ q

/-- The values at both ends of a window, which differ. -/
structure Slope (f : α → Option α) (a b fa fb : α) : Prop where
  left : f a = some fa
  right : f b = some fb
  differ : (fa != fb) = true

/-- The points evaluated in the windows before window number `m`: both ends of each, and the
projection. -/
def visited (f : α → Option α) (a b : α) (m : Nat) : List (Option α) :=
  (List.range m).flatMap fun j => [point f a b j, point f a b (j + 1), point f a b (j + 2)]

/-! ## One window -/

/-- What the window `(a, b)` leads to, if `past` was evaluated before and `remaining` more windows
are allowed. -/
inductive Unfolds (f : α → Option α) (tolerance : α) (remaining : Nat) (a b : α) (past : List α) :
    Run α → Prop
  | level {r} (flat : ∀ fa fb, ¬ Slope f a b fa fb) (root : r.root = none)
      (samples : r.samples = past ++ [a, b]) : Unfolds f tolerance remaining a b past r
  | absent {r fa fb} (slope : Slope f a b fa fb) (value : f (project a b fa fb) = none)
      (root : r.root = none) (samples : r.samples = past ++ [a, b, project a b fa fb]) :
      Unfolds f tolerance remaining a b past r
  | near {r fa fb y} (slope : Slope f a b fa fb) (value : f (project a b fa fb) = some y)
      (close : Scalar.abs y ≤ tolerance)
      (root : r.root = if a ≤ project a b fa fb ∧ project a b fa fb ≤ b
        then some (project a b fa fb) else none)
      (samples : r.samples = past ++ [a, b, project a b fa fb]) :
      Unfolds f tolerance remaining a b past r
  | exhausted {r fa fb y} (slope : Slope f a b fa fb) (value : f (project a b fa fb) = some y)
      (away : ¬ Scalar.abs y ≤ tolerance) (last : remaining = 0) (root : r.root = none)
      (samples : r.samples = past ++ [a, b, project a b fa fb]) :
      Unfolds f tolerance remaining a b past r
  | onward {fa fb y n step events} (slope : Slope f a b fa fb)
      (value : f (project a b fa fb) = some y) (away : ¬ Scalar.abs y ≤ tolerance)
      (more : remaining = n + 1) (samples : samplesOf events = past ++ [a, b, project a b fa fb]) :
      Unfolds f tolerance remaining a b past
        (iterate f tolerance n step b (project a b fa fb) events)

variable (f : α → Option α) (tolerance : α)

theorem iterate_unfolds (remaining step : Nat) (a b : α) (past : Array (Event α)) :
    Unfolds f tolerance remaining a b (samplesOf past)
      (iterate f tolerance remaining step a b past) := by
  have samples (past : Array (Event α)) (root : Option α) :
      (⟨root, past⟩ : Run α).samples = samplesOf past := rfl
  unfold iterate
  split
  · next fa fb ha hb =>
    split
    · next same =>
      refine .level (fun y z slope => ?_) rfl ?_
      · obtain rfl := Option.some.inj (ha.symm.trans slope.left)
        obtain rfl := Option.some.inj (hb.symm.trans slope.right)
        have differ := slope.differ
        rw [bne, same] at differ
        cases differ
      · simp [samples, samplesOf_push, Event.sample?]
    · next other =>
      have slope : Slope f a b fa fb := ⟨ha, hb, by rw [bne, Bool.eq_false_iff.mpr other]; rfl⟩
      simp only
      split
      · next value =>
        exact .absent slope value rfl (by simp [samples, samplesOf_push, Event.sample?])
      · next y value =>
        split
        · next close =>
          refine .near slope value close ?_ ?_
          · split <;> rfl
          · split <;> simp [samples, samplesOf_push, Event.sample?]
        · next away =>
          split
          · exact .exhausted slope value away rfl rfl
              (by simp [samples, samplesOf_push, Event.sample?])
          · exact .onward slope value away rfl (by simp [samplesOf_push, Event.sample?])
  · next absent =>
    refine .level (fun y z slope => absent y z slope.left slope.right) rfl ?_
    simp [samples, samplesOf_push, Event.sample?]

/-! ## The sequence from the next window -/

section Shift

variable {f tolerance} {a b fa fb : α}

/-- The run projects by the formula of the sequence. -/
theorem point_two (slope : Slope f a b fa fb) : point f a b 2 = some (project a b fa fb) := by
  simp only [point, slope.left, slope.right, Option.bind_eq_bind, Option.bind_some]
  rfl

theorem point_succ (slope : Slope f a b fa fb) :
    ∀ k, point f a b (k + 1) = point f b (project a b fa fb) k
  | 0 => rfl
  | 1 => point_two slope
  | k + 2 => by
    rw [point, point_succ slope k, point_succ slope (k + 1)]
    rfl

theorem valueAt_succ (slope : Slope f a b fa fb) (k : Nat) :
    valueAt f a b (k + 1) = valueAt f b (project a b fa fb) k := by
  rw [valueAt, valueAt, point_succ slope]

theorem valueAt_zero (f : α → Option α) (a b : α) : valueAt f a b 0 = f a := rfl

theorem valueAt_one (f : α → Option α) (a b : α) : valueAt f a b 1 = f b := rfl

theorem Accepts.exists_slope {k : Nat} (h : Accepts f tolerance a b (k + 1)) :
    ∃ fa fb, Slope f a b fa fb := by
  obtain ⟨fa, left⟩ := Option.isSome_iff_exists.mp (h.defined 0 (Nat.zero_le _))
  obtain ⟨fb, right⟩ := Option.isSome_iff_exists.mp (h.defined 1 (by omega))
  exact ⟨fa, fb, left, right, h.sloped 0 (Nat.succ_pos k) fa left fb right⟩

theorem accepts_one_iff (slope : Slope f a b fa fb) :
    Accepts f tolerance a b 1 ↔
      (∃ y, f (project a b fa fb) = some y ∧ Scalar.abs y ≤ tolerance) ∧
        a ≤ project a b fa fb ∧ project a b fa fb ≤ b := by
  have projection := point_two slope
  have value : valueAt f a b 2 = f (project a b fa fb) := valueAt_succ slope 1
  constructor
  · intro h
    obtain ⟨y, hy⟩ := Option.isSome_iff_exists.mp (h.defined 2 (Nat.le_refl 2))
    exact ⟨⟨y, value ▸ hy, h.near y hy⟩, h.within a rfl b rfl _ projection⟩
  · rintro ⟨⟨y, hy, near⟩, within⟩
    refine ⟨fun j hj => ?_, fun j hj => ?_, fun j first hj => ?_, fun z hz => ?_, ?_⟩
    · obtain - | - | - | j := j
      · rw [valueAt_zero, slope.left]; rfl
      · rw [valueAt_one, slope.right]; rfl
      · rw [value, hy]; rfl
      · omega
    · obtain rfl : j = 0 := by omega
      rw [valueAt_zero, valueAt_one, slope.left, slope.right]
      rintro _ ⟨⟩ _ ⟨⟩
      exact slope.differ
    · omega
    · rw [value, hy] at hz
      cases hz
      exact near
    · rw [projection]
      rintro _ ⟨⟩ _ ⟨⟩ _ ⟨⟩
      exact within

theorem accepts_succ_iff (slope : Slope f a b fa fb) (k : Nat) :
    Accepts f tolerance a b (k + 2) ↔
      (∃ y, f (project a b fa fb) = some y ∧ ¬ Scalar.abs y ≤ tolerance) ∧
        Accepts f tolerance b (project a b fa fb) (k + 1) := by
  have value := valueAt_succ slope
  have next := point_succ slope
  constructor
  · intro h
    obtain ⟨y, hy⟩ := Option.isSome_iff_exists.mp (h.defined 2 (by omega))
    refine ⟨⟨y, (value 1).symm.trans hy, h.far 1 (Nat.le_refl 1) (by omega) y hy⟩, ?_⟩
    refine ⟨fun j hj => ?_, fun j hj => ?_, fun j first hj => ?_, ?_, ?_⟩
    · rw [← value]
      exact h.defined (j + 1) (by omega)
    · rw [← value, ← value]
      exact h.sloped (j + 1) (by omega)
    · rw [← value]
      exact h.far (j + 1) (by omega) (by omega)
    · rw [← value]
      exact h.near
    · rw [Nat.add_sub_cancel, ← next, ← next, ← next]
      exact h.within
  · rintro ⟨⟨y, hy, away⟩, h⟩
    refine ⟨fun j hj => ?_, fun j hj => ?_, fun j first hj => ?_, ?_, ?_⟩
    · cases j with
      | zero => rw [valueAt_zero, slope.left]; rfl
      | succ j =>
        rw [value]
        exact h.defined j (by omega)
    · cases j with
      | zero =>
        rw [valueAt_zero, valueAt_one, slope.left, slope.right]
        rintro _ ⟨⟩ _ ⟨⟩
        exact slope.differ
      | succ j =>
        rw [value, value]
        exact h.sloped j (by omega)
    · rw [value]
      obtain - | - | j := j
      · omega
      · rw [valueAt_one, hy]
        rintro _ ⟨⟩
        exact away
      · exact h.far (j + 1) (by omega) (by omega)
    · rw [value]
      exact h.near
    · rw [show k + 2 - 1 = k + 1 from rfl, next, next, next]
      exact h.within

theorem visited_succ (slope : Slope f a b fa fb) (m : Nat) :
    visited f a b (m + 1) =
      [a, b, project a b fa fb].map some ++ visited f b (project a b fa fb) m := by
  rw [visited, List.range_succ_eq_map, List.flatMap_cons, List.flatMap_map]
  simp only [Nat.succ_eq_add_one, point_succ slope]
  rfl

/-- The first accepted projection, with at most `n` more windows behind the first, is `r`. -/
def Finds (f : α → Option α) (tolerance : α) (n : Nat) (a b r : α) : Prop :=
  ∃ k ≤ n, Accepts f tolerance a b (k + 1) ∧ point f a b (k + 2) = some r

theorem Finds.exists_slope {n : Nat} {r : α} (h : Finds f tolerance n a b r) :
    ∃ fa fb, Slope f a b fa fb := by
  obtain ⟨k, -, accepted, -⟩ := h
  exact accepted.exists_slope

/-- It is the projection from the first window, or that one is too far from a root and it is found
from the next window. -/
theorem finds_iff (slope : Slope f a b fa fb) {n : Nat} {r : α} :
    Finds f tolerance n a b r ↔ ∃ y, f (project a b fa fb) = some y ∧
      (Scalar.abs y ≤ tolerance ∧ (a ≤ project a b fa fb ∧ project a b fa fb ≤ b) ∧
          project a b fa fb = r ∨
        ¬ Scalar.abs y ≤ tolerance ∧ ∃ m, n = m + 1 ∧ Finds f tolerance m b (project a b fa fb) r)
    := by
  constructor
  · rintro ⟨k, bound, accepted, projection⟩
    cases k with
    | zero =>
      obtain ⟨⟨y, value, close⟩, within⟩ := (accepts_one_iff slope).mp accepted
      rw [point_two slope] at projection
      exact ⟨y, value, .inl ⟨close, within, Option.some.inj projection⟩⟩
    | succ k =>
      obtain ⟨⟨y, value, away⟩, accepted⟩ := (accepts_succ_iff slope k).mp accepted
      obtain ⟨m, rfl⟩ := Nat.exists_eq_add_one.mpr (show 0 < n by omega)
      rw [point_succ slope] at projection
      exact ⟨y, value, .inr ⟨away, m, rfl, k, by omega, accepted, projection⟩⟩
  · rintro ⟨y, value, ⟨close, within, rfl⟩ | ⟨away, m, rfl, k, bound, accepted, projection⟩⟩
    · exact ⟨0, Nat.zero_le n, (accepts_one_iff slope).mpr ⟨⟨y, value, close⟩, within⟩,
        point_two slope⟩
    · refine ⟨k + 1, by omega, (accepts_succ_iff slope k).mpr ⟨⟨y, value, away⟩, accepted⟩, ?_⟩
      rw [point_succ slope]
      exact projection

end Shift

/-! ## A run -/

variable {f tolerance}

/-- The induction is on the number of further windows: the sequence from the second window on is
that of the run behind the first. -/
theorem iterate_root {remaining step : Nat} {a b r : α} {past : Array (Event α)} :
    (iterate f tolerance remaining step a b past).root = some r ↔
      Finds f tolerance remaining a b r := by
  induction remaining using Nat.strongRecOn generalizing step a b past with
  | ind remaining ih =>
    have unfolds := iterate_unfolds f tolerance remaining step a b past
    generalize iterate f tolerance remaining step a b past = run at unfolds
    cases unfolds with
    | level flat root =>
      rw [root]
      refine ⟨nofun, fun finds => ?_⟩
      obtain ⟨fa, fb, slope⟩ := finds.exists_slope
      exact absurd slope (flat fa fb)
    | absent slope value root => simp [root, finds_iff slope, value]
    | near slope value close root =>
      rw [root, finds_iff slope]
      simp [value, close]
    | exhausted slope value away last root => simp [root, finds_iff slope, value, away, last]
    | onward slope value away more =>
      rw [ih _ (by omega), finds_iff slope]
      simp [value, away, more]

/-- The evaluations of a run: `m` windows with their projections, and perhaps a last one that is
level, or has an absent value. -/
theorem iterate_samples (remaining step : Nat) (a b : α) (past : Array (Event α)) :
    ∃ m l, (iterate f tolerance remaining step a b past).samples = samplesOf past ++ l ∧
      (m ≤ remaining + 1 ∧ l.map some = visited f a b m ∨
        m ≤ remaining ∧ l.map some = visited f a b m ++ [point f a b m, point f a b (m + 1)]) := by
  induction remaining using Nat.strongRecOn generalizing step a b past with
  | ind remaining ih =>
    have unfolds := iterate_unfolds f tolerance remaining step a b past
    generalize iterate f tolerance remaining step a b past = run at unfolds
    -- a window with a projection, behind which nothing is evaluated
    have whole {fa fb} (slope : Slope f a b fa fb) :
        [a, b, project a b fa fb].map some = visited f a b 1 := by
      rw [visited_succ slope]
      rfl
    cases unfolds with
    | level flat root samples => exact ⟨0, _, samples, .inr ⟨Nat.zero_le _, rfl⟩⟩
    | absent slope value root samples =>
      exact ⟨1, _, samples, .inl ⟨by omega, whole slope⟩⟩
    | near slope value close root samples => exact ⟨1, _, samples, .inl ⟨by omega, whole slope⟩⟩
    | exhausted slope value away last root samples =>
      exact ⟨1, _, samples, .inl ⟨by omega, whole slope⟩⟩
    | @onward fa fb y n step events slope value away more samples =>
      obtain ⟨m, l, rest, points⟩ := ih n (by omega) step b (project a b fa fb) events
      refine ⟨m + 1, _, by rw [rest, samples, List.append_assoc], ?_⟩
      rw [List.map_append, visited_succ slope, List.append_assoc, List.append_cancel_left_eq,
        List.append_cancel_left_eq, point_succ slope, point_succ slope]
      exact points.imp (fun h => ⟨by omega, h.2⟩) fun h => ⟨by omega, h.2⟩

theorem length_visited (f : α → Option α) (a b : α) (m : Nat) :
    (visited f a b m).length = 3 * m := by
  rw [visited, List.length_flatMap]
  show ((List.range m).map fun _ => 3).sum = 3 * m
  rw [List.map_const', List.sum_replicate_nat, List.length_range, Nat.mul_comm]

theorem Accepts.exists_point {k : Nat} {a b : α} (h : Accepts f tolerance a b k) :
    ∃ r, point f a b (k + 1) = some r ∧ ∃ y, f r = some y ∧ Scalar.abs y ≤ tolerance := by
  obtain ⟨y, hy⟩ := Option.isSome_iff_exists.mp (h.defined (k + 1) (Nat.le_refl _))
  obtain ⟨r, projection, value⟩ := Option.bind_eq_some_iff.mp hy
  exact ⟨r, projection, y, value, h.near y hy⟩

section Whole

variable {iterations : Nat} {a b : α}

/-- A run without any window allowed still has one. -/
theorem run_root_iff {r : α} : (run f tolerance iterations a b).root = some r ↔
    ∃ k, 1 ≤ k ∧ k ≤ max 1 iterations ∧ Accepts f tolerance a b k ∧
      point f a b (k + 1) = some r := by
  rw [run, iterate_root]
  constructor
  · rintro ⟨k, bound, accepted⟩
    exact ⟨k + 1, by omega, by omega, accepted⟩
  · rintro ⟨k, first, bound, accepted⟩
    obtain ⟨k, rfl⟩ := Nat.exists_eq_add_one.mpr first
    exact ⟨k, by omega, accepted⟩

theorem run_root_eq_none_iff : (run f tolerance iterations a b).root = none ↔
    ∀ k, 1 ≤ k → k ≤ max 1 iterations → ¬ Accepts f tolerance a b k := by
  constructor
  · intro none k first bound accepted
    obtain ⟨r, projection, -⟩ := accepted.exists_point
    have found := run_root_iff.mpr ⟨k, first, bound, accepted, projection⟩
    rw [none] at found
    cases found
  · intro refused
    cases found : (run f tolerance iterations a b).root with
    | none => rfl
    | some r =>
      obtain ⟨k, first, bound, accepted, -⟩ := run_root_iff.mp found
      exact absurd accepted (refused k first bound)

/-- A root has a value within the tolerance. -/
theorem exists_value_of_root {r : α} (h : (run f tolerance iterations a b).root = some r) :
    ∃ y, f r = some y ∧ Scalar.abs y ≤ tolerance := by
  obtain ⟨k, -, -, accepted, projection⟩ := run_root_iff.mp h
  obtain ⟨r', projection', root⟩ := accepted.exists_point
  rwa [Option.some.inj (projection.symm.trans projection')]

variable (f tolerance iterations a b)

theorem run_unfolds :
    Unfolds f tolerance (iterations - 1) a b [] (run f tolerance iterations a b) :=
  iterate_unfolds f tolerance (iterations - 1) 1 a b #[]

/-- The evaluations of a run: at most as many windows with their projections as are allowed, or one,
and perhaps the ends of one more. -/
theorem run_samples : ∃ m ≤ max 1 iterations,
    (run f tolerance iterations a b).samples.map some = visited f a b m ∨
    m < max 1 iterations ∧ (run f tolerance iterations a b).samples.map some =
      visited f a b m ++ [point f a b m, point f a b (m + 1)] := by
  obtain ⟨m, l, samples, points⟩ := @iterate_samples α _ f tolerance (iterations - 1) 1 a b #[]
  have samples : (run f tolerance iterations a b).samples = l := samples
  rw [samples]
  exact ⟨m, by omega, points.imp And.right fun h => ⟨by omega, h.2⟩⟩

theorem length_samples_le : (run f tolerance iterations a b).samples.length ≤
    3 * max 1 iterations := by
  rw [← List.length_map (f := some)]
  obtain ⟨m, bound, whole | ⟨more, level⟩⟩ := run_samples f tolerance iterations a b
  · rw [whole, length_visited]
    omega
  · rw [level, List.length_append, length_visited, List.length_cons, List.length_singleton]
    omega

end Whole

/-- The run returns the first projection that is accepted, if it is one of those allowed, and
nothing else. It makes at most as many projections as are allowed, or one, and evaluates its
function at most three times as often. -/
theorem returns_first_accepted (f : α → Option α) (tolerance : α) (iterations : Nat) (a b : α) :
    (∀ r, (run f tolerance iterations a b).root = some r ↔
      ∃ k, 1 ≤ k ∧ k ≤ max 1 iterations ∧ Accepts f tolerance a b k ∧
        point f a b (k + 1) = some r) ∧
    ((run f tolerance iterations a b).root = none ↔
      ∀ k, 1 ≤ k → k ≤ max 1 iterations → ¬ Accepts f tolerance a b k) ∧
    (∃ m ≤ max 1 iterations,
      (run f tolerance iterations a b).samples.map some = visited f a b m ∨
      m < max 1 iterations ∧ (run f tolerance iterations a b).samples.map some =
        visited f a b m ++ [point f a b m, point f a b (m + 1)]) ∧
    (run f tolerance iterations a b).samples.length ≤ 3 * max 1 iterations :=
  ⟨fun _ => run_root_iff, run_root_eq_none_iff, run_samples f tolerance iterations a b,
    length_samples_le f tolerance iterations a b⟩

end FunctionCalculator.Secant
