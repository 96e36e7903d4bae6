import Machine32.Machine.Run
import Machine32.Proofs.Machine.Effects

/-!
# Runs

A run of a machine is the chain of its steps from one state to another, with
the instructions it executed and the states it executed them in.

* `State.step_eq_ok_iff`: a step executes the instruction it fetches;
* `Run.invariant`: what every step preserves holds after every run;
* `Run.iff_steps`: a run is determined by how many steps it takes;
* `Machine.run_iff`: the runs of a machine are those in its program.
-/

namespace Machine32

/-- An instruction, and the state it is executed in. -/
structure Event where
  state : State
  instruction : Instruction

namespace State

variable {s t : State} {i : Instruction} {stop : Stop}

/-- A step executes the instruction it fetches, and counts it. -/
theorem step_eq_ok_iff :
    s.step = .ok (i, t) ↔ s.fetch = .ok i ∧
      ∃ u, s.execute i = .ok u ∧ t = { u with cycles := u.cycles + 1 } := by
  rw [step]
  cases hf : s.fetch with
  | error trap => simp
  | ok j =>
    simp only [Except.bind_eq_ok_iff, Except.pure_eq_ok_iff, Prod.mk.injEq, Except.ok.injEq]
    constructor
    · rintro ⟨u, hu, rfl, rfl⟩
      exact ⟨rfl, u, hu, rfl⟩
    · rintro ⟨rfl, u, hu, rfl⟩
      exact ⟨u, hu, rfl, rfl⟩

/-- A step fails if the instruction it fetches does. -/
theorem step_eq_error_iff (hf : s.fetch = .ok i) :
    s.step = .error stop ↔ s.execute i = .error stop := by
  rw [step, hf]
  cases he : s.execute i <;> simp [he, bind, Except.bind, pure, Except.pure]

end State

/-- The steps from the state `s` to another one, the last one at the end. -/
inductive Run (s : State) : List Event → State → Prop
  | nil : Run s [] s
  | snoc {es : List Event} {t u : State} {i : Instruction} :
      Run s es t → t.step = .ok (i, u) → Run s (es ++ [⟨t, i⟩]) u

namespace Run

variable {s t : State} {es : List Event}

/-- What every step preserves holds after every run. -/
theorem invariant {P : List Event → State → Prop} (h : Run s es t) (hs : P [] s)
    (hstep : ∀ es t i u, P es t → t.step = .ok (i, u) → P (es ++ [⟨t, i⟩]) u) : P es t := by
  induction h with
  | nil => exact hs
  | snoc _ hu ih => exact hstep _ _ _ _ ih hu

/-- What every step with a property preserves holds after every run of such
    steps. -/
theorem invariant_of_forall {P : List Event → State → Prop} {Q : Event → Prop} (h : Run s es t)
    (hes : ∀ e ∈ es, Q e) (hs : P [] s)
    (hstep : ∀ es t i u, P es t → Q ⟨t, i⟩ → t.step = .ok (i, u) → P (es ++ [⟨t, i⟩]) u) :
    P es t := by
  refine h.invariant (P := fun es t => (∀ e ∈ es, Q e) → P es t) (fun _ => hs) ?_ hes
  intro es t i u ih hu hes
  obtain ⟨hes, hlast⟩ := List.forall_mem_append.1 hes
  exact hstep es t i u (ih hes) (hlast _ List.mem_cons_self) hu

end Run

/-- The events of the first `n` steps from a state, and the state after them,
    unless one of them fails. -/
def State.steps (s : State) : Nat → Except Stop (List Event × State)
  | 0 => .ok ([], s)
  | n + 1 => do
    let (es, t) ← s.steps n
    let (i, u) ← t.step
    return (es ++ [⟨t, i⟩], u)

namespace Run

variable {s t : State} {es : List Event}

theorem of_steps {n : Nat} (h : s.steps n = .ok (es, t)) : Run s es t := by
  induction n generalizing es t with
  | zero =>
    obtain ⟨rfl, rfl⟩ := Prod.mk.inj (Except.ok.inj h)
    exact .nil
  | succ n ih =>
    obtain ⟨⟨es', t'⟩, hes, h⟩ := Except.bind_eq_ok_iff.1 h
    obtain ⟨⟨i, u⟩, hu, h⟩ := Except.bind_eq_ok_iff.1 h
    obtain ⟨rfl, rfl⟩ := Prod.mk.inj (Except.ok.inj h)
    exact .snoc (ih hes) hu

/-- There is one run of a given number of steps, unless one of them fails. -/
theorem iff_steps : Run s es t ↔ s.steps es.length = .ok (es, t) := by
  refine ⟨fun h => ?_, of_steps⟩
  induction h with
  | nil => rfl
  | snoc _ hu ih =>
    rw [List.length_append, List.length_singleton]
    exact Except.bind_eq_ok_iff.2 ⟨_, ih, Except.bind_eq_ok_iff.2 ⟨_, hu, rfl⟩⟩

/-- A run goes through all smaller numbers of steps. -/
theorem exists_steps_of_le (h : Run s es t) {n : Nat} (hn : n ≤ es.length) :
    ∃ x, s.steps n = .ok x := by
  induction h with
  | nil =>
    rw [Nat.le_zero.1 hn]
    exact ⟨_, rfl⟩
  | @snoc es t u i h hu ih =>
    rw [List.length_append, List.length_singleton] at hn
    rcases Nat.le_or_eq_of_le_succ hn with hn | rfl
    · exact ih hn
    · have hsteps := iff_steps.1 (h.snoc hu)
      rw [List.length_append, List.length_singleton] at hsteps
      exact ⟨_, hsteps⟩

/-- The layout of memory and the end of the program stay what they are. -/
theorem memory_eq (h : Run s es t) :
    t.memory.layout = s.memory.layout ∧ t.memory.programEnd = s.memory.programEnd := by
  refine h.invariant (P := fun _ t => t.memory.layout = s.memory.layout ∧
    t.memory.programEnd = s.memory.programEnd) ⟨rfl, rfl⟩ ?_
  rintro _ t i u ⟨hl, hend⟩ hu
  obtain ⟨-, v, hv, rfl⟩ := State.step_eq_ok_iff.1 hu
  obtain ⟨hl', hend', -⟩ := State.execute_memory hv
  exact ⟨hl'.trans hl, hend'.trans hend⟩

end Run

namespace Machine

variable {m m' : Machine} {es : List Event} {i : Instruction}

/-- A machine executes instructions in its program only. -/
theorem step_eq_ok_some_iff :
    m.step = .ok (some (i, m')) ↔ m.state.running = true ∧ m.state.step = .ok (i, m'.state) ∧
      m' = { m with state := m'.state } := by
  rw [step]
  split
  · next h =>
    cases m.state.step with
    | error => simp
    | ok x =>
      simp only [Except.ok.injEq, Option.some.injEq, Prod.mk.injEq, h, true_and]
      constructor
      · rintro ⟨rfl, rfl⟩
        exact ⟨rfl, rfl⟩
      · rintro ⟨rfl, hm⟩
        exact ⟨rfl, hm.symm⟩
  · next h => simp [h]

theorem step_eq_error_iff {trap : Trap} :
    m.step = .error (trap, m') ↔ m.state.running = true ∧
      m.state.step = .error ⟨trap, m'.state⟩ ∧ m' = { m with state := m'.state } := by
  rw [step]
  split
  · next h =>
    cases m.state.step with
    | error stop =>
      simp only [Except.error.injEq, Prod.mk.injEq, h, true_and]
      constructor
      · rintro ⟨rfl, rfl⟩
        exact ⟨rfl, rfl⟩
      · rintro ⟨rfl, hm⟩
        exact ⟨rfl, hm.symm⟩
    | ok => simp
  · next h => simp [h]

/-- The steps of a machine, as long as it is in its program. -/
inductive Run (m : Machine) : List Event → Machine → Prop
  | nil : Run m [] m
  | snoc {es : List Event} {m' m'' : Machine} {i : Instruction} :
      Run m es m' → m'.step = .ok (some (i, m'')) → Run m (es ++ [⟨m'.state, i⟩]) m''

/-- The steps of a machine are those of its state that it takes in its
    program. -/
theorem run_iff :
    m.Run es m' ↔ Machine32.Run m.state es m'.state ∧
      (∀ e ∈ es, e.state.running = true) ∧ m' = { m with state := m'.state } := by
  constructor
  · intro h
    induction h with
    | nil => exact ⟨.nil, fun _ he => absurd he List.not_mem_nil, rfl⟩
    | snoc _ hstep ih =>
      obtain ⟨hrun, hes, heq⟩ := ih
      obtain ⟨hrunning, hstep, heq'⟩ := step_eq_ok_some_iff.1 hstep
      refine ⟨.snoc hrun hstep, List.forall_mem_append.2 ⟨hes, ?_⟩, heq'.trans (heq ▸ rfl)⟩
      exact List.forall_mem_singleton.2 hrunning
  · -- The machine is nothing but its state along the run.
    rintro ⟨hrun, hes, heq⟩
    generalize m'.state = t at hrun heq
    subst heq
    induction hrun with
    | nil => exact .nil
    | snoc _ hstep ih =>
      obtain ⟨hes, hlast⟩ := List.forall_mem_append.1 hes
      have hrunning := hlast _ List.mem_cons_self
      exact .snoc (ih hes) (step_eq_ok_some_iff.2 ⟨hrunning, hstep, rfl⟩)

end Machine

end Machine32
