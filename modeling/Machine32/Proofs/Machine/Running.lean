import Machine32.Proofs.Machine.Runs
import Machine32.Proofs.Assembly.Placement

/-!
# Running a machine

A machine runs by taking its steps up to the first state where it stops:

* a run *returns* what it gives for any number of instructions worth trying,
  as it gives the same for all numbers that are enough (`Returns.unique`);
* the machine *stops* where it has left its program, may not execute another
  instruction, or fails to execute the next one, and a chain of steps leads to
  the first such state (`StopsAfter`) or goes on (`exists_stopsAfter_or_run`);
* `returns_iff_of_stopsAfter`: what a run returns is what it returns from there;
* `run_eq_iterated_steps`: which is the report of that state, or the trap of the
  step that fails there.
-/

namespace Machine32.Machine

variable {m m' m'' : Machine} {es es' : List Event} {fuel : Nat} {trap : Trap}
  {i : Instruction} {reason : HaltReason} {x y : Machine × Except Trap RunResult}

/-- The machine has executed as many instructions as it may. -/
def AtLimit (m : Machine) : Prop :=
  ∃ limit, m.maxCycles = some limit ∧ limit ≤ m.state.cycles

/-- The machine does not go on from here: it has left its program, may not
    execute another instruction, or fails to execute the next one. -/
def Stops (m : Machine) : Prop :=
  m.state.running = false ∨ m.AtLimit ∨ ∃ failure, m.step = .error failure

/-- The machine takes the steps `es` to the first state where it stops, and is
    `m'` there. -/
structure StopsAfter (m : Machine) (es : List Event) (m' : Machine) : Prop where
  run : m.Run es m'
  stops : m'.Stops
  least : ∀ es' m'', m.Run es' m'' → es'.length < es.length → ¬m''.Stops

/-- A run of the machine leaves the machine `x.1` and gives `x.2`. -/
def Returns (m : Machine) (x : Machine × Except Trap RunResult) : Prop :=
  ∃ fuel, m.run fuel = some x

/-- What a run leaves and gives that stops at the machine `m`: that the program
    has ended counts before the limit, and the limit before a failure. -/
structure Reports (m : Machine) (x : Machine × Except Trap RunResult) : Prop where
  /-- The trap of the next step, if that was to be executed, and what it leaves. -/
  trap_iff : ∀ m' trap, x = (m', .error trap) ↔
    m.state.running = true ∧ ¬m.AtLimit ∧ m.step = .error (trap, m')
  endOfProgram_iff : (∃ r, x.2 = .ok r ∧ r.haltReason = .endOfProgram) ↔ m.state.running = false
  cycleLimit_iff : (∃ r, x.2 = .ok r ∧ r.haltReason = .cycleLimit) ↔
    m.state.running = true ∧ m.AtLimit
  /-- The report is about the machine as it stands. -/
  report : ∀ r, x.2 = .ok r → x.1 = m ∧ r.cycles = m.state.cycles ∧ r.ip = m.state.registers.ip ∧
    r.memoryFaults = m.state.memory.faults ∧ r.stackDepth = m.state.depth

/-! ## Where a machine stops -/

theorem any_maxCycles_iff : m.maxCycles.any (· ≤ m.state.cycles) = true ↔ m.AtLimit := by
  rw [AtLimit]
  cases m.maxCycles <;> simp

theorem halted?_eq_some_iff : m.halted? = some reason ↔
    m.state.running = false ∧ reason = .endOfProgram ∨
      m.state.running = true ∧ m.AtLimit ∧ reason = .cycleLimit := by
  rw [halted?, ← any_maxCycles_iff]
  cases m.state.running <;> cases m.maxCycles.any (· ≤ m.state.cycles) <;> simp [eq_comm]

theorem halted?_eq_none_iff : m.halted? = none ↔ m.state.running = true ∧ ¬m.AtLimit := by
  rw [halted?, ← any_maxCycles_iff]
  cases m.state.running <;> cases m.maxCycles.any (· ≤ m.state.cycles) <;> simp

theorem stops_of_halted? (h : m.halted? = some reason) : m.Stops := by
  rcases halted?_eq_some_iff.1 h with ⟨hr, -⟩ | ⟨-, hlimit, -⟩
  · exact .inl hr
  · exact .inr (.inl hlimit)

/-- A run does not try the next instruction, or it fails there, or goes on. -/
theorem halted?_or_step (m : Machine) :
    (∃ reason, m.halted? = some reason) ∨ m.halted? = none ∧
      ((∃ trap m', m.step = .error (trap, m')) ∨ ∃ i m', m.step = .ok (some (i, m'))) := by
  rcases hhalted : m.halted? with _ | reason
  · have hr := (halted?_eq_none_iff.1 hhalted).1
    refine .inr ⟨rfl, ?_⟩
    rw [step, if_pos hr]
    cases m.state.step with
    | error stop => exact .inl ⟨_, _, rfl⟩
    | ok next => exact .inr ⟨_, _, rfl⟩
  · exact .inl ⟨reason, rfl⟩

/-- A machine that does not stop executes its next instruction. -/
theorem step_of_not_stops (h : ¬m.Stops) :
    m.halted? = none ∧ ∃ i m', m.step = .ok (some (i, m')) := by
  rcases m.halted?_or_step with ⟨_, hhalted⟩ | ⟨hhalted, ⟨_, _, hstep⟩ | hstep⟩
  · exact absurd (stops_of_halted? hhalted) h
  · exact absurd (.inr (.inr ⟨_, hstep⟩)) h
  · exact ⟨hhalted, hstep⟩

/-! ## What a run returns -/

theorem run_of_halted? (h : m.halted? = some reason) (fuel : Nat) :
    m.run fuel = some (m, .ok (m.result reason)) := by
  cases fuel <;> rw [run, h]

theorem run_of_error (h : m.halted? = none) (hs : m.step = .error (trap, m')) (fuel : Nat) :
    m.run (fuel + 1) = some (m', .error trap) := by
  obtain ⟨-, hs, hm⟩ := step_eq_error_iff.1 hs
  rw [run, h, hm]
  simp only [hs]

theorem run_of_ok (h : m.halted? = none) (hs : m.step = .ok (some (i, m'))) (fuel : Nat) :
    m.run (fuel + 1) = m'.run fuel := by
  obtain ⟨-, hs, hm⟩ := step_eq_ok_some_iff.1 hs
  rw [run, h, hm]
  simp only [hs]

/-- What a run returns does not depend on how many more instructions are worth
    trying. -/
theorem run_add (h : m.run fuel = some x) (n : Nat) : m.run (fuel + n) = some x := by
  induction fuel generalizing m with
  | zero =>
    rcases m.halted?_or_step with ⟨_, hhalted⟩ | ⟨hhalted, -⟩
    · rwa [run_of_halted? hhalted] at h ⊢
    · rw [run, hhalted] at h
      exact nomatch h
  | succ fuel ih =>
    rw [Nat.add_right_comm]
    rcases m.halted?_or_step with ⟨_, hhalted⟩ | ⟨hhalted, ⟨_, _, hstep⟩ | ⟨_, _, hstep⟩⟩
    · rwa [run_of_halted? hhalted] at h ⊢
    · rwa [run_of_error hhalted hstep] at h ⊢
    · rw [run_of_ok hhalted hstep] at h ⊢
      exact ih h

/-- A run returns one outcome, however much fuel it is given. -/
theorem Returns.unique (hx : m.Returns x) (hy : m.Returns y) : x = y := by
  obtain ⟨fuel, hx⟩ := hx
  obtain ⟨fuel', hy⟩ := hy
  have hx := run_add hx fuel'
  rw [Nat.add_comm, run_add hy fuel] at hx
  exact (Option.some.inj hx).symm

theorem reports_endOfProgram (hr : m.state.running = false) :
    m.Reports (m, .ok (m.result .endOfProgram)) where
  trap_iff _ _ := ⟨fun hx => (nomatch congrArg Prod.snd hx), fun h => nomatch hr.symm.trans h.1⟩
  endOfProgram_iff := ⟨fun _ => hr, fun _ => ⟨_, rfl, rfl⟩⟩
  cycleLimit_iff := by
    refine ⟨?_, fun h => nomatch hr.symm.trans h.1⟩
    rintro ⟨_, ⟨⟩, ⟨⟩⟩
  report := by
    rintro _ ⟨⟩
    exact ⟨rfl, rfl, rfl, rfl, rfl⟩

theorem reports_cycleLimit (hr : m.state.running = true) (hlimit : m.AtLimit) :
    m.Reports (m, .ok (m.result .cycleLimit)) where
  trap_iff _ _ := ⟨fun hx => (nomatch congrArg Prod.snd hx), fun h => absurd hlimit h.2.1⟩
  endOfProgram_iff := by
    refine ⟨?_, fun hr' => nomatch hr.symm.trans hr'⟩
    rintro ⟨_, ⟨⟩, ⟨⟩⟩
  cycleLimit_iff := ⟨fun _ => ⟨hr, hlimit⟩, fun _ => ⟨_, rfl, rfl⟩⟩
  report := by
    rintro _ ⟨⟩
    exact ⟨rfl, rfl, rfl, rfl, rfl⟩

theorem reports_trap (h : m.halted? = none) (hs : m.step = .error (trap, m')) :
    m.Reports (m', .error trap) where
  trap_iff m'' trap' := by
    constructor
    · rintro ⟨⟩
      obtain ⟨hr, hlimit⟩ := halted?_eq_none_iff.1 h
      exact ⟨hr, hlimit, hs⟩
    · rintro ⟨-, -, hs'⟩
      obtain ⟨rfl, rfl⟩ := Prod.mk.inj (Except.error.inj (hs.symm.trans hs'))
      rfl
  endOfProgram_iff := by
    refine ⟨?_, fun hr => nomatch (halted?_eq_none_iff.1 h).1.symm.trans hr⟩
    rintro ⟨_, ⟨⟩, -⟩
  cycleLimit_iff := by
    refine ⟨?_, fun hlimit => absurd hlimit.2 (halted?_eq_none_iff.1 h).2⟩
    rintro ⟨_, ⟨⟩, -⟩
  report := by rintro _ ⟨⟩

/-- A run of a machine that has stopped returns at once. -/
theorem Stops.exists_returns (h : m.Stops) : ∃ x, m.Returns x ∧ m.Reports x := by
  rcases m.halted?_or_step with ⟨_, hhalted⟩ | ⟨hhalted, ⟨_, _, hstep⟩ | ⟨_, _, hstep⟩⟩
  · refine ⟨_, ⟨0, run_of_halted? hhalted 0⟩, ?_⟩
    rcases halted?_eq_some_iff.1 hhalted with ⟨hr, rfl⟩ | ⟨hr, hlimit, rfl⟩
    · exact reports_endOfProgram hr
    · exact reports_cycleLimit hr hlimit
  · exact ⟨_, ⟨1, run_of_error hhalted hstep 0⟩, reports_trap hhalted hstep⟩
  · -- The machine does not stop here.
    obtain ⟨hr, hlimit⟩ := halted?_eq_none_iff.1 hhalted
    rcases h with hr' | hlimit' | ⟨_, hstep'⟩
    · exact nomatch hr.symm.trans hr'
    · exact absurd hlimit' hlimit
    · exact nomatch hstep.symm.trans hstep'

/-! ## The steps of a run -/

/-- A machine goes through the same steps whenever it takes as many. -/
theorem Run.unique (h : m.Run es m') (h' : m.Run es' m'') (hlength : es.length = es'.length) :
    es = es' ∧ m' = m'' := by
  obtain ⟨hrun, -, hm⟩ := run_iff.1 h
  obtain ⟨hrun', -, hm'⟩ := run_iff.1 h'
  have hsteps := Machine32.Run.iff_steps.1 hrun
  rw [hlength, Machine32.Run.iff_steps.1 hrun'] at hsteps
  obtain ⟨hes, hstate⟩ := Prod.mk.inj (Except.ok.inj hsteps)
  exact ⟨hes.symm, by rw [hm, hm', hstate]⟩

/-- A run returns the same from any state before the first one where the machine
    stops. -/
theorem Run.run_add (h : m.Run es m')
    (hes : ∀ es' m'', m.Run es' m'' → es'.length < es.length → ¬m''.Stops) (fuel : Nat) :
    m.run (es.length + fuel) = m'.run fuel := by
  induction h generalizing fuel with
  | nil => rw [List.length_nil, Nat.zero_add]
  | @snoc es m' m'' i h hs ih =>
    rw [List.length_append, List.length_singleton] at hes ⊢
    have hgoes := step_of_not_stops (hes es m' h (Nat.lt_succ_self _))
    rw [Nat.add_assoc, Nat.add_comm 1,
      ih (fun es' m'' h' hlt => hes es' m'' h' (Nat.lt_succ_of_lt hlt)),
      run_of_ok hgoes.1 hs]

/-- A run returns what it returns from where the machine stops. -/
theorem returns_iff_of_stopsAfter (h : m.StopsAfter es m') : m.Returns x ↔ m'.Returns x := by
  constructor
  · rintro ⟨fuel, hx⟩
    have hx := run_add hx es.length
    rw [Nat.add_comm, h.run.run_add h.least] at hx
    exact ⟨fuel, hx⟩
  · rintro ⟨fuel, hx⟩
    exact ⟨es.length + fuel, (h.run.run_add h.least fuel).trans hx⟩

/-- A machine stops within `n` steps, or goes on after them. -/
theorem exists_stopsAfter_or_run (m : Machine) (n : Nat) :
    (∃ es m', es.length ≤ n ∧ m.StopsAfter es m') ∨
      ∃ es m', es.length = n ∧ m.Run es m' ∧
        ∀ es' m'', m.Run es' m'' → es'.length ≤ n → ¬m''.Stops := by
  induction n with
  | zero =>
    by_cases hstops : m.Stops
    · exact .inl ⟨[], m, Nat.le_refl 0, .nil, hstops, fun _ _ _ hlt => nomatch hlt⟩
    · refine .inr ⟨[], m, rfl, .nil, fun es' m'' h hle => ?_⟩
      obtain ⟨-, rfl⟩ := Run.unique .nil h (Nat.le_zero.1 hle).symm
      exact hstops
  | succ n ih =>
    rcases ih with ⟨es, m', hle, h⟩ | ⟨es, m', hlength, h, hes⟩
    · exact .inl ⟨es, m', Nat.le_succ_of_le hle, h⟩
    · obtain ⟨-, i, m'', hstep⟩ := step_of_not_stops (hes es m' h (Nat.le_of_eq hlength))
      have hnext := Run.snoc h hstep
      have hlength' : (es ++ [Event.mk m'.state i]).length = n + 1 := by
        rw [List.length_append, hlength, List.length_singleton]
      by_cases hstops : m''.Stops
      · refine .inl ⟨_, m'', Nat.le_of_eq hlength', hnext, hstops, fun es' m₁ h' hlt => ?_⟩
        exact hes es' m₁ h' (by omega)
      · refine .inr ⟨_, m'', hlength', hnext, fun es' m₁ h' hle => ?_⟩
        rcases Nat.le_or_eq_of_le_succ hle with hle | heq
        · exact hes es' m₁ h' hle
        · obtain ⟨-, rfl⟩ := hnext.unique h' (hlength'.trans heq.symm)
          exact hstops

/-- A machine stops if it has taken less than `n` steps wherever it goes on. -/
theorem exists_stopsAfter_of_length_lt (n : Nat)
    (h : ∀ es m', m.Run es m' → ¬m'.Stops → es.length < n) : ∃ es m', m.StopsAfter es m' := by
  rcases m.exists_stopsAfter_or_run n with ⟨es, m', -, hstops⟩ | ⟨es, m', hlength, hrun, hes⟩
  · exact ⟨es, m', hstops⟩
  · have hlt := h es m' hrun (hes es m' hrun (Nat.le_of_eq hlength))
    exact absurd hlength (Nat.ne_of_lt hlt)

/-- A run that returns stops somewhere. -/
theorem Returns.exists_stopsAfter (h : m.Returns x) :
    ∃ es m', m.StopsAfter es m' ∧ m'.Reports x := by
  obtain ⟨fuel, hx⟩ := h
  rcases m.exists_stopsAfter_or_run fuel with ⟨es, m', -, hstops⟩ | ⟨es, m', rfl, h, hes⟩
  · obtain ⟨y, hy, hreports⟩ := hstops.stops.exists_returns
    obtain rfl := ((returns_iff_of_stopsAfter hstops).2 hy).unique ⟨fuel, hx⟩
    exact ⟨es, m', hstops, hreports⟩
  · -- The machine still goes on where it has tried all instructions worth trying.
    rw [← Nat.add_zero es.length, h.run_add fun es' m'' h' hlt => hes es' m'' h' (Nat.le_of_lt hlt),
      run, (step_of_not_stops (hes es m' h (Nat.le_refl _))).1] at hx
    exact nomatch hx

/-- A run that fails does so with the step from where it has got to. -/
theorem Returns.exists_step_error (h : m.Returns (m', .error trap)) :
    ∃ es m'', m.Run es m'' ∧ m''.step = .error (trap, m') := by
  obtain ⟨es, m'', hstops, hreports⟩ := h.exists_stopsAfter
  exact ⟨es, m'', hstops.run, ((hreports.trap_iff m' trap).1 rfl).2.2⟩

/-- Every step is counted, and the limit stays what it is. -/
theorem Run.cycles_eq (h : m.Run es m') :
    m'.maxCycles = m.maxCycles ∧ m'.state.cycles = m.state.cycles + es.length := by
  induction h with
  | nil => exact ⟨rfl, rfl⟩
  | snoc _ hs ih =>
    obtain ⟨-, hs, hm⟩ := step_eq_ok_some_iff.1 hs
    obtain ⟨-, u, hu, heq⟩ := State.step_eq_ok_iff.1 hs
    refine ⟨hm ▸ ih.1, ?_⟩
    rw [heq, List.length_append, List.length_singleton]
    exact congrArg (· + 1) ((State.execute_cycles hu).trans ih.2)

/-- A machine with a limit stops: it does not go on where it has executed as many
    instructions as it may. -/
theorem exists_stopsAfter_of_maxCycles {limit : Nat} (h : m.maxCycles = some limit) :
    ∃ es m', m.StopsAfter es m' := by
  refine exists_stopsAfter_of_length_lt limit fun es m' hrun hgoes => Nat.lt_of_not_le fun hle => ?_
  obtain ⟨hmax, hcycles⟩ := hrun.cycles_eq
  refine hgoes (.inr (.inl ⟨limit, hmax.trans h, ?_⟩))
  rw [hcycles]
  exact Nat.le_add_left_of_le hle

/-- Running a machine is taking its steps until it has left its program, has
    executed as many instructions as it may, or fails, and then reporting what
    is so in this order. With a limit that comes about, and without one a run
    returns only if it does. A machine that has run stays as it is when it runs
    again. -/
theorem run_eq_iterated_steps (m : Machine) :
    (∀ limit, m.maxCycles = some limit → ∃ es m', m.StopsAfter es m') ∧
      (∀ es m', m.StopsAfter es m' → ∃ x, (∀ y, m.Returns y ↔ y = x) ∧ m'.Reports x) ∧
      (∀ x, m.Returns x → ∃ es m', m.StopsAfter es m') ∧
      ∀ m' r, m.Returns (m', .ok r) → ∀ y, m'.Returns y ↔ y = (m', .ok r) := by
  refine ⟨fun _ h => exists_stopsAfter_of_maxCycles h, fun es m' h => ?_, fun x h => ?_,
    fun m' r h => ?_⟩
  · obtain ⟨x, hx, hreports⟩ := h.stops.exists_returns
    have hx := (returns_iff_of_stopsAfter h).2 hx
    exact ⟨x, fun y => ⟨fun hy => hy.unique hx, fun hy => hy ▸ hx⟩, hreports⟩
  · obtain ⟨es, m', h, -⟩ := h.exists_stopsAfter
    exact ⟨es, m', h⟩
  · -- The machine that is left is the one that stopped.
    obtain ⟨es, m₁, hstops, hreports⟩ := h.exists_stopsAfter
    obtain ⟨rfl, -⟩ := hreports.report r rfl
    have hagain := (returns_iff_of_stopsAfter hstops).1 h
    exact fun y => ⟨fun hy => hy.unique hagain, fun hy => hy ▸ hagain⟩

/-- The sample program leaves its code when it has executed all the instructions
    that it may: its run reports the end of the program. -/
theorem run_eq_iterated_steps_sample :
    ∃ m es m' r, (boot Source.sampleLayout (some 5)).loadProgram Source.sampleProgram = .ok m ∧
      m.StopsAfter es m' ∧ es.length = 5 ∧ m'.AtLimit ∧ (∀ y, m.Returns y ↔ y = (m', .ok r)) ∧
      r.haltReason = .endOfProgram ∧ r.cycles = 5 := by
  have hcheck : (((boot Source.sampleLayout (some 5)).loadProgram
      Source.sampleProgram).toOption.any fun m => (m.run 5).any fun x => x.2.toOption.any fun r =>
        decide (m.maxCycles = some 5 ∧ m.state.cycles = 0 ∧ r.haltReason = .endOfProgram ∧
          r.cycles = 5)) = true := by
    decide +kernel
  obtain ⟨m, hload, hcheck⟩ := Except.any_toOption_iff.1 hcheck
  obtain ⟨⟨m₁, _⟩, hrun, hcheck⟩ := (Option.any_eq_true ..).1 hcheck
  obtain ⟨r, rfl, hcheck⟩ := Except.any_toOption_iff.1 hcheck
  obtain ⟨hmax, hzero, hreason, hcycles⟩ := of_decide_eq_true hcheck
  obtain ⟨hstops, hreturns, -, -⟩ := run_eq_iterated_steps m
  obtain ⟨es, m', hafter⟩ := hstops 5 hmax
  obtain ⟨x, hx, hreports⟩ := hreturns es m' hafter
  obtain rfl := (hx _).1 ⟨5, hrun⟩
  obtain ⟨hm, hreport, -⟩ := hreports.report r rfl
  have hx : ∀ y, m.Returns y ↔ y = (m', .ok r) := hm ▸ hx
  obtain ⟨hmax', hlength⟩ := hafter.run.cycles_eq
  rw [← hreport, hcycles, hzero, Nat.zero_add] at hlength
  refine ⟨m, es, m', r, hload, hafter, hlength.symm, ⟨5, hmax'.trans hmax, ?_⟩, hx, hreason,
    hcycles⟩
  exact Nat.le_of_eq (hcycles.symm.trans hreport)

end Machine32.Machine
