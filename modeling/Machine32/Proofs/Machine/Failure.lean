import Machine32.Proofs.Machine.Running

/-!
# What a failed step leaves behind

A step that fails changes nothing, but that a push for which there is no room has
lowered the stack pointer already.

* `Stop.Spares` says so of a trap and the state it leaves;
* `step_spares`: it holds of every step that fails;
* `step_failure_atomic`: and so a run that fails leaves the state that it has
  reached by the steps it took.
-/

namespace Machine32

/-- The trap leaves the state `s` as it is, except for the stack pointer, and
    that too unless it is a stack overflow. -/
structure Stop.Spares (stop : Stop) (s : State) : Prop where
  state : stop.state = { s with registers.esp := stop.state.registers.esp }
  overflow : ∀ sp, stop.trap = .stackOverflow sp →
    sp = s.registers.esp - 4 ∧ stop.state.registers.esp = sp
  other : (∀ sp, stop.trap ≠ .stackOverflow sp) →
    stop.state.registers.esp = s.registers.esp

namespace State

variable {s : State} {stop : Stop}

theorem spares_self {trap : Trap} (h : ∀ sp, trap ≠ .stackOverflow sp) :
    Stop.Spares ⟨trap, s⟩ s where
  state := rfl
  overflow sp heq := absurd heq (h sp)
  other _ := rfl

/-- An instruction is not fetched if its bytes are not decoded. -/
theorem fetch_eq_error_iff {trap : Trap} : s.fetch = .error trap ↔ ∃ e,
    Instruction.decode (s.memory.window s.registers.ip Instruction.maxLength) = .error e ∧
      trap = .ofDecodeError s.registers.ip e :=
  Except.mapError_eq_error_iff

/-- A step fails to fetch its instruction, or to execute it. -/
theorem step_error_iff :
    s.step = .error stop ↔ (∃ trap, s.fetch = .error trap ∧ stop = ⟨trap, s⟩) ∨
      ∃ i, s.fetch = .ok i ∧ s.execute i = .error stop := by
  cases hf : s.fetch with
  | ok i => simp [step_eq_error_iff hf]
  | error trap => simp [step, hf, eq_comm]

/-- A step that fails leaves the state as it is, but for a lowered stack
    pointer. -/
theorem step_spares (h : s.step = .error stop) : stop.Spares s := by
  rcases step_error_iff.1 h with ⟨trap, hf, rfl⟩ | ⟨i, -, he⟩
  · obtain ⟨e, -, rfl⟩ := fetch_eq_error_iff.1 hf
    refine spares_self fun sp => ?_
    cases e <;> exact nofun
  · rcases execute_error_cases he with rfl | rfl | rfl
    · refine ⟨rfl, ?_, fun h => absurd rfl (h _)⟩
      rintro sp ⟨⟩
      exact ⟨rfl, rfl⟩
    · exact spares_self nofun
    · exact spares_self nofun

theorem step_error_memory (h : s.step = .error stop) : stop.state.memory = s.memory := by
  have hmemory := congrArg memory (step_spares h).state
  exact hmemory

end State

/-- A step that fails leaves memory, the count of instructions and all registers
    as they are, except that a stack overflow has lowered the stack pointer. So
    a run that fails leaves the machine as it was after the instructions that it
    executed, with this exception. -/
theorem step_failure_atomic :
    (∀ (s : State) (stop : Stop), s.step = .error stop → stop.Spares s) ∧
      ∀ (m m' : Machine) (trap : Trap), m.Returns (m', .error trap) →
        ∃ es m'', m.Run es m'' ∧ m''.step = .error (trap, m') ∧
          Stop.Spares ⟨trap, m'.state⟩ m''.state ∧ m' = { m'' with state := m'.state } := by
  refine ⟨fun _ _ h => State.step_spares h, fun m m' trap h => ?_⟩
  obtain ⟨es, m'', hrun, hstep⟩ := h.exists_step_error
  obtain ⟨-, hs, hm⟩ := Machine.step_eq_error_iff.1 hstep
  exact ⟨es, m'', hrun, hstep, State.step_spares hs, hm⟩

/-- A memory with room for the sample text and one word on the stack. -/
def Source.narrowLayout : Layout where
  programSize := 40
  dataSize := 4
  stackSize := 4
  aligned := by decide
  nonempty := by decide
  total_lt := by decide

/-- The sample program calls its function on a full stack. -/
theorem step_failure_atomic_sample :
    ∃ m es m' m'',
      (Machine.boot Source.narrowLayout none).loadProgram Source.sampleProgram = .ok m ∧
      m.Returns (m', .error (.stackOverflow 40)) ∧ m.Run es m'' ∧
      m'.state = { m''.state with registers.esp := 40 } ∧ m''.state.registers.esp = 44 := by
  have hcheck : (((Machine.boot Source.narrowLayout none).loadProgram
      Source.sampleProgram).toOption.any fun m => (m.run 5).any fun x =>
        decide (x.2 = .error (.stackOverflow 40))) = true := by
    decide +kernel
  obtain ⟨m, hload, hcheck⟩ := Except.any_toOption_iff.1 hcheck
  obtain ⟨⟨m', _⟩, hfails, hcheck⟩ := (Option.any_eq_true ..).1 hcheck
  obtain rfl := of_decide_eq_true hcheck
  obtain ⟨es, m'', hrun, -, hspares, -⟩ := step_failure_atomic.2 m m' _ ⟨5, hfails⟩
  obtain ⟨hsp, hesp⟩ := hspares.overflow 40 rfl
  refine ⟨m, es, m', m'', hload, ⟨5, hfails⟩, hrun, ?_, ?_⟩
  · exact hspares.state.trans (by rw [hesp])
  · rw [← UInt32.sub_add_cancel m''.state.registers.esp 4, ← hsp]
    rfl

end Machine32
