import Machine32.Machine.Basic

/-!
# Running a machine

A machine runs until it leaves its program, has executed as many instructions
as it may, or meets a trap. A run without limit may go on forever, so `run`
asks how many instructions are worth trying and gives no answer if those are
not enough. An answer does not depend on that number.
-/

namespace Machine32

/-- Why a run stopped. -/
inductive HaltReason where
  /-- The machine left its program. -/
  | endOfProgram
  /-- The machine executed as many instructions as it may. -/
  | cycleLimit
  deriving DecidableEq, Inhabited

/-- The name of a halt reason. -/
def HaltReason.name : HaltReason → String
  | endOfProgram => "EndOfProgram"
  | cycleLimit => "CycleLimit"

/-- What is reported about a run. -/
structure RunResult where
  cycles : Nat
  haltReason : HaltReason
  memoryFaults : Nat
  ip : Address
  stackDepth : Nat
  deriving DecidableEq, Inhabited

namespace Machine

variable (m : Machine)

/-- Why a run would stop here before trying the next instruction, if it would. -/
def halted? : Option HaltReason :=
  if !m.state.running then some .endOfProgram
  else if m.maxCycles.any (· ≤ m.state.cycles) then some .cycleLimit
  else none

/-- The report of a run that stopped here. -/
def result (reason : HaltReason) : RunResult where
  cycles := m.state.cycles
  haltReason := reason
  memoryFaults := m.state.memory.faults
  ip := m.state.registers.ip
  stackDepth := m.state.depth

/-- Executes the next instruction, if the machine is in its program. A trap
    leaves a machine behind, too. -/
def step : Except (Trap × Machine) (Option (Instruction × Machine)) :=
  if m.state.running then
    match m.state.step with
    | .error stop => .error (stop.trap, { m with state := stop.state })
    | .ok (i, state) => .ok (some (i, { m with state }))
  else .ok none

/-- Runs the machine for at most `fuel` instructions. -/
def run : (fuel : Nat) → Machine → Option (Machine × Except Trap RunResult)
  | fuel, m =>
    match m.halted? with
    | some reason => some (m, .ok (m.result reason))
    | none =>
      match fuel with
      | 0 => none
      | fuel + 1 =>
        match m.state.step with
        | .error stop => some ({ m with state := stop.state }, .error stop.trap)
        | .ok (_, state) => run fuel { m with state }

end Machine

end Machine32
