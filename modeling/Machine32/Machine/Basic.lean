import Machine32.Memory.Image
import Machine32.Machine.Execute
import Machine32.Assembly.Assembler

/-!
# Machines

A machine is a state, the program loaded into it, and how many instructions it
may execute. Loading a program clears whatever was there before; a program that
cannot be loaded leaves the machine as it is.
-/

namespace Machine32

/-- Why a text or a program is not loaded. -/
inductive LoadError where
  | assembly (error : AssemblyError)
  | imageTooLarge (error : ImageTooLarge)
  deriving DecidableEq

namespace LoadError

/-- The text of a loading error. -/
def message : LoadError → String
  | assembly e => "Assembly failed: " ++ e.message
  | imageTooLarge e => e.message

end LoadError

/-- A machine. -/
structure Machine where
  state : State
  /-- The number of instructions after which a run stops, if there is one. -/
  maxCycles : Option Nat
  /-- The loaded program. -/
  program : Option Program
  deriving DecidableEq, Inhabited

namespace Machine

/-- A machine that has just been switched on. -/
def boot (layout : Layout) (maxCycles : Option Nat) : Machine where
  state := .initial (.zero layout)
  maxCycles := maxCycles
  program := none

variable (m : Machine)

/-- The layout of the memory of a machine. -/
def layout : Layout :=
  m.state.memory.layout

/-- Loads a program, as far as `Memory.load` takes it in. -/
def loadProgram (p : Program) : Except LoadError Machine :=
  match m.state.memory.reset.load p with
  | .error e => .error (.imageTooLarge e)
  | .ok memory => .ok { m with state := .initial memory, program := some p }

/-- Loads the program that a text describes. -/
def loadSource (source : String) : Except LoadError Machine :=
  match assemble m.layout source with
  | .error e => .error (.assembly e)
  | .ok p => m.loadProgram p

/-- The machine switched off and on again. -/
def reset : Machine :=
  boot m.layout m.maxCycles

end Machine

end Machine32
