import Machine32.Memory.Basic
import Machine32.Machine.Registers
import Machine32.Machine.Trap

/-!
# The state of a machine

What instructions act on: the registers, the memory, and the number of
instructions executed so far. The words from the stack pointer up to the end
of the stack segment are the stack, the last one pushed coming first.

* `State.push` lowers the stack pointer, and then fails without writing if it
  is below the stack segment;
* `State.pop` fails if the stack pointer is not below the end of the segment.
-/

namespace Machine32

/-- The state of a machine between two instructions. -/
structure State where
  registers : Registers
  memory : Memory
  /-- The number of instructions executed. -/
  cycles : Nat
  deriving DecidableEq

/-- A trap, and the state it leaves behind. -/
structure Stop where
  trap : Trap
  state : State
  deriving DecidableEq

namespace State

/-- The state when the machine is switched on with a given memory. -/
def initial (memory : Memory) : State where
  registers := .initial memory.layout
  memory := memory
  cycles := 0

instance : Inhabited State :=
  ⟨initial default⟩

variable (s : State)

/-- The value of a register. -/
def read (r : Register) : Word :=
  s.registers.read r

/-- The state `s` with a register set to a value. -/
def write (r : Register) (w : Word) : State :=
  { s with registers := s.registers.write r w }

/-- Reads the word at an address. -/
def load (a : Address) : Word × State :=
  let (w, memory) := s.memory.readWord a
  (w, { s with memory })

/-- The state `s` with a word written to an address. -/
def store (a : Address) (w : Word) : State :=
  { s with memory := s.memory.writeWord a w }

/-- The addresses the stack can take. -/
def stack : Segment :=
  s.memory.layout.segment .stack

/-- Pushes a word. -/
def push (w : Word) : Except Stop State :=
  let sp := s.registers.esp - 4
  let lowered := s.write .esp sp
  -- The pointer is compared before it is lowered, as it may wrap around then.
  if s.registers.esp.toNat < s.stack.start.toNat + Word.size then
    .error ⟨.stackOverflow sp, lowered⟩
  else .ok (lowered.store sp w)

/-- Pops a word. -/
def pop : Except Stop (Word × State) :=
  let sp := s.registers.esp
  if s.stack.stop ≤ sp then .error ⟨.stackUnderflow sp, s⟩
  else
    let (w, s) := s.load sp
    .ok (w, s.write .esp (sp + 4))

/-- The number of words on the stack. A stack pointer outside of the stack
    segment counts as the nearer end of it. -/
def depth : Nat :=
  let sp := max s.stack.start.toNat (min s.registers.esp.toNat s.stack.stop.toNat)
  (s.stack.stop.toNat - sp) / Word.size

end State

end Machine32
