import Machine32.Layout
import Machine32.Isa.Register

/-!
# The register file

The values of the registers. The zero flag is a truth value, which an
instruction sees as the word `0` or `1`, and which any word but `0` sets.
-/

namespace Machine32

/-- The values of the registers. -/
structure Registers where
  eax : Word
  ebx : Word
  ecx : Word
  edx : Word
  esi : Word
  edi : Word
  /-- The address of the top of the stack. -/
  esp : Word
  ebp : Word
  /-- The address of the next instruction. -/
  ip : Address
  zeroFlag : Bool
  deriving DecidableEq, Inhabited

namespace Registers

/-- The registers when the machine is switched on: the stack is empty and
    execution begins at the start of memory. -/
def initial (l : Layout) : Registers where
  eax := 0
  ebx := 0
  ecx := 0
  edx := 0
  esi := 0
  edi := 0
  esp := l.total
  ebp := 0
  ip := 0
  zeroFlag := false

/-- The value of a register. -/
def read (s : Registers) : Register → Word
  | .eax => s.eax
  | .ebx => s.ebx
  | .ecx => s.ecx
  | .edx => s.edx
  | .esi => s.esi
  | .edi => s.edi
  | .esp => s.esp
  | .ebp => s.ebp
  | .ip => s.ip
  | .zf => bif s.zeroFlag then 1 else 0

/-- The values `s` with a register set to a value. -/
def write (s : Registers) (r : Register) (w : Word) : Registers :=
  match r with
  | .eax => { s with eax := w }
  | .ebx => { s with ebx := w }
  | .ecx => { s with ecx := w }
  | .edx => { s with edx := w }
  | .esi => { s with esi := w }
  | .edi => { s with edi := w }
  | .esp => { s with esp := w }
  | .ebp => { s with ebp := w }
  | .ip => { s with ip := w }
  | .zf => { s with zeroFlag := w != 0 }

theorem read_write_of_ne (s : Registers) {r q : Register} (h : q ≠ r) (w : Word) :
    (s.write r w).read q = s.read q := by
  cases r <;> cases q <;> simp_all [read, write]

theorem read_write_self (s : Registers) {r : Register} (h : r ≠ .zf) (w : Word) :
    (s.write r w).read r = w := by
  cases r <;> simp_all [read, write]

end Registers

end Machine32
