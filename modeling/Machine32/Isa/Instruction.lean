import Machine32.Word
import Machine32.Isa.Register
import Machine32.Isa.Opcode

/-!
# Instructions

An opcode together with its operands. Immediates and addresses are words; an
immediate is signed only where an operation reads it so.
-/

namespace Machine32

/-- An instruction. -/
inductive Instruction where
  /-- Copy `src` to `dst`. -/
  | mov (dst src : Register)
  /-- Set `dst` to `imm`. -/
  | movImm (dst : Register) (imm : Word)
  /-- Read the word at `address` into `reg`. -/
  | load (reg : Register) (address : Address)
  /-- Write `reg` to the word at `address`. -/
  | store (address : Address) (reg : Register)
  /-- Set `dst` to `src₁ op src₂`. -/
  | alu (op : AluOp) (dst src₁ src₂ : Register)
  /-- Complement, push or pop `reg`. -/
  | unary (op : UnaryOp) (reg : Register)
  /-- Push the address of this instruction and go to `address`, on the
      condition of `op`. -/
  | jump (op : JumpOp) (address : Address)
  /-- Pop the address of a jump and go on behind it. -/
  | ret
  deriving DecidableEq, Inhabited

namespace Instruction

/-- The opcode of an instruction. -/
def opcode : Instruction → Opcode
  | mov .. => .mov
  | movImm .. => .movImm
  | load .. => .load
  | store .. => .store
  | alu op .. => .alu op
  | unary op _ => .unary op
  | jump op _ => .jump op
  | ret => .ret

/-- The length of the longest instructions. -/
def maxLength : Nat := 8

/-- The length of an instruction in bytes. -/
def length (i : Instruction) : Nat :=
  i.opcode.length

/-- The address an instruction may jump to. -/
def target? : Instruction → Option Address
  | jump _ address => some address
  | _ => none

/-- The three-register instruction with a given opcode, if it is one. -/
def alu? (opcode : Opcode) (dst src₁ src₂ : Register) : Option Instruction :=
  match opcode with
  | .alu op => some (alu op dst src₁ src₂)
  | _ => none

/-- The single-register instruction with a given opcode, if it is one. -/
def unary? (opcode : Opcode) (reg : Register) : Option Instruction :=
  match opcode with
  | .unary op => some (unary op reg)
  | _ => none

/-- The jump with a given opcode, if it is one. -/
def jump? (opcode : Opcode) (address : Address) : Option Instruction :=
  match opcode with
  | .jump op => some (jump op address)
  | _ => none

theorem length_eq (i : Instruction) : i.length = 4 ∨ i.length = 8 :=
  i.opcode.length_eq

theorem length_pos (i : Instruction) : 0 < i.length := by
  rcases i.length_eq with h | h <;> omega

theorem length_le_maxLength (i : Instruction) : i.length ≤ maxLength := by
  rcases i.length_eq with h | h <;> simp [h, maxLength]

end Instruction

end Machine32
