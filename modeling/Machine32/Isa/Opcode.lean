import Machine32.Ascii

/-!
# Opcodes

An instruction begins with an opcode byte, which fixes its *shape*: the
operands it takes, how they are laid out, and with that its length. The
opcodes of one shape differ in the operation only, so the operations of the
two- and three-register arithmetic (`AluOp`), of the single-register
instructions (`UnaryOp`) and of the jumps (`JumpOp`) are types of their own.

Every jump pushes its own address when it is taken, so that a return can come
back behind it.
-/

namespace Machine32

/-- An operation on two registers, the result going to a third. -/
inductive AluOp where
  | add
  | sub
  | mul
  /-- Division of the two's complement readings, toward zero. -/
  | div
  | and
  | or
  | xor
  deriving DecidableEq, Inhabited

/-- An operation on a single register. -/
inductive UnaryOp where
  /-- Bitwise complement. -/
  | not
  | push
  | pop
  deriving DecidableEq, Inhabited

/-- A jump to an address, with the condition for taking it. -/
inductive JumpOp where
  /-- Always. -/
  | jmp
  /-- If the zero flag is set. -/
  | jz
  /-- If the zero flag is clear. -/
  | jnz
  /-- Always, by convention to a function. -/
  | call
  deriving DecidableEq, Inhabited

/-- What an instruction does, apart from its operands. -/
inductive Opcode where
  /-- Register to register. -/
  | mov
  /-- Immediate word to register. -/
  | movImm
  /-- Memory to register. -/
  | load
  /-- Register to memory. -/
  | store
  | alu (op : AluOp)
  | unary (op : UnaryOp)
  | jump (op : JumpOp)
  /-- Back behind the jump whose address is on top of the stack. -/
  | ret
  deriving DecidableEq, Inhabited

/-- How the operands of an instruction are laid out behind its opcode byte. -/
inductive Shape where
  /-- Destination, source, one byte of padding. -/
  | registerMove
  /-- A register, two bytes of padding, a word. -/
  | registerWide
  /-- First source, second source, destination. -/
  | alu
  /-- A register, two bytes of padding. -/
  | unary
  /-- Three bytes of padding, a word. -/
  | jump
  /-- Three bytes of padding. -/
  | ret
  deriving DecidableEq, Inhabited

/-- The length in bytes of an instruction of a given shape. -/
def Shape.length : Shape → Nat
  | registerMove | alu | unary | ret => 4
  | registerWide | jump => 8

namespace AluOp

/-- Whether the operation sets the zero flag from its result. -/
def setsZeroFlag : AluOp → Bool
  | add | sub | mul | div => true
  | and | or | xor => false

end AluOp

namespace Opcode

/-- All opcodes, in the order of their bytes. -/
def all : List Opcode :=
  [mov, movImm, load, store,
   alu .add, alu .sub, alu .mul, alu .div,
   alu .and, alu .or, alu .xor, unary .not,
   jump .jmp, jump .jz, jump .jnz, jump .call, ret,
   unary .push, unary .pop]

/-- The byte an instruction begins with. -/
def byte : Opcode → UInt8
  | mov => 0x01
  | movImm => 0x02
  | load => 0x03
  | store => 0x04
  | alu .add => 0x10
  | alu .sub => 0x11
  | alu .mul => 0x12
  | alu .div => 0x13
  | alu .and => 0x20
  | alu .or => 0x21
  | alu .xor => 0x22
  | unary .not => 0x23
  | jump .jmp => 0x30
  | jump .jz => 0x31
  | jump .jnz => 0x32
  | jump .call => 0x33
  | ret => 0x34
  | unary .push => 0x40
  | unary .pop => 0x41

/-- The shape of the instructions with a given opcode. -/
def shape : Opcode → Shape
  | mov => .registerMove
  | movImm | load | store => .registerWide
  | alu _ => .alu
  | unary _ => .unary
  | jump _ => .jump
  | ret => .ret

/-- The length in bytes of the instructions with a given opcode. -/
def length (op : Opcode) : Nat :=
  op.shape.length

/-- Whether the opcode sets the zero flag from its result. -/
def setsZeroFlag : Opcode → Bool
  | alu op => op.setsZeroFlag
  | _ => false

/-- Whether the opcode is a jump to an address, pushing its own. -/
def isJump : Opcode → Bool
  | jump _ => true
  | _ => false

/-- The word for an opcode in assembly text. The two forms of `MOV` share it. -/
def mnemonic : Opcode → String
  | mov | movImm => "MOV"
  | load => "LOAD"
  | store => "STORE"
  | alu .add => "ADD"
  | alu .sub => "SUB"
  | alu .mul => "MUL"
  | alu .div => "DIV"
  | alu .and => "AND"
  | alu .or => "OR"
  | alu .xor => "XOR"
  | unary .not => "NOT"
  | unary .push => "PUSH"
  | unary .pop => "POP"
  | jump .jmp => "JMP"
  | jump .jz => "JZ"
  | jump .jnz => "JNZ"
  | jump .call => "CALL"
  | ret => "RET"

/-- The opcode with a given byte. -/
def ofByte? (b : UInt8) : Option Opcode :=
  all.find? (·.byte == b)

/-- The opcode of a given mnemonic, in any letter case: the first of its forms,
    which for `MOV` is the one between registers. -/
def ofMnemonic? (s : String) : Option Opcode :=
  all.find? (·.mnemonic == Ascii.upper s)

/-- No opcode is left out of the table. -/
theorem mem_all (op : Opcode) : op ∈ all := by
  cases op with
  | alu op | unary op | jump op => cases op <;> decide
  | _ => decide

/-- An opcode is found by its byte. -/
@[simp] theorem ofByte?_byte (op : Opcode) : ofByte? op.byte = some op := by
  cases op with
  | alu op | unary op | jump op => cases op <;> rfl
  | _ => rfl

theorem ofByte?_eq_some_iff {b : UInt8} {op : Opcode} : ofByte? b = some op ↔ op.byte = b :=
  ⟨fun h => by simpa using List.find?_some h, fun h => h ▸ ofByte?_byte op⟩

theorem length_eq (op : Opcode) : op.length = 4 ∨ op.length = 8 := by
  cases op <;> simp [length, shape, Shape.length]

end Opcode

end Machine32
