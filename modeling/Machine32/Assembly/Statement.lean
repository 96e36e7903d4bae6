import Machine32.Isa.Instruction
import Machine32.Assembly.SymbolTable

/-!
# Statements

The instruction a mnemonic and the values of its operands make up. The kinds of
the operands tell the two forms of `MOV` apart. An arithmetic instruction names
its destination first; with two operands the destination is also the first
source.
-/

namespace Machine32.Instruction

/-- The instruction with a given opcode, up to the form of `MOV`, and the given
    operands, if they are of the kinds the opcode asks for. -/
def ofOperands? (opcode : Opcode) (operands : List Value) : Option Instruction :=
  match opcode, operands with
  | .mov, [.register dst, .register src] => some (mov dst src)
  | .mov, [.register dst, .word imm] => some (movImm dst imm)
  | .load, [.register reg, .word address] => some (load reg address)
  | .store, [.word address, .register reg] => some (store address reg)
  | .alu op, [.register dst, .register src] => some (alu op dst dst src)
  | .alu op, [.register dst, .register src₁, .register src₂] => some (alu op dst src₁ src₂)
  | .unary op, [.register reg] => some (unary op reg)
  | .jump op, [.word address] => some (jump op address)
  | .ret, [] => some ret
  | _, _ => none

/-- The instruction with a given mnemonic and given operands. -/
def ofStatement (mnemonic : String) (operands : List Value) : Except Fault Instruction :=
  match Opcode.ofMnemonic? mnemonic with
  | none => .error (.unknownInstruction mnemonic)
  | some opcode =>
    match ofOperands? opcode operands with
    | none => .error (.invalidOperands opcode)
    | some i => .ok i

end Machine32.Instruction
