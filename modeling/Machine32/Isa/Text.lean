import Machine32.Numeral
import Machine32.Isa.Instruction

/-!
# Instructions as text

The assembly text of an instruction, which the assembler reads back as that
instruction: the mnemonic, then the operands, the destination first. Addresses
are hexadecimal, immediates signed decimal numbers.
-/

namespace Machine32

/-- An address as text, with at least four hexadecimal digits. -/
def Address.text (a : Address) : String :=
  "0x" ++ Numeral.hex .upper 4 a.toNat

namespace Instruction

/-- The operands of an instruction as text. -/
def operandTexts : Instruction → List String
  | mov dst src => [dst.name, src.name]
  | movImm dst imm => [dst.name, Numeral.signed (Word.toSigned imm)]
  | load reg address => [reg.name, Address.text address]
  | store address reg => [Address.text address, reg.name]
  | alu _ dst src₁ src₂ => [dst.name, src₁.name, src₂.name]
  | unary _ reg => [reg.name]
  | jump _ address => [Address.text address]
  | ret => []

/-- An instruction as assembly text. -/
def text (i : Instruction) : String :=
  match i.operandTexts with
  | [] => i.opcode.mnemonic
  | operands => i.opcode.mnemonic ++ " " ++ ", ".intercalate operands

end Instruction

end Machine32
