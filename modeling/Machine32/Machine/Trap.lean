import Machine32.Isa.Encoding

/-!
# Traps

What stops an instruction from being executed.
-/

namespace Machine32

/-- Why an instruction is not executed. -/
inductive Trap where
  /-- A push to `sp`, which is below the stack segment. -/
  | stackOverflow (sp : Address)
  /-- A pop from `sp`, which is at or above the end of the stack segment. -/
  | stackUnderflow (sp : Address)
  | divisionByZero (ip : Address)
  | invalidOpcode (ip : Address) (opcode : UInt8)
  | invalidRegister (ip : Address) (id : UInt8)
  /-- Memory ends within the instruction. -/
  | undecodable (ip : Address) (error : DecodeError)
  deriving DecidableEq

namespace Trap

/-- The trap that a decoding error at `ip` is. -/
def ofDecodeError (ip : Address) : DecodeError → Trap
  | .unknownOpcode opcode => invalidOpcode ip opcode
  | .invalidRegister _ id => invalidRegister ip id
  | .truncated opcode needed available => undecodable ip (.truncated opcode needed available)

/-- An address in the text of a trap. -/
def place (a : Address) : String :=
  "0x" ++ Numeral.hex .lower 1 a.toNat

/-- The text of a trap. -/
def message : Trap → String
  | stackOverflow sp => "Stack overflow: SP " ++ place sp ++ " below the stack segment"
  | stackUnderflow sp => "Stack underflow: SP " ++ place sp ++ " at or above the stack end"
  | divisionByZero ip => "Division by zero at IP " ++ place ip
  | invalidOpcode ip opcode =>
    "Invalid opcode 0x" ++ Numeral.hex .lower 2 opcode.toNat ++ " at IP " ++ place ip
  | invalidRegister ip id =>
    "Invalid register 0x" ++ Numeral.hex .lower 2 id.toNat ++ " at IP " ++ place ip
  | undecodable ip error => "Decode error at IP " ++ place ip ++ ": " ++ error.message

end Trap

end Machine32
