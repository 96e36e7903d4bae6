import Machine32.Numeral
import Machine32.Isa.Register
import Machine32.Isa.Opcode

/-!
# Looking up opcodes and registers

The tables of the instruction set, read by byte and by name, with an error for
what they do not hold.
-/

namespace Machine32

/-- A byte or a name outside the tables of the instruction set. -/
inductive LookupError where
  | invalidOpcode (byte : UInt8)
  | invalidRegister (id : UInt8)
  | unknownMnemonic (name : String)
  | unknownRegisterName (name : String)
  deriving DecidableEq

/-- The text of a lookup error. -/
def LookupError.message : LookupError → String
  | invalidOpcode byte => "Invalid opcode: 0x" ++ Numeral.hex .lower 2 byte.toNat
  | invalidRegister id =>
    "Invalid register identifier: 0x" ++ Numeral.hex .lower 2 id.toNat
      ++ " (valid range: 0x00-0x09)"
  | unknownMnemonic name => "Unknown mnemonic: " ++ name
  | unknownRegisterName name => "Unknown register name: " ++ name

/-- The opcode with a given byte. -/
def Opcode.ofByte (b : UInt8) : Except LookupError Opcode :=
  match Opcode.ofByte? b with
  | some op => .ok op
  | none => .error (.invalidOpcode b)

/-- The opcode of a given mnemonic. -/
def Opcode.ofMnemonic (s : String) : Except LookupError Opcode :=
  match Opcode.ofMnemonic? s with
  | some op => .ok op
  | none => .error (.unknownMnemonic s)

/-- The register with a given identifier. -/
def Register.ofId (b : UInt8) : Except LookupError Register :=
  match Register.ofId? b with
  | some r => .ok r
  | none => .error (.invalidRegister b)

/-- The register of a given name. -/
def Register.ofName (s : String) : Except LookupError Register :=
  match Register.ofName? s with
  | some r => .ok r
  | none => .error (.unknownRegisterName s)

end Machine32
