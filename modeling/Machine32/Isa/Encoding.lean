import Machine32.Numeral
import Machine32.Isa.Instruction

/-!
# Instructions as bytes

The layout of an instruction follows from its shape:

* between registers: opcode, destination, source, padding;
* with a register and a word: opcode, register, two bytes of padding, word;
* arithmetic: opcode, first source, second source, destination;
* with one register: opcode, register, two bytes of padding;
* jump: opcode, three bytes of padding, word;
* return: opcode, three bytes of padding.

Encoding writes zeros for padding, decoding does not look at it.
-/

namespace Machine32

namespace Instruction

/-- The bytes of an instruction. -/
def encode (i : Instruction) : List UInt8 :=
  let op := i.opcode.byte
  match i with
  | mov dst src => [op, dst.id, src.id, 0]
  | movImm reg word | load reg word | store word reg => [op, reg.id, 0, 0] ++ Word.toBytes word
  | alu _ dst src₁ src₂ => [op, src₁.id, src₂.id, dst.id]
  | unary _ reg => [op, reg.id, 0, 0]
  | jump _ address => [op, 0, 0, 0] ++ Word.toBytes address
  | ret => [op, 0, 0, 0]

@[simp] theorem length_encode (i : Instruction) : i.encode.length = i.length := by
  cases i <;> rfl

/-- The buffer `out` with an opcode byte, a register field, which is zero without
    a register, and a word put behind it. -/
def appendWide (out : Array UInt8) (op : UInt8) (reg : Option Register) (word : Word) :
    Array UInt8 :=
  out ++ #[op, (reg.map Register.id).getD 0, 0, 0] ++ (Word.toBytes word).toArray

/-- The buffer `out` with the bytes of an instruction put behind it. -/
def encodeInto (out : Array UInt8) (i : Instruction) : Array UInt8 :=
  let op := i.opcode.byte
  match i with
  | mov dst src => out ++ #[op, dst.id, src.id, 0]
  | movImm reg word | load reg word | store word reg => appendWide out op (some reg) word
  | alu _ dst src₁ src₂ => out ++ #[op, src₁.id, src₂.id, dst.id]
  | unary _ reg => out ++ #[op, reg.id, 0, 0]
  | jump _ address => appendWide out op none address
  | ret => out ++ #[op, 0, 0, 0]

/-- What is in the buffer stays as it is, and the instruction comes behind it. -/
@[simp] theorem toList_encodeInto (out : Array UInt8) (i : Instruction) :
    (encodeInto out i).toList = out.toList ++ i.encode := by
  cases i <;> simp [encodeInto, appendWide, encode]

end Instruction

/-- Why bytes do not begin with an instruction. -/
inductive DecodeError where
  /-- The first byte is no opcode. -/
  | unknownOpcode (byte : UInt8)
  /-- A register field holds no register identifier. -/
  | invalidRegister (opcode id : UInt8)
  /-- There are fewer bytes than the opcode asks for. -/
  | truncated (opcode : UInt8) (needed available : Nat)
  deriving DecidableEq

/-- The text of a decoding error. -/
def DecodeError.message : DecodeError → String
  | unknownOpcode byte => "Unknown opcode: 0x" ++ Numeral.hex .upper 2 byte.toNat
  | invalidRegister opcode id =>
    "Invalid register 0x" ++ Numeral.hex .upper 2 id.toNat
      ++ " in 0x" ++ Numeral.hex .lower 2 opcode.toNat ++ " instruction"
  | truncated opcode needed available =>
    "Truncated instruction 0x" ++ Numeral.hex .lower 2 opcode.toNat
      ++ ": needs " ++ Numeral.decimal needed ++ " bytes, "
      ++ Numeral.decimal available ++ " available"

namespace Instruction

/-- The register in a field of an instruction with the given opcode byte. -/
def decodeRegister (opcode id : UInt8) : Except DecodeError Register :=
  match Register.ofId? id with
  | some r => .ok r
  | none => .error (.invalidRegister opcode id)

/-- The instruction at the front of `bytes`. An unknown opcode is reported
    before missing bytes, and these before a register field, of which the first
    invalid one counts. -/
def decode (bytes : List UInt8) : Except DecodeError Instruction :=
  match bytes with
  | [] => .error (.truncated 0 1 0)
  | op :: fields =>
    match Opcode.ofByte? op with
    | none => .error (.unknownOpcode op)
    | some opcode =>
      match opcode, fields with
      | .mov, d :: s :: _ :: _ => do
        let dst ← decodeRegister op d
        let src ← decodeRegister op s
        return mov dst src
      | .movImm, r :: _ :: _ :: b₀ :: b₁ :: b₂ :: b₃ :: _ => do
        let reg ← decodeRegister op r
        return movImm reg (Word.ofBytes b₀ b₁ b₂ b₃)
      | .load, r :: _ :: _ :: b₀ :: b₁ :: b₂ :: b₃ :: _ => do
        let reg ← decodeRegister op r
        return load reg (Word.ofBytes b₀ b₁ b₂ b₃)
      | .store, r :: _ :: _ :: b₀ :: b₁ :: b₂ :: b₃ :: _ => do
        let reg ← decodeRegister op r
        return store (Word.ofBytes b₀ b₁ b₂ b₃) reg
      | .alu f, s₁ :: s₂ :: d :: _ => do
        let src₁ ← decodeRegister op s₁
        let src₂ ← decodeRegister op s₂
        let dst ← decodeRegister op d
        return alu f dst src₁ src₂
      | .unary f, r :: _ :: _ :: _ => do
        let reg ← decodeRegister op r
        return unary f reg
      | .jump f, _ :: _ :: _ :: b₀ :: b₁ :: b₂ :: b₃ :: _ =>
        .ok (jump f (Word.ofBytes b₀ b₁ b₂ b₃))
      | .ret, _ :: _ :: _ :: _ => .ok ret
      -- In all other cases bytes are missing.
      | _, _ => .error (.truncated op opcode.length bytes.length)

end Instruction

end Machine32
