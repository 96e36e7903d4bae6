import Machine32.Ascii

/-!
# Registers

Eight general registers, the instruction pointer and the zero flag. An
instruction refers to a register by a one-byte identifier, assembly text by its
name in either letter case.
-/

namespace Machine32

/-- A register. -/
inductive Register where
  /-- The accumulator. -/
  | eax
  /-- The base register. -/
  | ebx
  /-- The counter. -/
  | ecx
  /-- The data register. -/
  | edx
  /-- The source index. -/
  | esi
  /-- The destination index. -/
  | edi
  /-- The stack pointer. -/
  | esp
  /-- The base pointer. -/
  | ebp
  /-- The instruction pointer. -/
  | ip
  /-- The zero flag, which reads as `0` or `1`. -/
  | zf
  deriving DecidableEq, Inhabited

namespace Register

/-- The general registers, in the order of their identifiers. -/
def general : List Register :=
  [eax, ebx, ecx, edx, esi, edi, esp, ebp]

/-- All registers, in the order of their identifiers. -/
def all : List Register :=
  general ++ [ip, zf]

/-- The identifier of a register in an encoded instruction. -/
def id : Register → UInt8
  | eax => 0
  | ebx => 1
  | ecx => 2
  | edx => 3
  | esi => 4
  | edi => 5
  | esp => 6
  | ebp => 7
  | ip => 8
  | zf => 9

/-- The name of a register. -/
def name : Register → String
  | eax => "EAX"
  | ebx => "EBX"
  | ecx => "ECX"
  | edx => "EDX"
  | esi => "ESI"
  | edi => "EDI"
  | esp => "ESP"
  | ebp => "EBP"
  | ip => "IP"
  | zf => "ZF"

/-- The place of a general register among them. -/
def generalIndex? (r : Register) : Option Nat :=
  general.idxOf? r

/-- The register with a given identifier. -/
def ofId? (b : UInt8) : Option Register :=
  all.find? (·.id == b)

/-- The register of a given name, in any letter case. -/
def ofName? (s : String) : Option Register :=
  all.find? (·.name == Ascii.upper s)

/-- No register is left out of the table. -/
theorem mem_all (r : Register) : r ∈ all := by
  cases r <;> decide

/-- A register is found by its number. -/
@[simp] theorem ofId?_id (r : Register) : ofId? r.id = some r := by
  cases r <;> rfl

theorem ofId?_eq_some_iff {b : UInt8} {r : Register} : ofId? b = some r ↔ r.id = b :=
  ⟨fun h => by simpa using List.find?_some h, fun h => h ▸ ofId?_id r⟩

end Register

end Machine32
