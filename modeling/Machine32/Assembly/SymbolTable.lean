import Machine32.Program
import Machine32.Isa.Register
import Machine32.Assembly.Line

/-!
# Symbols

What the names of a text stand for: labels stand for addresses in the program,
constants for words of data. The names of registers are reserved. An operand is
resolved to its value by the names defined so far: a register before a
constant, a constant before a label.
-/

namespace Machine32

/-- The value of an operand. -/
inductive Value where
  | register (r : Register)
  | word (w : Word)
  deriving DecidableEq, Inhabited

/-- The word that the number `n` stands for, by either of its readings. -/
def Word.ofNumber (n : Int) : Except Fault Word :=
  if Word.Fits n then .ok (Word.ofInt n) else .error (.immediateOutOfRange n)

/-- The names defined so far. -/
structure SymbolTable where
  labels : NameTable Address
  constants : NameTable Constant
  deriving DecidableEq, Inhabited

namespace SymbolTable

/-- The table without names. -/
def empty : SymbolTable :=
  ⟨∅, ∅⟩

variable (t : SymbolTable)

/-- Fails if `name` is the name of a register. -/
def checkName (name : String) : Except Fault Unit :=
  if (Register.ofName? name).isSome then .error (.reservedName name) else .ok ()

/-- Lets the label `name` stand for an address. -/
def defineLabel (name : String) (address : Address) : Except Fault SymbolTable := do
  checkName name
  if t.labels.contains name then .error (.duplicateLabel name)
  else return { t with labels := t.labels.insert name address }

/-- Lets `name` stand for a constant. -/
def defineConstant (name : String) (constant : Constant) : Except Fault SymbolTable := do
  checkName name
  if t.constants.contains name then .error (.duplicateConstant name)
  else return { t with constants := t.constants.insert name constant }

/-- The value of a name. -/
def resolveName (name : String) : Except Fault Value :=
  match Register.ofName? name with
  | some r => .ok (.register r)
  | none =>
    match t.constants.get? name with
    | some c => .ok (.word c.value)
    | none =>
      match t.labels.get? name with
      | some a => .ok (.word a)
      | none => .error (.undefinedSymbol name)

/-- The value of an operand. -/
def resolve : Operand → Except Fault Value
  | .number n => .word <$> Word.ofNumber n
  | .symbol name => t.resolveName name
  | .addressOf name =>
    match t.constants.get? name with
    | some c => .ok (.word c.address)
    | none => .error (.undefinedSymbol ("&" ++ name))

end SymbolTable

end Machine32
