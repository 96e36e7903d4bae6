import Machine32.Layout
import Machine32.Isa.Opcode

/-!
# Assembly errors

A *fault* is what can be wrong with a line of assembly text, by itself or after
the lines before it. An assembly error is a fault with the number of its line,
or a shortcoming of the text as a whole.
-/

namespace Machine32

/-- Why the lexemes of a line are no line of the language. -/
inductive LineFault where
  /-- Text that is no token, the column counting bytes from one. -/
  | strayText (column : Nat) (text : String)
  | directiveNotAlone
  | noBeginning
  | ampersandAlone
  | directiveOperand (name : String)
  | equalsOperand
  deriving DecidableEq

/-- The column of a fault, `0` where it concerns the line as a whole. -/
def LineFault.column : LineFault → Nat
  | strayText column _ => column
  | _ => 0

/-- The text of a fault, without its place. -/
def LineFault.message : LineFault → String
  | strayText _ text => "unexpected `" ++ text ++ "`"
  | directiveNotAlone => "unexpected tokens after directive"
  | noBeginning => "expected an instruction, directive or data definition"
  | ampersandAlone => "expected a data symbol after `&`"
  | directiveOperand name => "unexpected directive `." ++ name ++ "` in operands"
  | equalsOperand => "unexpected `=` in operands"

/-- Why a line defines no data. -/
inductive DataFault where
  /-- The line begins like an assignment, but is none. -/
  | notAssignment (name : String)
  /-- An assignment in a code section. -/
  | assignmentInCode (name : String)
  /-- An instruction in a data section. -/
  | statementInData (mnemonic : String)
  deriving DecidableEq

/-- The text of a fault, without its place. -/
def DataFault.message : DataFault → String
  | notAssignment name => "expected `" ++ name ++ " = integer`"
  | assignmentInCode name => "`" ++ name ++ "` assigned outside a .data section"
  | statementInData mnemonic => "expected `name = integer`, found `" ++ mnemonic ++ "`"

/-- The operands an opcode asks for, as told to the writer of a wrong line. -/
def Opcode.usage : Opcode → String
  | .mov | .movImm => "expected `MOV dst, src` or `MOV dst, imm`"
  | .load => "expected `LOAD reg, address`"
  | .store => "expected `STORE address, reg`"
  | .alu _ => "expected `dst, src` or `dst, src1, src2` registers"
  | .unary _ => "expected a single register"
  | .jump _ => "expected a single address or label"
  | .ret => "expected no operands"

/-- What is wrong with a line. -/
inductive Fault where
  | malformed (fault : LineFault)
  | unknownInstruction (mnemonic : String)
  | invalidOperands (opcode : Opcode)
  /-- A number that no word stands for. -/
  | immediateOutOfRange (value : Int)
  | invalidData (fault : DataFault)
  | undefinedSymbol (name : String)
  | duplicateLabel (name : String)
  | duplicateConstant (name : String)
  /-- A label or a constant with the name of a register. -/
  | reservedName (name : String)
  | outsideSection
  | programFull (needed capacity : Nat)
  | dataFull (capacity : Nat)
  deriving DecidableEq

/-- The text of a fault on a given line. -/
def Fault.message (line : Nat) (fault : Fault) : String :=
  let line := Numeral.decimal line
  match fault with
  | malformed f =>
    "Syntax error at line " ++ line ++ ", column " ++ Numeral.decimal f.column ++ ": " ++ f.message
  | unknownInstruction mnemonic => "Unknown instruction at line " ++ line ++ ": " ++ mnemonic
  | invalidOperands opcode =>
    "Invalid operands for " ++ opcode.mnemonic ++ " at line " ++ line ++ ": " ++ opcode.usage
  | immediateOutOfRange value =>
    "Invalid immediate value at line " ++ line ++ ": " ++ Numeral.signed value
  | invalidData f => "Invalid data definition at line " ++ line ++ ": " ++ f.message
  | undefinedSymbol name => "Undefined symbol at line " ++ line ++ ": " ++ name
  | duplicateLabel name => "Duplicate label at line " ++ line ++ ": " ++ name
  | duplicateConstant name => "Duplicate data symbol at line " ++ line ++ ": " ++ name
  | reservedName name => "Reserved name at line " ++ line ++ ": " ++ name ++ " is a register"
  | outsideSection => "Statement outside of a section at line " ++ line
  | programFull needed capacity =>
    "Program segment full at line " ++ line ++ ": " ++ Numeral.decimal needed
      ++ " bytes needed, " ++ Numeral.decimal capacity ++ " available"
  | dataFull capacity =>
    "Data segment full at line " ++ line ++ ": capacity is " ++ Numeral.decimal capacity ++ " bytes"

/-- Why a text is no program. -/
inductive AssemblyError where
  /-- The first faulty line. -/
  | atLine (line : Nat) (fault : Fault)
  /-- No section says where the program is entered. -/
  | missingEntryPoint
  /-- The memory to assemble for cannot be laid out. -/
  | layout (error : LayoutError)
  deriving DecidableEq

namespace AssemblyError

/-- The line an error is on, if it is on one. -/
def line? : AssemblyError → Option Nat
  | atLine line _ => some line
  | missingEntryPoint | layout _ => none

/-- The text of an error. -/
def message : AssemblyError → String
  | atLine line fault => fault.message line
  | missingEntryPoint => "Missing entry point: no .start section"
  | layout error => error.memoryMessage

end AssemblyError

end Machine32
