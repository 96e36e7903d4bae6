import Machine32.Isa.Encoding
import Machine32.Assembly.Statement

/-!
# The assembler

Assembly text is read once, line by line. Directives open sections: `.data` a
data section, `.start` the code at which the program is entered, and any other
name a function of that name; the labels of code stand for the address that the
next instruction gets. A line of a data section names the next word of data, a
line of a code section is the next instruction. A name has to be defined on a
line before those that use it.

The assembler collects instructions and words of data. The image of the program
segment is the call to the entry point, followed by the instructions.

* `Assembler.feed` takes in a line, or says what is wrong with it;
* `Assembler.finish` makes the program;
* `assemble` does both for a whole text.
-/

namespace Machine32

/-- What a line of text can be part of. -/
inductive Section where
  /-- Before the first directive. -/
  | outside
  | data
  | code
  deriving DecidableEq, Inhabited

/-- The state between two lines. -/
structure Assembler where
  /-- The memory to assemble for. -/
  layout : Layout
  /-- The section the next line is in. -/
  current : Section
  /-- The names defined so far. -/
  symbols : SymbolTable
  /-- The instructions so far, those behind the entry call. -/
  code : Array Instruction
  /-- The words of data so far. -/
  data : Array Word
  deriving DecidableEq

namespace Assembler

/-- The name of the label at which a program is entered. -/
def startLabel : String := "start"

/-- The state before the first line. -/
def initial (layout : Layout) : Assembler where
  layout := layout
  current := .outside
  symbols := .empty
  code := #[]
  data := #[]

variable (a : Assembler)

/-- The size of the code so far, with the entry call. -/
def codeSize : Nat :=
  a.code.foldl (fun n i => n + i.length) entryLength

/-- The size of the data so far. -/
def dataSize : Nat :=
  a.data.size * Word.size

/-- The address of the next instruction. -/
def programPointer : Address :=
  UInt32.ofNat a.codeSize

/-- The address of the next word of data. -/
def dataPointer : Address :=
  a.layout.programSize + UInt32.ofNat a.dataSize

/-- Opens a code section under a label. -/
def openCode (label : String) : Except Fault Assembler :=
  return { a with symbols := ← a.symbols.defineLabel label a.programPointer, current := .code }

/-- Opens the section of a directive. A data section may be opened again, but a
    code section not under the same label. -/
def openSection (name : String) : Except Fault Assembler :=
  if Ascii.lower name = "data" then .ok { a with current := .data }
  else if Ascii.lower name = startLabel then a.openCode startLabel
  else a.openCode name

/-- Names the next word of data. -/
def defineData (name : String) (value : Int) : Except Fault Assembler := do
  let word ← Word.ofNumber value
  if a.layout.dataSize.toNat < a.dataSize + Word.size then
    .error (.dataFull a.layout.dataSize.toNat)
  else
    let symbols ← a.symbols.defineConstant name ⟨a.dataPointer, word⟩
    return { a with symbols, data := a.data.push word }

/-- Puts an instruction behind the code so far. -/
def emit (i : Instruction) : Except Fault Assembler :=
  let capacity := a.layout.programSize.toNat - a.codeSize
  if capacity < i.length then .error (.programFull i.length capacity)
  else .ok { a with code := a.code.push i }

/-- Takes in a line that is not blank. -/
def feedParsed : Line → Except Fault Assembler
  | .directive name => a.openSection name
  | .assignment name value =>
    match a.current with
    | .outside => .error .outsideSection
    | .data => a.defineData name value
    | .code => .error (.invalidData (.assignmentInCode name))
  | .statement mnemonic operands =>
    match a.current with
    | .outside => .error .outsideSection
    | .data => .error (.invalidData (.statementInData mnemonic))
    | .code => do
      let values ← operands.mapM a.symbols.resolve
      a.emit (← Instruction.ofStatement mnemonic values)

/-- Takes in a line of text. -/
def feed (text : String) : Except Fault Assembler := do
  match ← Line.parse text with
  | none => return a
  | some line => a.feedParsed line

/-- Takes in the line with a given number. -/
def feedLine (number : Nat) (text : String) : Except AssemblyError Assembler :=
  (a.feed text).mapError (.atLine number)

/-- Takes in lines, of which the first one has the given number. -/
def feedLines : Assembler → Nat → List String → Except AssemblyError Assembler
  | a, _, [] => .ok a
  | a, number, text :: texts => do
    let a ← a.feedLine number text
    feedLines a (number + 1) texts

/-- The program of the lines taken in. -/
def finish : Except AssemblyError Program :=
  match a.symbols.labels.get? startLabel with
  | none => .error .missingEntryPoint
  | some entryPoint =>
    .ok {
      code := (.jump .call entryPoint :: a.code.toList).flatMap Instruction.encode
      data := a.data.toList.flatMap Word.toBytes
      entryPoint
      labels := a.symbols.labels
      constants := a.symbols.constants }

end Assembler

/-- The lines of a text with the character `c` in front of the text with the
    lines `lines`. -/
def consLines (c : Char) (lines : List (List Char)) : List (List Char) :=
  if c = '\n' then [] :: lines
  else
    match lines with
    | [] => [[c]]
    | line :: lines => (c :: line) :: lines

/-- The lines of a text. A line feed ends a line, and the last line may do
    without one. -/
def splitLines (text : List Char) : List (List Char) :=
  text.foldr consLines []

/-- The program that a text describes, for a memory of the given layout. -/
def assemble (layout : Layout) (source : String) : Except AssemblyError Program := do
  let a ← (Assembler.initial layout).feedLines 1 ((splitLines source.toList).map String.ofList)
  a.finish

/-- The program that a text describes, for a memory with segments of the given
    sizes. -/
def assembleForSizes (program data stack : UInt32) (source : String) :
    Except AssemblyError Program := do
  let layout ← (Layout.ofSizes program data stack).mapError .layout
  assemble layout source

end Machine32
