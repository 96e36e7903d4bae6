import Machine32.Assembly.Assembler

/-!
# Assembling in place

The image of a program grows in two buffers while its text is read. To take in a
line is a row of looks at the draft and changes of it, and a fault breaks this off
where it comes up, with the draft as it is by then:

* `Draft` has the names and the buffers, the one of the code with the bytes of the
  entry call left open at the front;
* `Draft.Editing` is work on a draft that can be broken off;
* `Draft.feedLine` takes in a line, and `Draft.finish` puts in the entry call.
-/

namespace Machine32

/-- What the next line of a text is part of. -/
inductive Draft.Part where
  /-- Before the first directive. -/
  | outside
  | data
  /-- The code at which the program is entered. -/
  | start
  | function (label : String)
  deriving DecidableEq, Inhabited

/-- The kind of section that a part of a text is. -/
def Draft.Part.kind : Draft.Part → Section
  | outside => .outside
  | data => .data
  | start | function _ => .code

/-- A program that is being made up. -/
structure Draft where
  /-- The memory to assemble for. -/
  layout : Layout
  /-- The part that the next line belongs to. -/
  part : Draft.Part
  /-- The names defined so far. -/
  symbols : SymbolTable
  /-- The bytes for the program segment so far. -/
  code : Array UInt8
  /-- The bytes for the data segment so far. -/
  data : Array UInt8
  deriving DecidableEq

namespace Draft

/-- Work on a draft. An error breaks it off and leaves the draft as it is then. -/
abbrev Editing (α : Type) := EStateM AssemblyError Draft α

/-- The draft before the first line. -/
def initial (layout : Layout) : Draft where
  layout := layout
  part := .outside
  symbols := .empty
  code := Array.replicate entryLength 0
  data := #[]

variable (d : Draft)

/-- The address of the next instruction. -/
def programPointer : Address :=
  UInt32.ofNat d.code.size

/-- The address of the next word of data. -/
def dataPointer : Address :=
  d.layout.programSize + UInt32.ofNat d.data.size

/-- Goes on with the result of `x`, or breaks off with its fault on a line. -/
def demand {α : Type} (line : Nat) (x : Except Fault α) : Editing α :=
  match x with
  | .ok a => pure a
  | .error fault => throw (.atLine line fault)

/-- Lets the label `name` stand for an address. -/
def defineLabel (line : Nat) (name : String) (address : Address) : Editing Unit := do
  demand line (SymbolTable.checkName name)
  let d ← get
  if d.symbols.labels.contains name then throw (.atLine line (.duplicateLabel name))
  else set { d with symbols.labels := d.symbols.labels.insert name address }

/-- Lets `name` stand for a constant. -/
def defineConstant (line : Nat) (name : String) (constant : Constant) : Editing Unit := do
  demand line (SymbolTable.checkName name)
  let d ← get
  if d.symbols.constants.contains name then throw (.atLine line (.duplicateConstant name))
  else set { d with symbols.constants := d.symbols.constants.insert name constant }

/-- Goes on with a part of the text. -/
def enter (part : Part) : Editing Unit :=
  modify fun d => { d with part }

/-- Opens a code section under a label. -/
def openCode (line : Nat) (label : String) (part : Part) : Editing Unit := do
  let d ← get
  defineLabel line label d.programPointer
  enter part

/-- Opens the section of a directive. -/
def openSection (line : Nat) (name : String) : Editing Unit :=
  if Ascii.lower name = "data" then enter .data
  else if Ascii.lower name = Assembler.startLabel then openCode line Assembler.startLabel .start
  else openCode line name (.function name)

/-- Names the next word of data, and puts its bytes behind the data so far. -/
def defineData (line : Nat) (name : String) (value : Int) : Editing Unit := do
  let word ← demand line (Word.ofNumber value)
  let d ← get
  if d.layout.dataSize < UInt32.ofNat d.data.size + UInt32.ofNat Word.size then
    throw (.atLine line (.dataFull d.layout.dataSize.toNat))
  else
    defineConstant line name ⟨d.dataPointer, word⟩
    modify fun d => { d with data := d.data ++ (Word.toBytes word).toArray }

/-- Puts the bytes of an instruction behind the code so far. -/
def emit (line : Nat) (i : Instruction) : Editing Unit := do
  let d ← get
  let capacity := d.layout.programSize.toNat - (UInt32.ofNat d.code.size).toNat
  if capacity < i.length then throw (.atLine line (.programFull i.length capacity))
  else set { d with code := Instruction.encodeInto d.code i }

/-- Takes in a line that is not blank. -/
def feedParsed (line : Nat) (parsed : Line) : Editing Unit := do
  let d ← get
  match parsed with
  | .directive name => openSection line name
  | .assignment name value =>
    match d.part with
    | .data => defineData line name value
    | .outside => throw (.atLine line .outsideSection)
    | .start | .function _ => throw (.atLine line (.invalidData (.assignmentInCode name)))
  | .statement mnemonic operands =>
    match d.part with
    | .start | .function _ =>
      let values ← demand line (operands.mapM d.symbols.resolve)
      emit line (← demand line (Instruction.ofStatement mnemonic values))
    | .data => throw (.atLine line (.invalidData (.statementInData mnemonic)))
    | .outside => throw (.atLine line .outsideSection)

/-- Takes in the line with a given number. -/
def feedLine (line : Nat) (text : String) : Editing Unit := do
  match ← demand line (Line.parse text) with
  | none => pure ()
  | some parsed => feedParsed line parsed

/-- The program of the lines taken in. -/
def finish : Except AssemblyError Program :=
  match d.symbols.labels.get? Assembler.startLabel with
  | none => .error .missingEntryPoint
  | some entryPoint =>
    let call := (Instruction.jump .call entryPoint).encode
    .ok {
      code := call ++ d.code.toList.drop call.length
      data := d.data.toList
      entryPoint
      labels := d.symbols.labels
      constants := d.symbols.constants }

end Draft

end Machine32
