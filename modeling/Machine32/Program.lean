import Machine32.NameTable
import Machine32.Word

/-!
# Programs

A program is an image of the program and data segments, together with the
names its text gave to addresses and constants.
-/

namespace Machine32

/-- A named word in the data segment. -/
structure Constant where
  /-- Where the word is. -/
  address : Address
  /-- What it is when the program is loaded. -/
  value : Word
  deriving DecidableEq, Inhabited

/-- A program ready to be loaded. -/
structure Program where
  /-- The bytes for the program segment, from its start on. -/
  code : List UInt8
  /-- The bytes for the data segment, from its start on. -/
  data : List UInt8
  /-- The address at which the program is entered. -/
  entryPoint : Address
  /-- The addresses of the labels. -/
  labels : NameTable Address
  /-- The named words of the data segment. -/
  constants : NameTable Constant
  deriving DecidableEq, Inhabited

namespace Program

variable (p : Program)

/-- The size of the code, as a word. -/
def codeSize : UInt32 :=
  UInt32.ofNat p.code.length

/-- The size of the data, as a word. -/
def dataSize : UInt32 :=
  UInt32.ofNat p.data.length

/-- The labels at an address, in the order of their names. -/
def labelsAt (a : Address) : List String :=
  (p.labels.entries.filter (·.2 == a)).map (·.1)

end Program

end Machine32
