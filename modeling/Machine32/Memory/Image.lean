import Machine32.Program
import Machine32.Memory.Basic

/-!
# Loading

Loading a program writes its code to the start of the program segment and its
data to the start of the data segment, and lets the program end behind its
code. All other bytes stay as they are. Whether the parts of a program fit is
decided by their sizes, which are words, and a program with a size that is too
large is not loaded at all.

The size of a part of `2 ^ 32` bytes or more is not its length. What becomes of
such a part is left out here: `Memory.load` takes it in as far as memory reaches,
if its size is small enough, where copying it to memory would break off. That is
told of `Memory.writeImage`, which agrees with `Memory.load` on all shorter parts.
-/

namespace Machine32

/-- A segment too small for its part of a program. -/
structure ImageTooLarge where
  /-- The segment. -/
  region : Region
  /-- What the program needs. -/
  size : UInt32
  /-- What the segment holds. -/
  capacity : UInt32
  deriving DecidableEq

/-- The text of the error that a segment is too small. -/
def ImageTooLarge.message (e : ImageTooLarge) : String :=
  "Program image does not fit: " ++ e.region.name ++ " needs "
    ++ Numeral.decimal e.size.toNat ++ " bytes, segment holds "
    ++ Numeral.decimal e.capacity.toNat

/-- The bytes with those from `start` on overwritten by an image, as far as
    they reach. -/
def overwrite (bytes : Array UInt8) (start : Nat) : List UInt8 → Array UInt8
  | [] => bytes
  | b :: image => overwrite (bytes.setIfInBounds start b) (start + 1) image

@[simp] theorem size_overwrite (bytes : Array UInt8) (start : Nat) (image : List UInt8) :
    (overwrite bytes start image).size = bytes.size := by
  induction image generalizing bytes start with
  | nil => rfl
  | cons b image ih => rw [overwrite, ih, Array.size_setIfInBounds]

namespace Memory

variable (m : Memory)

/-- Fails if the program or the data segment is too small for a program. -/
def checkImage (p : Program) : Except ImageTooLarge Unit :=
  if m.layout.programSize < p.codeSize then
    .error ⟨.program, p.codeSize, m.layout.programSize⟩
  else if m.layout.dataSize < p.dataSize then
    .error ⟨.data, p.dataSize, m.layout.dataSize⟩
  else .ok ()

/-- The memory `m` with the bytes from `start` on overwritten by an image. -/
def store (start : Address) (image : List UInt8) : Memory :=
  { m with
    bytes := overwrite m.bytes start.toNat image
    size_bytes := by rw [size_overwrite, m.size_bytes] }

/-- Loads a program. A part of `2 ^ 32` bytes or more, of which the size is not the
    length, may be taken in without what lies behind the end of memory. -/
def load (p : Program) : Except ImageTooLarge Memory := do
  m.checkImage p
  return ((m.store 0 p.code).store m.layout.programSize p.data).sealProgram p.codeSize

/-- The memory of the same layout that holds zeros and no program. -/
def reset : Memory :=
  zero m.layout

end Memory

end Machine32
