import Machine32.Memory.Image

/-!
# Writing a program

A program is written to memory by copying its parts to the places where their segments
begin. The places of a part are as many as it has bytes, and one that is not there would
break this off, which `Memory.load` leaves out. Whether the parts fit is looked at before,
by their sizes as words:

* `Memory.copy?` copies bytes to memory;
* `Memory.writeImage` loads a program into memory.
-/

namespace Machine32.Memory

variable (m : Memory)

/-- The memory `m` with an image copied to the places from `start` on, if these places
    are there. -/
def copy? (start : Address) (image : List UInt8) : Option Memory :=
  if start.toNat + image.length ≤ m.bytes.size then some (m.store start image) else none

/-- Loads a program into the memory `m`, which is left as it is then. -/
def writeImage (p : Program) : Option (Except ImageTooLarge Unit × Memory) :=
  match m.checkImage p with
  | .error e => some (.error e, m)
  | .ok () => do
    let m ← m.copy? (m.layout.segment .program).start p.code
    let m ← m.copy? (m.layout.segment .data).start p.data
    return (.ok (), m.sealProgram ((m.layout.segment .program).start + p.codeSize))

end Machine32.Memory
