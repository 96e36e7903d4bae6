import Machine32.Layout
import Machine32.Listing

/-!
# Writing a listing

A listing is written by going through the code: the labels of the place that is
reached, the bytes of the chunk there and what they are, and on to the next place.
The bytes are read off the code by their places, and a place that is not there would
break this off:

* `Program.codeBetween?` are the bytes between two places;
* `Program.writeCode` goes through the code from a place on;
* `Program.writeListing` writes the listing of a program for a memory.
-/

namespace Machine32.Program

variable (p : Program)

/-- The bytes of the code from `start` up to `stop`, if these places are there. -/
def codeBetween? (start stop : Nat) : Option (List UInt8) :=
  if start ≤ stop ∧ stop ≤ p.code.length then some ((p.code.take stop).drop start) else none

/-- The text `out` with the front of a code line behind it. -/
def writePlace (out : String) (address : Address) (bytes : List UInt8) : String :=
  out ++ Address.text address ++ ":  " ++ Chunk.padRight 24 (Chunk.bytesText bytes) ++ "  "

/-- The text `out` with the code from `offset` on behind it, for code at `base`. -/
def writeCode (base : Address) (offset : Nat) (out : String) : Option String :=
  if offset < p.code.length then do
    let address := base + UInt32.ofNat offset
    let out := (p.labelsAt address).foldl (fun out name => out ++ "." ++ name ++ "\n") out
    match Instruction.decode (← p.codeBetween? offset p.code.length) with
    | .ok i =>
      let stop := offset + i.length
      let out := writePlace out address (← p.codeBetween? offset stop) ++ i.text ++ p.remark i
      writeCode base stop (out ++ "\n")
    | .error e =>
      let stop := min (offset + Word.size) p.code.length
      let out := writePlace out address (← p.codeBetween? offset stop) ++ "; ERROR: " ++ e.message
      writeCode base stop (out ++ "\n")
  else some out
termination_by p.code.length - offset
decreasing_by
  -- Either way the next place is behind this one, as no instruction is empty.
  · have := i.length_pos
    omega
  · simp only [Word.size]
    omega

/-- The lines of a listing before those of the code. -/
def frontLines : List String :=
  ["; toy32 disassembly",
   "; Entry point: " ++ Address.text p.entryPoint,
   "; Code size: " ++ Numeral.decimal p.codeSize.toNat ++ " bytes, data size: "
     ++ Numeral.decimal p.dataSize.toNat ++ " bytes"]
    ++ p.constantLines ++ [""]

/-- The listing of a program for a memory of the given layout. -/
def writeListing (l : Layout) : Option String :=
  p.writeCode (l.segment .program).start 0
    (p.frontLines.foldl (fun out line => out ++ line ++ "\n") "")

end Machine32.Program
