import Machine32.Machine.Dump

/-!
# Writing dumps

A dump is written by going through memory: through the loaded program from one
instruction to the next, through the words of the other segments, or through the
bytes of a segment in rows. Bytes are read off memory by their places, and addresses
are added up as words. A place that is not there would break this off, and so would
a sum that is no word:

* `Memory.bytesBetween?` are the bytes between two places, `Word.ofNat?` is a number
  as a word;
* `Memory.writeCode` goes through the program from an address on, and counts what it
  reads outside of memory;
* `Memory.writeWords` and `Memory.writeRows` go through the bytes of a segment;
* `Memory.writeDump` and `Memory.writeHexDump` write the dumps.
-/

namespace Machine32

namespace Word

/-- A number as a word, unless it is too large. -/
def ofNat? (n : Nat) : Option Word :=
  if n < 0x100000000 then some (UInt32.ofNat n) else none

/-- The word with the first bytes of a list, filled up with zeros. -/
def ofFront (bytes : List UInt8) : Word :=
  ofBytes (bytes.getD 0 0) (bytes.getD 1 0) (bytes.getD 2 0) (bytes.getD 3 0)

theorem ofNat?_eq_some_iff {n : Nat} {w : Word} :
    ofNat? n = some w ↔ n < 0x100000000 ∧ w.toNat = n := by
  rw [ofNat?]
  split
  · next h =>
    rw [Option.some.injEq, ← UInt32.toNat_inj, UInt32.toNat_ofNat_of_lt' h]
    exact ⟨fun heq => ⟨h, heq.symm⟩, fun heq => heq.2.symm⟩
  · next h => exact ⟨nofun, fun heq => absurd heq.1 h⟩

end Word

namespace Memory

/-- The bytes from the place `start` up to `stop`, if these places are there. -/
def bytesBetween? (m : Memory) (start stop : Nat) : Option (List UInt8) :=
  if start ≤ stop ∧ stop ≤ m.bytes.size then some (m.bytes.extract start stop).toList else none

/-- The `n` bytes from `a` on, up to the end of memory. -/
def window? (m : Memory) (a : Address) (n : Nat) : Option (List UInt8) :=
  m.bytesBetween? (min a.toNat m.bytes.size) (min (a.toNat + n) m.bytes.size)

/-- The bytes of a segment. -/
def segmentBytes? (m : Memory) (r : Region) : Option (List UInt8) :=
  m.bytesBetween? (m.layout.segment r).start.toNat (m.layout.segment r).stop.toNat

/-- The text `out` with the lines of the program from the address `a` on behind it,
    and the memory after reading them. -/
def writeCode (m : Memory) (a : Address) (out : String) : Option (String × Memory) :=
  if a < m.programEnd then do
    match Instruction.decode (← m.window? a Instruction.maxLength) with
    | .ok i =>
      let out := out ++ "  " ++ Address.text a ++ ": " ++ i.text
      match _ : Word.ofNat? (a.toNat + i.length) with
      | some next => writeCode m next (out ++ "\n")
      | none => none
    | .error e =>
      let read := m.readWord a
      let out := out ++ "  " ++ Address.text a ++ ": " ++ Word.hexText read.1 ++ " ; " ++ e.message
      match _ : Word.ofNat? (a.toNat + Word.size) with
      | some next => writeCode read.2 next (out ++ "\n")
      | none => none
  else some (out, m)
termination_by m.programEnd.toNat - a.toNat
decreasing_by
  -- Either way the next address is behind this one, as no instruction is empty.
  · have := UInt32.lt_iff_toNat_lt.1 ‹a < m.programEnd›
    have := (Word.ofNat?_eq_some_iff.1 ‹_ = some next›).2
    have := i.length_pos
    omega
  · have := UInt32.lt_iff_toNat_lt.1 ‹a < m.programEnd›
    have hnext := (Word.ofNat?_eq_some_iff.1 ‹_ = some next›).2
    rw [Word.size] at hnext
    rw [readWord_programEnd]
    omega

/-- The text `out` with a line for each word of `bytes` that is not zero behind it.
    The first one is the word number `i` of a segment that begins at `start`. -/
def writeWords (start : Address) (i : Nat) (out : String) (bytes : List UInt8) :
    Option String :=
  match bytes with
  | [] => some out
  | b :: bs =>
    let w := Word.ofFront ((b :: bs).take Word.size)
    if w = 0 then writeWords start (i + 1) out ((b :: bs).drop Word.size)
    else do
      let a ← Word.ofNat? (start.toNat + i * Word.size)
      let out := out ++ "  " ++ Address.text a ++ ": " ++ Word.fullText w
      writeWords start (i + 1) (out ++ "\n") ((b :: bs).drop Word.size)
termination_by bytes.length
decreasing_by
  all_goals
    simp only [List.length_drop, List.length_cons, Word.size]
    omega

/-- The text `out` with `bytes` in rows of sixteen behind it. The first one is the
    row number `i` of a segment that begins at `start`. -/
def writeRows (start i : Nat) (out : String) (bytes : List UInt8) : String :=
  match bytes with
  | [] => out
  | b :: bs =>
    let out := out ++ "0x" ++ Numeral.hex .upper 4 (start + i * 16) ++ ":"
    let out := ((b :: bs).take 16).foldl
      (fun out b => out ++ " " ++ Numeral.hex .upper 2 b.toNat) out
    writeRows start (i + 1) (out ++ "\n") ((b :: bs).drop 16)
termination_by bytes.length
decreasing_by
  simp only [List.length_drop, List.length_cons]
  omega

/-- The text `out` with a segment behind it, and the memory after reading it. -/
def writeSegment (m : Memory) (out : String) (r : Region) : Option (String × Memory) :=
  let start := (m.layout.segment r).start
  let out := out ++ m.segmentTitle r ++ "\n"
  match r with
  | .program => m.writeCode start out
  | .data | .stack => do
    let bytes ← m.segmentBytes? r
    return (← writeWords start 0 out bytes, m)

/-- The contents of memory as text, and the memory after reading it. -/
def writeDump (m : Memory) : Option (String × Memory) :=
  Region.all.foldlM (fun (out, m) r => m.writeSegment out r) ("", m)

/-- All bytes of a segment as text. -/
def writeHexDump (m : Memory) (r : Region) : Option String := do
  let bytes ← m.segmentBytes? r
  return writeRows (m.layout.segment r).start.toNat 0 "" bytes

end Memory

end Machine32
