import Machine32.Isa.Text
import Machine32.Machine.State

/-!
# Dumps

The contents of a machine as text.

* `Registers.dump` shows each register on a line of its own;
* `Memory.dump` shows the loaded program as instructions, and the words of the
  other segments that are not zero. Code that cannot be decoded is read as a
  word, by an access that counts like any other;
* `Memory.hexDump` shows all bytes of a segment, sixteen in a row.
-/

namespace Machine32

/-- A word as text, with all its hexadecimal digits. -/
def Word.hexText (w : Word) : String :=
  "0x" ++ Numeral.hex .upper 8 w.toNat

/-- A word as text, in hexadecimal and as a signed number. -/
def Word.fullText (w : Word) : String :=
  hexText w ++ " (" ++ Numeral.signed (toSigned w) ++ ")"

namespace Registers

/-- The registers as text. -/
def dump (s : Registers) : String :=
  let general := Register.general.map fun r => r.name ++ " = " ++ Word.fullText (s.read r) ++ "\n"
  String.join general
    ++ "IP  = " ++ Word.hexText s.ip ++ "\n"
    ++ "ZF  = " ++ Numeral.decimal s.zeroFlag.toNat ++ "\n"

end Registers

/-- A place in the loaded program. -/
structure CodeEntry where
  address : Address
  /-- The instruction there, or the word there and why it is none. -/
  content : Except (Word × DecodeError) Instruction

/-- A code entry as text. -/
def CodeEntry.text (e : CodeEntry) : String :=
  "  " ++ Address.text e.address ++ ": " ++
    match e.content with
    | .ok i => i.text
    | .error (w, error) => Word.hexText w ++ " ; " ++ error.message

namespace Memory

/-- The code from the address `a` on up to the end of the loaded program, and
    the memory after reading it. -/
def codeEntries (m : Memory) (a : Nat) : List CodeEntry × Memory :=
  if a < m.programEnd.toNat then
    let address := UInt32.ofNat a
    match Instruction.decode (m.window address Instruction.maxLength) with
    | .ok i =>
      let (entries, m) := codeEntries m (a + i.length)
      (⟨address, .ok i⟩ :: entries, m)
    | .error e =>
      let read := m.readWord address
      let (entries, m) := codeEntries read.2 (a + Word.size)
      (⟨address, .error (read.1, e)⟩ :: entries, m)
  else ([], m)
termination_by m.programEnd.toNat - a
decreasing_by
  · have := i.length_pos
    omega
  · simp only [readWord_programEnd, Word.size]
    omega

variable (m : Memory)

/-- The words of a segment that are not zero, with their addresses. -/
def wordEntries (r : Region) : List (Address × Word) :=
  let s := m.layout.segment r
  (List.range (s.size.toNat / Word.size)).filterMap fun i =>
    let a := s.start + UInt32.ofNat (i * Word.size)
    let w := m.peekWord a
    if w = 0 then none else some (a, w)

/-- The line above the contents of a segment. -/
def segmentTitle (r : Region) : String :=
  r.name ++ " " ++ (m.layout.segment r).text

/-- The lines of a dump that show the words of a segment. -/
def wordLines (r : Region) : List String :=
  m.segmentTitle r :: (m.wordEntries r).map fun (a, w) =>
    "  " ++ Address.text a ++ ": " ++ Word.fullText w

/-- The contents of memory as text, and the memory after reading it. -/
def dump : String × Memory :=
  let (entries, m) := m.codeEntries 0
  let lines := m.segmentTitle .program :: entries.map CodeEntry.text
    ++ m.wordLines .data ++ m.wordLines .stack
  (String.join (lines.map (· ++ "\n")), m)

/-- Bytes in rows of sixteen, the last of which may be shorter. -/
def rows : List UInt8 → List (List UInt8)
  | [] => []
  | b :: bytes => (b :: bytes.take 15) :: rows (bytes.drop 15)
termination_by bytes => bytes.length

/-- A row of bytes as text, under the address of its first byte. -/
def rowText (a : Nat) (row : List UInt8) : String :=
  "0x" ++ Numeral.hex .upper 4 a ++ ":"
    ++ String.join (row.map fun b => " " ++ Numeral.hex .upper 2 b.toNat)

/-- All bytes of a segment as text. -/
def hexDump (r : Region) : String :=
  let start := (m.layout.segment r).start.toNat
  let lines := (rows (m.segmentBytes r)).zipIdx.map fun (row, i) => rowText (start + 16 * i) row
  String.join (lines.map (· ++ "\n"))

end Memory

end Machine32
