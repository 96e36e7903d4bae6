import Machine32.Program
import Machine32.Isa.Encoding
import Machine32.Isa.Text

/-!
# Listings

A listing shows a program for a reader: its constants, then its code divided
into *chunks*, each with its address, its bytes and the instruction they are.
Where no instruction can be decoded the chunk is the next word, or what is left
of it, with the reason. The labels of an address stand above its chunk, the
labels of a jump's target behind the jump.

* `Chunk.split` divides code into chunks, of which the bytes make up the code
  (`split_flatMap`);
* `Program.listing` is the text.
-/

namespace Machine32

/-- Consecutive bytes of code. -/
structure Chunk where
  /-- The number of bytes of code before it. -/
  offset : Nat
  /-- The bytes. -/
  bytes : List UInt8
  /-- The instruction they are, or why there is none. -/
  content : Except DecodeError Instruction

namespace Chunk

/-- The chunks of `code`, of which the first one has the given offset. -/
def split (offset : Nat) (code : List UInt8) : List Chunk :=
  match code with
  | [] => []
  | b :: bs =>
    match Instruction.decode (b :: bs) with
    | .ok i =>
      ⟨offset, (b :: bs).take i.length, .ok i⟩
        :: split (offset + i.length) ((b :: bs).drop i.length)
    | .error e =>
      ⟨offset, (b :: bs).take Word.size, .error e⟩
        :: split (offset + Word.size) ((b :: bs).drop Word.size)
termination_by code.length
decreasing_by
  -- What is left of the code is shorter, as no instruction is empty.
  · have := i.length_pos
    simp only [List.length_drop, List.length_cons]
    omega
  · simp only [List.length_drop, List.length_cons, Word.size]
    omega

/-- The bytes of the chunks make up the code. -/
theorem split_flatMap (offset : Nat) (code : List UInt8) :
    (split offset code).flatMap (·.bytes) = code := by
  fun_induction split offset code with
  | case1 => rfl
  | case2 _ _ _ i _ ih => rw [List.flatMap_cons, ih, List.take_append_drop]
  | case3 _ _ _ e _ ih => rw [List.flatMap_cons, ih, List.take_append_drop]

/-- The address of a chunk of code at the start of memory. -/
def address (c : Chunk) : Address :=
  UInt32.ofNat c.offset

/-- Bytes as text, two hexadecimal digits each. -/
def bytesText (bytes : List UInt8) : String :=
  " ".intercalate (bytes.map fun b => Numeral.hex .upper 2 b.toNat)

/-- The text `s` with blanks behind it up to a width. -/
def padRight (width : Nat) (s : String) : String :=
  s ++ String.ofList (List.replicate (width - s.length) ' ')

end Chunk

namespace Program

variable (p : Program)

/-- The lines of a listing that show the constants, in the order of their
    addresses. -/
def constantLines : List String :=
  if p.constants.entries.isEmpty then []
  else
    let inOrder := p.constants.entries.mergeSort fun c d => c.2.address ≤ d.2.address
    "" :: ".data" :: inOrder.map fun (name, c) =>
      name ++ " = " ++ Numeral.signed (Word.toSigned c.value) ++ "  ; " ++ Address.text c.address

/-- What a listing remarks about an instruction: the labels of its target. -/
def remark (i : Instruction) : String :=
  match i.target? with
  | none => ""
  | some target =>
    let labels := p.labelsAt target
    if labels.isEmpty then "" else "  ; " ++ ", ".intercalate labels

/-- The line of a listing that shows a chunk. -/
def chunkLine (c : Chunk) : String :=
  Address.text c.address ++ ":  " ++ Chunk.padRight 24 (Chunk.bytesText c.bytes) ++ "  "
    ++ match c.content with
      | .ok i => i.text ++ p.remark i
      | .error e => "; ERROR: " ++ e.message

/-- The lines of a listing that show the code. -/
def codeLines : List String :=
  (Chunk.split 0 p.code).flatMap fun c =>
    (p.labelsAt c.address).map ("." ++ ·) ++ [p.chunkLine c]

/-- The lines of a listing. -/
def listingLines : List String :=
  ["; toy32 disassembly",
   "; Entry point: " ++ Address.text p.entryPoint,
   "; Code size: " ++ Numeral.decimal p.codeSize.toNat ++ " bytes, data size: "
     ++ Numeral.decimal p.dataSize.toNat ++ " bytes"]
    ++ p.constantLines ++ [""] ++ p.codeLines

/-- The listing of a program. -/
def listing : String :=
  String.join (p.listingLines.map (· ++ "\n"))

end Program

end Machine32
