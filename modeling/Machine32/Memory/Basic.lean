import Machine32.Layout

/-!
# Memory

A memory holds a byte at every address below its size, which its layout gives,
and knows where the loaded program ends. Bytes and words can be read and
written at all 32-bit addresses: a read outside of memory gives zero and a
write there has no effect, but each such byte is counted as a *fault*. A word
takes the addresses from its own on, modulo `2 ^ 32`.

* `readByte`, `writeByte`, `readWord`, `writeWord` are the counted accesses;
* `byte?`, `peekByte`, `peekWord`, `window` and `segmentBytes` look at memory
  without counting.
-/

namespace Machine32

/-- The memory of a machine. -/
structure Memory where
  /-- The sizes of the segments. -/
  layout : Layout
  /-- The bytes, by address. -/
  bytes : Array UInt8
  /-- The layout is that of the bytes. -/
  size_bytes : bytes.size = layout.total.toNat
  /-- The end of the loaded program. -/
  programEnd : Address
  /-- A program ends in its segment. -/
  programEnd_le : programEnd ≤ layout.programSize
  /-- The number of accesses to bytes outside of memory. -/
  faults : Nat
  deriving DecidableEq

namespace Memory

/-- The memory of a given layout that holds zeros and no program. -/
def zero (layout : Layout) : Memory where
  layout := layout
  bytes := Array.replicate layout.total.toNat 0
  size_bytes := Array.size_replicate
  programEnd := 0
  programEnd_le := UInt32.le_iff_toNat_le.mpr (Nat.zero_le _)
  faults := 0

instance : Inhabited Memory :=
  ⟨zero default⟩

variable (m : Memory)

/-- The size of memory. -/
def size : UInt32 :=
  m.layout.total

/-- The byte at an address, if it is in memory. -/
def byte? (a : Address) : Option UInt8 :=
  m.bytes[a.toNat]?

/-- The byte at an address, zero outside of memory. -/
def peekByte (a : Address) : UInt8 :=
  (m.byte? a).getD 0

/-- The word at an address, its bytes outside of memory being zero. -/
def peekWord (a : Address) : Word :=
  Word.ofBytes (m.peekByte a) (m.peekByte (a + 1)) (m.peekByte (a + 2)) (m.peekByte (a + 3))

/-- The memory `m` after an access to the byte at `a`. -/
def touch (a : Address) : Memory :=
  if a.toNat < m.bytes.size then m else { m with faults := m.faults + 1 }

/-- Reads the byte at `a`. -/
def readByte (a : Address) : UInt8 × Memory :=
  (m.peekByte a, m.touch a)

/-- Writes the byte at `a`. -/
def writeByte (a : Address) (b : UInt8) : Memory :=
  if h : a.toNat < m.bytes.size then
    { m with
      bytes := m.bytes.set a.toNat b h
      size_bytes := by rw [Array.size_set, m.size_bytes] }
  else { m with faults := m.faults + 1 }

/-- Reads the word at `a`. -/
def readWord (a : Address) : Word × Memory :=
  let (b₀, m) := m.readByte a
  let (b₁, m) := m.readByte (a + 1)
  let (b₂, m) := m.readByte (a + 2)
  let (b₃, m) := m.readByte (a + 3)
  (Word.ofBytes b₀ b₁ b₂ b₃, m)

/-- Writes the word at `a`. -/
def writeWord (a : Address) (w : Word) : Memory :=
  let m := m.writeByte a (Word.byte w 0)
  let m := m.writeByte (a + 1) (Word.byte w 1)
  let m := m.writeByte (a + 2) (Word.byte w 2)
  m.writeByte (a + 3) (Word.byte w 3)

/-- The `n` bytes from `a` on, as far as they are in memory. -/
def window (a : Address) (n : Nat) : List UInt8 :=
  (m.bytes.extract a.toNat (a.toNat + n)).toList

/-- The bytes of a segment. -/
def segmentBytes (r : Region) : List UInt8 :=
  let s := m.layout.segment r
  (m.bytes.extract s.start.toNat s.stop.toNat).toList

/-- Lets the program end at `a`, or at the end of its segment if that comes
    first. -/
def sealProgram (a : Address) : Memory :=
  if h : a ≤ m.layout.programSize then { m with programEnd := a, programEnd_le := h }
  else { m with programEnd := m.layout.programSize, programEnd_le := UInt32.le_refl _ }

@[simp] theorem touch_layout (a : Address) : (m.touch a).layout = m.layout := by
  unfold touch; split <;> rfl

@[simp] theorem touch_bytes (a : Address) : (m.touch a).bytes = m.bytes := by
  unfold touch; split <;> rfl

@[simp] theorem touch_programEnd (a : Address) : (m.touch a).programEnd = m.programEnd := by
  unfold touch; split <;> rfl

@[simp] theorem touch_peekByte (a b : Address) : (m.touch a).peekByte b = m.peekByte b := by
  simp [peekByte, byte?]

/-- A counted access reads the word that is there. -/
@[simp] theorem readWord_fst (a : Address) : (m.readWord a).1 = m.peekWord a := by
  simp [readWord, readByte, peekWord]

@[simp] theorem readWord_layout (a : Address) : (m.readWord a).2.layout = m.layout := by
  simp [readWord, readByte]

@[simp] theorem readWord_bytes (a : Address) : (m.readWord a).2.bytes = m.bytes := by
  simp [readWord, readByte]

@[simp] theorem readWord_programEnd (a : Address) :
    (m.readWord a).2.programEnd = m.programEnd := by
  simp [readWord, readByte]

@[simp] theorem writeByte_layout (a : Address) (b : UInt8) :
    (m.writeByte a b).layout = m.layout := by
  unfold writeByte; split <;> rfl

@[simp] theorem writeByte_programEnd (a : Address) (b : UInt8) :
    (m.writeByte a b).programEnd = m.programEnd := by
  unfold writeByte; split <;> rfl

@[simp] theorem writeWord_layout (a : Address) (w : Word) :
    (m.writeWord a w).layout = m.layout := by
  simp [writeWord]

@[simp] theorem writeWord_programEnd (a : Address) (w : Word) :
    (m.writeWord a w).programEnd = m.programEnd := by
  simp [writeWord]

end Memory

/-- An address outside of memory. -/
structure OutOfBounds where
  address : Address
  deriving DecidableEq

/-- The text of the error that an access outside of memory is. -/
def OutOfBounds.message (e : OutOfBounds) : String :=
  "Memory out of bounds: address 0x" ++ Numeral.hex .lower 1 e.address.toNat

/-- Reads the byte at `a`, failing instead of counting. -/
def Memory.checkedByte (m : Memory) (a : Address) : Except OutOfBounds UInt8 :=
  match m.byte? a with
  | some b => .ok b
  | none => .error ⟨a⟩

end Machine32
