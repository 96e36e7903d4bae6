import Machine32.Memory.Image
import Machine32.Proofs.Result
import Machine32.Machine.Basic
import Machine32.Proofs.Isa.Stream
import Machine32.Proofs.Memory.Words

/-!
# Loaded programs

When a program is loaded, and what a machine is then: the state it is switched
on with, with the image of the program in memory (`load_code`). The bytes of an
instruction in memory are decoded to it, whatever the bytes behind them are
(`decode_window`).
-/

namespace Machine32

theorem getElem?_overwrite_of_lt {bytes : Array UInt8} {start n : Nat} (image : List UInt8)
    (h : n < start) : (overwrite bytes start image)[n]? = bytes[n]? := by
  induction image generalizing bytes start with
  | nil => rfl
  | cons b image ih =>
    rw [overwrite, ih (by omega), Array.getElem?_setIfInBounds_ne (by omega)]

theorem getElem?_overwrite {bytes : Array UInt8} {start k : Nat} {image : List UInt8}
    (hk : k < image.length) (h : start + k < bytes.size) :
    (overwrite bytes start image)[start + k]? = image[k]? := by
  induction image generalizing bytes start k with
  | nil => exact absurd hk (Nat.not_lt_zero _)
  | cons b image ih =>
    cases k with
    | zero =>
      rw [overwrite, getElem?_overwrite_of_lt image (by omega), Nat.add_zero,
        Array.getElem?_setIfInBounds_self_of_lt (by omega)]
      rfl
    | succ k =>
      have hlt : start + 1 + k < (bytes.setIfInBounds start b).size := by
        rw [Array.size_setIfInBounds]
        omega
      rw [overwrite, List.getElem?_cons_succ, Nat.add_comm k, ← Nat.add_assoc]
      exact ih (Nat.lt_of_succ_lt_succ hk) hlt

namespace Memory

variable {m memory : Memory} {p : Program}

theorem getElem?_bytes {a : Address} (h : a.toNat < m.bytes.size) :
    m.bytes[a.toNat]? = some (m.peekByte a) := by
  rw [peekByte, byte?, Array.getElem?_eq_getElem h]
  rfl

theorem length_window {a : Address} {n : Nat} (h : a.toNat + n ≤ m.bytes.size) :
    (m.window a n).length = n := by
  rw [window, Array.length_toList, Array.size_extract, Nat.min_eq_left h, Nat.add_sub_cancel_left]

theorem getElem?_window {a : Address} {n j : Nat} (hj : j < n) :
    (m.window a n)[j]? = m.bytes[a.toNat + j]? := by
  rw [window, Array.getElem?_toList, Array.getElem?_extract]
  split
  · rfl
  · rw [Array.getElem?_eq_none (by omega)]

/-- Behind the program segment there is room for an instruction. -/
theorem add_maxLength_le {a : Address} (h : a < m.programEnd) :
    a.toNat + Instruction.maxLength ≤ m.bytes.size := by
  have ha := UInt32.lt_iff_toNat_lt.1 h
  have hend := UInt32.le_iff_toNat_le.1 m.programEnd_le
  obtain ⟨-, hdata, hstack⟩ := m.layout.aligned
  obtain ⟨-, hdata', hstack'⟩ := m.layout.nonempty
  rw [Word.size] at hdata hstack
  rw [m.size_bytes, Layout.toNat_total, Instruction.maxLength]
  omega

/-- The bytes of `code` are at the start of memory. -/
def HasCode (m : Memory) (code : List UInt8) : Prop :=
  ∀ a : Address, a.toNat < code.length → code[a.toNat]? = some (m.peekByte a)

theorem checkImage_eq_ok_iff {x : Unit} :
    m.checkImage p = .ok x ↔ p.codeSize ≤ m.layout.programSize ∧
      p.dataSize ≤ m.layout.dataSize := by
  rw [checkImage]
  split
  · next h => simp [UInt32.not_le.2 h]
  split
  · next h => simp [UInt32.not_le.2 h]
  · next hcode hdata => simp [UInt32.not_lt.1 hcode, UInt32.not_lt.1 hdata]

/-- A program is loaded if its parts fit their segments. -/
theorem load_eq_ok_iff :
    m.load p = .ok memory ↔ (p.codeSize ≤ m.layout.programSize ∧
      p.dataSize ≤ m.layout.dataSize) ∧
      memory = ((m.store 0 p.code).store m.layout.programSize p.data).sealProgram p.codeSize := by
  simp only [load, Except.bind_eq_ok_iff, checkImage_eq_ok_iff, Except.pure_eq_ok_iff]
  simp

@[simp] theorem sealProgram_layout (m : Memory) (a : Address) :
    (m.sealProgram a).layout = m.layout := by
  rw [sealProgram]
  split <;> rfl

@[simp] theorem sealProgram_bytes (m : Memory) (a : Address) :
    (m.sealProgram a).bytes = m.bytes := by
  rw [sealProgram]
  split <;> rfl

@[simp] theorem sealProgram_faults (m : Memory) (a : Address) :
    (m.sealProgram a).faults = m.faults := by
  rw [sealProgram]
  split <;> rfl

theorem sealProgram_programEnd {m : Memory} {a : Address} (h : a ≤ m.layout.programSize) :
    (m.sealProgram a).programEnd = a := by
  rw [sealProgram, dif_pos h]

theorem load_layout (h : m.load p = .ok memory) : memory.layout = m.layout := by
  obtain ⟨-, rfl⟩ := load_eq_ok_iff.1 h
  exact sealProgram_layout ..

/-- The code of a loaded program is at the start of memory. -/
theorem load_code (h : m.load p = .ok memory)
    (hfits : p.code.length ≤ m.layout.programSize.toNat) : memory.HasCode p.code := by
  intro a ha
  have hlayout := load_layout h
  obtain ⟨-, rfl⟩ := load_eq_ok_iff.1 h
  have hsize := m.size_bytes
  rw [Layout.toNat_total] at hsize
  rw [← getElem?_bytes, sealProgram_bytes]
  · -- The data is stored behind the code.
    change _ = (overwrite (overwrite m.bytes 0 p.code) m.layout.programSize.toNat p.data)[_]?
    rw [getElem?_overwrite_of_lt _ (by omega)]
    have hlt : 0 + a.toNat < m.bytes.size := by omega
    have hcode := getElem?_overwrite ha hlt
    rw [Nat.zero_add] at hcode
    exact hcode.symm
  · rw [size_bytes, hlayout, Layout.toNat_total]
    omega

/-- The end of a loaded program is that of its code. -/
theorem load_programEnd (h : m.load p = .ok memory) : memory.programEnd = p.codeSize := by
  obtain ⟨⟨hcode, -⟩, rfl⟩ := load_eq_ok_iff.1 h
  exact sealProgram_programEnd hcode

/-- An instruction whose bytes are in memory is decoded there. -/
theorem decode_window {is : List Instruction} {a : Address} {i : Instruction}
    (h : m.HasCode (is.flatMap Instruction.encode))
    (hfits : Instruction.totalLength is ≤ m.bytes.size) (hlt : m.bytes.size < 0x100000000)
    (hi : (a.toNat, i) ∈ Instruction.located 0 is) :
    Instruction.decode (m.window a Instruction.maxLength) = .ok i := by
  have hle := (Instruction.le_of_mem_located hi).2
  have hmax := i.length_le_maxLength
  obtain ⟨pre, post, rfl, hpre⟩ := Instruction.mem_located_iff.1 hi
  -- The window begins with the instruction, as it is as long as the longest one.
  have hprefix : i.encode <+: m.window a Instruction.maxLength := by
    rw [List.prefix_iff_getElem?]
    intro j hj
    rw [Instruction.length_encode] at hj
    have haddr : (a + UInt32.ofNat j).toNat = a.toNat + j := toNat_add_ofNat (by omega)
    have hbyte := h (a + UInt32.ofNat j) (by
      rw [haddr, Instruction.length_flatMap_encode]
      omega)
    rw [← getElem?_bytes (by rw [haddr]; omega), haddr] at hbyte
    have hencode : ((pre ++ i :: post).flatMap Instruction.encode)[a.toNat + j]? =
        i.encode[j]? := by
      rw [List.flatMap_append, List.flatMap_cons, hpre, Nat.zero_add,
        ← Instruction.length_flatMap_encode, List.getElem?_append_right (by omega),
        Nat.add_sub_cancel_left, List.getElem?_append_left (by rwa [Instruction.length_encode])]
    rw [getElem?_window (by omega), ← hbyte, hencode, List.getElem?_eq_getElem]
  obtain ⟨rest, hrest⟩ := hprefix
  rw [← hrest, Instruction.decode_encode]

end Memory

namespace Machine

variable {m m' : Machine} {p : Program}

/-- A machine with a program loaded is switched on with the image in memory. -/
theorem loadProgram_eq_ok_iff :
    m.loadProgram p = .ok m' ↔ ∃ memory, (Memory.zero m.layout).load p = .ok memory ∧
      m' = { m with state := .initial memory, program := some p } := by
  rw [loadProgram, Memory.reset, ← layout]
  cases (Memory.zero m.layout).load p <;> simp [eq_comm]

end Machine

end Machine32
