import Machine32.Memory.Loader
import Machine32.Proofs.Memory.Segments

/-!
# Programs that fit

The size of a part of a program is a word, and tells how long the part is if there are
less than `2 ^ 32` bytes of it. Then a program is loaded exactly if its parts fit, and
otherwise memory stays as it is (`writeImage_exact`). Of longer parts the size tells less,
so that loading such a program can break off (`writeImage_breaks_off`).
-/

namespace Machine32

namespace Memory

variable {m m' : Memory} {p : Program} {start : Address} {image : List UInt8}

theorem size_bytes_store (m : Memory) (start : Address) (image : List UInt8) :
    (m.store start image).bytes.size = m.bytes.size :=
  size_overwrite ..

/-- Bytes are stored to their places, and nowhere else. -/
theorem getElem?_store (h : start.toNat + image.length ≤ m.bytes.size) (n : Nat) :
    (m.store start image).bytes[n]? =
      if start.toNat ≤ n ∧ n < start.toNat + image.length then image[n - start.toNat]?
      else m.bytes[n]? := by
  change (overwrite m.bytes start.toNat image)[n]? = _
  split
  · next hn =>
    obtain ⟨k, rfl⟩ := Nat.exists_eq_add_of_le hn.1
    rw [getElem?_overwrite (by omega) (by omega), Nat.add_sub_cancel_left]
  · next hn =>
    rcases Nat.lt_or_ge n start.toNat with hlt | hle
    · exact getElem?_overwrite_of_lt _ hlt
    · exact getElem?_overwrite_of_le (by omega)

theorem copy?_eq_some (h : start.toNat + image.length ≤ m.bytes.size) :
    m.copy? start image = some (m.store start image) :=
  if_pos h

/-- The memory `m'` is `m` with the parts of a program at the start of their segments. -/
structure Receives (m : Memory) (p : Program) (m' : Memory) : Prop where
  layout : m'.layout = m.layout
  faults : m'.faults = m.faults
  programEnd : m'.programEnd.toNat = p.code.length
  code : ∀ k < p.code.length, m'.bytes[k]? = p.code[k]?
  data : ∀ k < p.data.length, m'.bytes[m.layout.programSize.toNat + k]? = p.data[k]?
  rest : ∀ n, p.code.length ≤ n →
    ¬(m.layout.programSize.toNat ≤ n ∧ n < m.layout.programSize.toNat + p.data.length) →
      m'.bytes[n]? = m.bytes[n]?

/-- A program is loaded where it fits. -/
theorem receives_store (hcode : p.code.length ≤ m.layout.programSize.toNat)
    (hdata : p.data.length ≤ m.layout.dataSize.toNat) :
    m.Receives p
      (((m.store 0 p.code).store m.layout.programSize p.data).sealProgram p.codeSize) := by
  have hsize := m.size_bytes
  rw [Layout.toNat_total] at hsize
  have hzero : (0 : Address).toNat = 0 := rfl
  have hcodeSize : p.codeSize.toNat = p.code.length :=
    UInt32.toNat_ofNat_of_lt' (Nat.lt_of_le_of_lt hcode m.layout.programSize.toNat_lt)
  have hfits : p.codeSize ≤
      ((m.store 0 p.code).store m.layout.programSize p.data).layout.programSize := by
    rwa [UInt32.le_iff_toNat_le, hcodeSize]
  have hroom : m.layout.programSize.toNat + p.data.length ≤ (m.store 0 p.code).bytes.size := by
    rw [size_bytes_store]
    omega
  -- The data is copied behind the code, and does not touch it.
  have hbytes := getElem?_store hroom
  exact {
    layout := sealProgram_layout ..
    faults := sealProgram_faults ..
    programEnd := (congrArg UInt32.toNat (sealProgram_programEnd hfits)).trans hcodeSize
    code := by
      intro k hk
      rw [sealProgram_bytes, hbytes, if_neg (by omega), getElem?_store (by omega),
        if_pos (by omega), hzero, Nat.sub_zero]
    data := by
      intro k hk
      rw [sealProgram_bytes, hbytes, if_pos (by omega), Nat.add_sub_cancel_left]
    rest := by
      intro n hn hdata
      rw [sealProgram_bytes, hbytes, if_neg hdata, getElem?_store (by omega), if_neg (by omega)]
  }

/-- A program that fits is copied to places that are there. -/
theorem writeImage_of_fits (hcode : p.code.length ≤ m.layout.programSize.toNat)
    (hdata : p.data.length ≤ m.layout.dataSize.toNat) (hcheck : m.checkImage p = .ok ()) :
    m.writeImage p = some (.ok (),
      ((m.store 0 p.code).store m.layout.programSize p.data).sealProgram p.codeSize) := by
  have hsize := m.size_bytes
  rw [Layout.toNat_total] at hsize
  have hfirst : m.copy? (m.layout.segment .program).start p.code = some (m.store 0 p.code) := by
    refine copy?_eq_some ?_
    change 0 + _ ≤ _
    omega
  have hsecond : (m.store 0 p.code).copy? ((m.store 0 p.code).layout.segment .data).start p.data =
      some ((m.store 0 p.code).store m.layout.programSize p.data) := by
    refine copy?_eq_some ?_
    rw [size_bytes_store]
    change m.layout.programSize.toNat + _ ≤ _
    omega
  have hend (m : Memory) : (m.layout.segment .program).start + p.codeSize = p.codeSize :=
    UInt32.zero_add _
  simp only [writeImage, hcheck, hfirst, Option.bind_eq_bind, Option.bind_some]
  rw [hsecond, Option.bind_some, hend]
  rfl

end Memory

/-- Of a program whose parts are each shorter than `2 ^ 32` bytes, the sizes are checked
    exactly: it is loaded if both parts fit their segments, and then it is at the start of
    them with all other bytes left as they are. If not, the first segment that is too
    small is told, and memory stays as it is. -/
theorem writeImage_exact (m : Memory) (p : Program) (hcode : p.code.length < 0x100000000)
    (hdata : p.data.length < 0x100000000) :
    (p.code.length ≤ m.layout.programSize.toNat ∧ p.data.length ≤ m.layout.dataSize.toNat ∧
      m.checkImage p = .ok () ∧ ∃ m', m.writeImage p = some (.ok (), m') ∧ m.load p = .ok m' ∧
        m.Receives p m') ∨
    ∃ e, m.checkImage p = .error e ∧ m.writeImage p = some (.error e, m) ∧ m.load p = .error e ∧
      ((m.layout.programSize.toNat < p.code.length ∧ e.region = .program ∧
          e.size.toNat = p.code.length ∧ e.capacity = m.layout.programSize) ∨
        (p.code.length ≤ m.layout.programSize.toNat ∧
          m.layout.dataSize.toNat < p.data.length ∧ e.region = .data ∧
          e.size.toNat = p.data.length ∧ e.capacity = m.layout.dataSize)) := by
  have hcodeSize : p.codeSize.toNat = p.code.length := UInt32.toNat_ofNat_of_lt' hcode
  have hdataSize : p.dataSize.toNat = p.data.length := UInt32.toNat_ofNat_of_lt' hdata
  cases hcheck : m.checkImage p with
  | ok =>
    have hfits := Memory.checkImage_eq_ok_iff.1 hcheck
    have hload := Memory.load_eq_ok_iff.2 ⟨hfits, rfl⟩
    obtain ⟨hcode, hdata⟩ := hfits
    rw [UInt32.le_iff_toNat_le, hcodeSize] at hcode
    rw [UInt32.le_iff_toNat_le, hdataSize] at hdata
    exact .inl ⟨hcode, hdata, rfl, _, Memory.writeImage_of_fits hcode hdata hcheck, hload,
      Memory.receives_store hcode hdata⟩
  | error e =>
    refine .inr ⟨e, rfl, by rw [Memory.writeImage, hcheck], by rw [Memory.load, hcheck]; rfl, ?_⟩
    rw [Memory.checkImage] at hcheck
    split at hcheck
    · next hlt =>
      obtain rfl := Except.error.inj hcheck
      rw [UInt32.lt_iff_toNat_lt, hcodeSize] at hlt
      exact .inl ⟨hlt, rfl, hcodeSize, rfl⟩
    split at hcheck
    · next hle hlt =>
      obtain rfl := Except.error.inj hcheck
      rw [UInt32.lt_iff_toNat_lt, hcodeSize] at hle
      rw [UInt32.lt_iff_toNat_lt, hdataSize] at hlt
      exact .inr ⟨Nat.not_lt.1 hle, hlt, rfl, hdataSize, rfl⟩
    · cases hcheck

/-- The size of code of `2 ^ 32` bytes is zero. So it is said to fit, and loading it
    breaks off. -/
theorem writeImage_breaks_off :
    ∃ p : Program, p.code.length = 0x100000000 ∧
      (Memory.zero .standard).checkImage p = .ok () ∧
      (Memory.zero .standard).writeImage p = none := by
  let p : Program := ⟨List.replicate 0x100000000 0, [], 0, ∅, ∅⟩
  have hlength : p.code.length = 0x100000000 := List.length_replicate
  have hcheck : (Memory.zero .standard).checkImage p = .ok () := by
    refine Memory.checkImage_eq_ok_iff.2 ⟨?_, by decide⟩
    rw [Program.codeSize, hlength]
    decide
  have hcopy : (Memory.zero .standard).copy? 0 p.code = none := by
    rw [Memory.copy?, hlength, Memory.size_bytes]
    decide
  refine ⟨p, hlength, hcheck, ?_⟩
  rw [Memory.writeImage, hcheck]
  exact congrArg (Option.bind · _) hcopy

end Machine32
