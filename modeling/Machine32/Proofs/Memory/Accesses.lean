import Machine32.Proofs.Memory.Words

/-!
# Words that are only partly in memory

A word takes four addresses, some of which may be outside of memory: at the end
of it, or at the end of the address space, where the others wrap around to the
start of memory. These bytes are zero when the word is read and lost when it is
written, and each of them is a fault.

* `strays` counts them, and `faulted` is a memory with so many more faults;
* `readWord_eq` and `faults_writeWord`: an access counts just these;
* `readWord_writeWord`: what is read is what was last written to each byte.
-/

namespace Machine32

/-- The layout of the smallest memory. -/
def Layout.least : Layout where
  programSize := 8
  dataSize := 4
  stackSize := 4
  aligned := by decide
  nonempty := by decide
  total_lt := by decide

namespace Memory

variable {m : Memory} {a : Address} {w : Word} {n : Nat}

/-- The memory `m` with `n` more faults counted. -/
def faulted (m : Memory) (n : Nat) : Memory :=
  { m with faults := m.faults + n }

/-- How many bytes of the word at `a` are outside of memory. -/
def strays (m : Memory) (a : Address) : Nat :=
  (List.range Word.size).countP fun i => m.size ≤ a + UInt32.ofNat i

theorem size_le_iff : m.size ≤ a ↔ m.bytes.size ≤ a.toNat := by
  rw [m.size_bytes, UInt32.le_iff_toNat_le, size]

theorem lt_size_iff : a < m.size ↔ a.toNat < m.bytes.size := by
  rw [m.size_bytes, UInt32.lt_iff_toNat_lt, size]

theorem byte?_eq_none_iff : m.byte? a = none ↔ m.size ≤ a := by
  rw [byte?, Array.getElem?_eq_none_iff, size_le_iff]

theorem peekByte_of_size_le (h : m.size ≤ a) : m.peekByte a = 0 := by
  rw [peekByte, byte?_eq_none_iff.2 h, Option.getD_none]

/-! ## Faults -/

theorem faulted_zero (m : Memory) : m.faulted 0 = m := rfl

theorem size_faulted (m : Memory) (n : Nat) : (m.faulted n).size = m.size := rfl

theorem size_writeByte (m : Memory) (a : Address) (x : UInt8) :
    (m.writeByte a x).size = m.size := by
  rw [size, writeByte_layout, size]

theorem faulted_faulted (m : Memory) (n k : Nat) : (m.faulted n).faulted k = m.faulted (n + k) := by
  rw [faulted, faulted, faulted, Nat.add_assoc]

theorem touch_eq_faulted (m : Memory) (a : Address) :
    m.touch a = m.faulted (if m.size ≤ a then 1 else 0) := by
  rw [touch]
  split
  · next h => rw [if_neg (mt size_le_iff.1 (Nat.not_le.2 h)), faulted_zero]
  · next h => rw [if_pos (size_le_iff.2 (Nat.not_lt.1 h)), faulted]

theorem writeByte_of_size_le (h : m.size ≤ a) (x : UInt8) : m.writeByte a x = m.faulted 1 :=
  dif_neg (Nat.not_lt.2 (size_le_iff.1 h))

theorem faults_writeByte (m : Memory) (a : Address) (x : UInt8) :
    (m.writeByte a x).faults = m.faults + if m.size ≤ a then 1 else 0 := by
  by_cases h : m.size ≤ a
  · rw [writeByte_of_size_le h, if_pos h, faulted]
  · rw [writeByte, dif_pos (Nat.not_le.1 (mt size_le_iff.2 h)), if_neg h, Nat.add_zero]

theorem strays_eq_sum (m : Memory) (a : Address) :
    m.strays a = (if m.size ≤ a then 1 else 0) + (if m.size ≤ a + 1 then 1 else 0) +
      (if m.size ≤ a + 2 then 1 else 0) + (if m.size ≤ a + 3 then 1 else 0) := by
  have hrange : List.range Word.size = [0, 1, 2, 3] := rfl
  have h₀ : UInt32.ofNat 0 = 0 := rfl
  have h₁ : UInt32.ofNat 1 = 1 := rfl
  have h₂ : UInt32.ofNat 2 = 2 := rfl
  have h₃ : UInt32.ofNat 3 = 3 := rfl
  simp only [strays, hrange, List.countP_cons, List.countP_nil, decide_eq_true_eq, h₀, h₁, h₂, h₃,
    UInt32.add_zero]
  omega

/-- Reading a word counts its bytes outside of memory, and changes nothing else. -/
theorem readWord_eq (m : Memory) (a : Address) :
    m.readWord a = (m.peekWord a, m.faulted (m.strays a)) := by
  refine Prod.ext (m.readWord_fst a) ?_
  simp only [readWord, readByte, touch_eq_faulted, size_faulted, faulted_faulted, strays_eq_sum]
  rfl

/-- Writing a word counts its bytes outside of memory. -/
theorem faults_writeWord (m : Memory) (a : Address) (w : Word) :
    (m.writeWord a w).faults = m.faults + m.strays a := by
  simp only [writeWord, faults_writeByte, size_writeByte, strays_eq_sum, Nat.add_assoc]

/-- No byte of a word in memory is a fault. -/
theorem strays_of_le (h : a.toNat + Word.size ≤ m.bytes.size) : m.strays a = 0 := by
  have hsize := m.size_bytes
  have hlt := m.layout.total.toNat_lt
  rw [strays, List.countP_eq_zero]
  intro i hi
  have hi := List.mem_range.1 hi
  rw [decide_eq_true_iff, size_le_iff, toNat_add_ofNat (by omega)]
  omega

theorem strays_eq_zero_iff : m.strays a = 0 ↔ ∀ i < Word.size, a + UInt32.ofNat i < m.size := by
  simp only [strays, List.countP_eq_zero, List.mem_range, decide_eq_true_eq, UInt32.not_le]

/-- Reading a word in memory is looking at it. -/
theorem readWord_of_le (h : a.toNat + Word.size ≤ m.bytes.size) :
    m.readWord a = (m.peekWord a, m) := by
  rw [readWord_eq, strays_of_le h, faulted_zero]

theorem strays_eq_size_iff :
    m.strays a = Word.size ↔ ∀ i < Word.size, m.size ≤ a + UInt32.ofNat i := by
  have h := List.countP_eq_length (p := fun i => decide (m.size ≤ a + UInt32.ofNat i))
    (l := List.range Word.size)
  rw [List.length_range] at h
  simp only [strays, h, List.mem_range, decide_eq_true_eq]

/-! ## What is read -/

/-- The bytes of a word that is read are those at its four addresses. -/
theorem toBytes_readWord (m : Memory) (a : Address) :
    Word.toBytes (m.readWord a).1 =
      (List.range Word.size).map fun i => (m.byte? (a + UInt32.ofNat i)).getD 0 := by
  rw [readWord_fst, toBytes_peekWord]
  rfl

/-- What is read back of a word lacks its bytes outside of memory. -/
theorem toBytes_readWord_writeWord_self (m : Memory) (a : Address) (w : Word) :
    Word.toBytes ((m.writeWord a w).readWord a).1 = (List.range Word.size).map fun i =>
      if a + UInt32.ofNat i < m.size then Word.byte w i else 0 := by
  rw [toBytes_readWord]
  refine List.map_congr_left fun i hi => ?_
  split
  · next h => rw [byte?_writeWord_of_lt (List.mem_range.1 hi) (lt_size_iff.1 h), Option.getD_some]
  · next h =>
    have hnone : (m.writeWord a w).byte? (a + UInt32.ofNat i) = none := by
      rw [byte?_eq_none_iff, size, writeWord_layout]
      exact UInt32.not_lt.1 h
    rw [hnone, Option.getD_none]

/-- A word that is read consists of the bytes at its four addresses, those outside
    of memory being zero. Reading it changes no byte. A word that is written shows
    at its addresses in memory and nowhere else, and writing it changes nothing
    else, so that all of it but its bytes outside of memory is read back. Each
    access counts just these bytes. -/
theorem readWord_writeWord :
    (∀ (m : Memory) (b : Address),
      Word.toBytes (m.readWord b).1 =
          (List.range Word.size).map (fun i => (m.byte? (b + UInt32.ofNat i)).getD 0) ∧
        (m.readWord b).2 = m.faulted (m.strays b) ∧ (m.byte? b = none ↔ m.size ≤ b)) ∧
      ∀ (m : Memory) (a : Address) (w : Word),
        (∀ i < Word.size, a + UInt32.ofNat i < m.size →
            (m.writeWord a w).byte? (a + UInt32.ofNat i) = some (Word.byte w i)) ∧
          (∀ x, ¬Word.Covers a x → (m.writeWord a w).byte? x = m.byte? x) ∧
          (m.writeWord a w).layout = m.layout ∧ (m.writeWord a w).programEnd = m.programEnd ∧
          (m.writeWord a w).faults = m.faults + m.strays a ∧
          Word.toBytes ((m.writeWord a w).readWord a).1 = (List.range Word.size).map (fun i =>
            if a + UInt32.ofNat i < m.size then Word.byte w i else 0) ∧
          (a.toNat + Word.size ≤ m.size.toNat → ((m.writeWord a w).readWord a).1 = w) := by
  refine ⟨fun m b => ⟨toBytes_readWord m b, congrArg Prod.snd (m.readWord_eq b), byte?_eq_none_iff⟩,
    fun m a w => ⟨fun i hi h => byte?_writeWord_of_lt hi (lt_size_iff.1 h) w,
      fun _ h => byte?_writeWord_of_not_covers h w, m.writeWord_layout a w,
      m.writeWord_programEnd a w, m.faults_writeWord a w, toBytes_readWord_writeWord_self m a w,
      fun h => ?_⟩⟩
  rw [readWord_fst]
  exact peekWord_writeWord_self (m.size_bytes ▸ h) w

/-- A word at the end of the address space: its upper half is at the start of
    memory, and is all that is read back of it. A word that does not lie at a
    multiple of four is read back as a whole. -/
theorem readWord_writeWord_sample :
    let m := (zero .least).writeWord 0xFFFFFFFE 0x44332211
    m.byte? 1 = some 0x44 ∧ m.byte? 2 = some 0 ∧ m.faults = 2 ∧
      Word.toBytes (m.readWord 0xFFFFFFFE).1 = [0, 0, 0x33, 0x44] ∧
      Word.toBytes (m.readWord 1).1 = [0x44, 0, 0, 0] ∧ (m.readWord 14).2 = m.faulted 2 ∧
      ((m.writeWord 6 0x88776655).readWord 6).1 = 0x88776655 := by
  intro m
  obtain ⟨hwritten, hkept, -, -, hfaults, hback, -⟩ :=
    readWord_writeWord.2 (zero .least) 0xFFFFFFFE 0x44332211
  obtain ⟨-, -, -, -, -, -, hwhole⟩ := readWord_writeWord.2 m 6 0x88776655
  exact ⟨hwritten 3 (by decide) (by decide), hkept 2 (by decide), hfaults, hback,
    (readWord_writeWord.1 m 1).1, (readWord_writeWord.1 m 14).2.1, hwhole (by decide)⟩

end Memory

end Machine32
