import Machine32.Machine.Execute
import Machine32.Proofs.Memory.Accesses

/-!
# Words outside of memory

A word that starts behind the end of memory has no byte in it, unless it reaches
around the end of the address space: then its last bytes are the first ones of the
program segment, where they are read and written like all others.

* `Memory.Inert` says that there is nothing of a word to read or to write;
* `Memory.inert_iff_forall`: that is so if all of its bytes are outside of memory;
* `stray_words_inert`: so it is so of a word that starts there and does not reach
  around the end of the address space, and loads and stores of it touch no memory.
-/

namespace Machine32

theorem Word.byte_zero (i : Nat) : Word.byte 0 i = 0 :=
  congrArg UInt8.ofNat (Nat.zero_shiftRight (8 * i))

namespace Memory

variable {m : Memory} {a : Address} {w : Word} {n : Nat}

/-- Reading the word at `a` gives zero and writing it has no effect, but each of
    its bytes is a fault. -/
structure Inert (m : Memory) (a : Address) : Prop where
  read : m.readWord a = (0, m.faulted Word.size)
  write : ∀ w, m.writeWord a w = m.faulted Word.size

theorem zero_lt_size (m : Memory) : 0 < m.size := by
  have hroom := m.layout.nonempty.1
  rw [entryLength] at hroom
  rw [size, UInt32.lt_iff_toNat_lt, Layout.toNat_total, UInt32.toNat_zero]
  omega

theorem writeFront_of_size_le (h : ∀ i < n, m.size ≤ a + UInt32.ofNat i) :
    m.writeFront a w n = m.faulted n := by
  induction n with
  | zero => rfl
  | succ n ih =>
    have hn : (m.faulted n).size ≤ a + UInt32.ofNat n := h n (Nat.lt_succ_self n)
    rw [writeFront, ih fun i hi => h i (Nat.lt_succ_of_lt hi), writeByte_of_size_le hn,
      faulted_faulted]

theorem peekWord_of_size_le (h : ∀ i < Word.size, m.size ≤ a + UInt32.ofNat i) :
    m.peekWord a = 0 := by
  refine peekWord_eq fun i hi => ?_
  rw [peekByte_of_size_le (h i hi), Word.byte_zero]

/-- There is nothing of a word if none of its bytes is in memory. -/
theorem inert_iff_forall : m.Inert a ↔ ∀ i < Word.size, m.size ≤ a + UInt32.ofNat i := by
  constructor
  · intro h
    have hfaults := congrArg (fun x => x.2.faults) (m.readWord_eq a ▸ h.read)
    exact strays_eq_size_iff.1 (Nat.add_left_cancel hfaults)
  · intro h
    refine ⟨?_, fun w => ?_⟩
    · rw [readWord_eq, peekWord_of_size_le h, strays_eq_size_iff.2 h]
    · rw [writeWord_eq_writeFront, writeFront_of_size_le h]

/-- Something of a word that starts outside of memory is there only if it reaches
    around the end of the address space. -/
theorem inert_iff_of_size_le (h : m.size ≤ a) :
    m.Inert a ↔ a.toNat + Word.size ≤ 0x100000000 := by
  have hlt := a.toNat_lt
  rw [inert_iff_forall, Word.size]
  constructor
  · -- Otherwise one of its bytes is the first one of memory.
    refine fun hall => Nat.le_of_not_lt fun hwraps => ?_
    have hzero : a + UInt32.ofNat (0x100000000 - a.toNat) = 0 := by
      rw [← UInt32.toNat_inj, UInt32.toNat_add, UInt32.toNat_ofNat', UInt32.toNat_zero]
      omega
    have hle := hall (0x100000000 - a.toNat) (by omega)
    rw [hzero] at hle
    exact UInt32.not_le.2 m.zero_lt_size hle
  · intro hfits i hi
    rw [UInt32.le_iff_toNat_le] at h ⊢
    rw [toNat_add_ofNat (by omega)]
    exact Nat.le_add_right_of_le h

/-- A word at the end of the address space starts outside of memory, but three of
    its bytes are the first ones of the program: they are written and read, and
    only the one before them is a fault. -/
theorem not_inert_at_end :
    let m := zero .least
    let m' := m.writeWord 0xFFFFFFFF 0x44332211
    m.size ≤ 0xFFFFFFFF ∧ m'.byte? 0 ≠ m.byte? 0 ∧ (m'.readWord 0xFFFFFFFF).1 ≠ 0 ∧
      m'.faults = m.faults + 1 ∧ ¬m.Inert 0xFFFFFFFF := by
  have hwritten : ((zero .least).writeWord 0xFFFFFFFF 0x44332211).byte? 0 = some 0x22 := by
    decide
  refine ⟨by decide, ?_, by decide, by decide, fun h => ?_⟩
  · rw [hwritten]
    decide
  · rw [h.write] at hwritten
    exact absurd hwritten (by decide)

end Memory

namespace State

variable {s : State} {a : Address} {r : Register}

/-- A load of a word that is not there gives zero, and changes nothing else but
    the count of faults. -/
theorem execute_load_of_inert (h : s.memory.Inert a) :
    s.execute (.load r a) =
      .ok ((({ s with memory := s.memory.faulted Word.size }).write r 0).advance 8) := by
  rw [execute, load, h.read]
  rfl

/-- A store of a word that is not there changes nothing but the count of faults. -/
theorem execute_store_of_inert (h : s.memory.Inert a) :
    s.execute (.store a r) =
      .ok (({ s with memory := s.memory.faulted Word.size }).advance 8) := by
  rw [execute, store, h.write]
  rfl

end State

/-- There is nothing of a word that starts outside of memory, if it does not
    reach around the end of the address space: reading it gives zero and writing
    it changes no byte, both with four faults, and so loads and stores of it touch
    no memory. A word that does reach around goes on at the start of memory. -/
theorem stray_words_inert (a : Address) :
    (∀ m : Memory, m.size ≤ a → (m.Inert a ↔ a.toNat + Word.size ≤ 0x100000000)) ∧
      ∀ (s : State) (r : Register), s.memory.size ≤ a → a.toNat + Word.size ≤ 0x100000000 →
        s.execute (.load r a) =
            .ok ((({ s with memory := s.memory.faulted Word.size }).write r 0).advance 8) ∧
          s.execute (.store a r) =
            .ok (({ s with memory := s.memory.faulted Word.size }).advance 8) := by
  refine ⟨fun m h => Memory.inert_iff_of_size_le h, fun s r h hfits => ?_⟩
  have hinert := (Memory.inert_iff_of_size_le h).2 hfits
  exact ⟨State.execute_load_of_inert hinert, State.execute_store_of_inert hinert⟩

/-- Neither the last word of the address space is there nor the first one behind
    the end of memory. -/
theorem stray_words_inert_sample :
    let m := (Memory.zero .least).writeWord 0 0x44332211
    m.Inert 0xFFFFFFFC ∧ m.Inert 16 ∧ ∃ t, (State.initial m).execute (.store 16 .esp) = .ok t ∧
      t.memory = m.faulted 4 ∧ t.registers.ip = 8 := by
  intro m
  have hstore := ((stray_words_inert 16).2 (.initial m) .esp (by decide) (by decide)).2
  exact ⟨((stray_words_inert 0xFFFFFFFC).1 m (by decide)).2 (by decide),
    ((stray_words_inert 16).1 m (by decide)).2 (by decide), _, hstore, rfl, rfl⟩

end Machine32
