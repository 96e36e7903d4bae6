import Machine32.Memory.Basic

/-!
# Reading what was written

What memory shows after a word was written to it: the bytes of the word at its
four addresses, if they are in memory, and what was there before at all other
addresses.

* `Covers` says which addresses a word takes, modulo `2 ^ 32`;
* `writeFront` writes the first bytes of a word, and all of them are the word
  (`writeWord_eq_writeFront`);
* `byte?_writeWord_of_lt` and `byte?_writeWord_of_not_covers` are the two cases;
* `toBytes_peekWord`: a word that is read consists of the bytes at its addresses;
* `peekWord_writeWord_self`: so a word that is in memory is read back.
-/

namespace Machine32

theorem toNat_add_ofNat {a : UInt32} {i : Nat} (h : a.toNat + i < 0x100000000) :
    (a + UInt32.ofNat i).toNat = a.toNat + i := by
  rw [UInt32.toNat_add, UInt32.toNat_ofNat', Nat.add_mod_mod, Nat.mod_eq_of_lt h]

/-- A word is what its bytes are. -/
theorem Word.eq_of_toBytes_eq {v w : Word} (h : Word.toBytes v = Word.toBytes w) : v = w := by
  simp only [toBytes, List.cons.injEq, and_true] at h
  obtain ⟨h₀, h₁, h₂, h₃⟩ := h
  rw [← ofBytes_toBytes v, h₀, h₁, h₂, h₃, ofBytes_toBytes]

/-- Whether a word at `a` takes the address `b`. -/
def Word.Covers (a b : Address) : Prop :=
  ∃ i < Word.size, b = a + UInt32.ofNat i

instance (a b : Address) : Decidable (Word.Covers a b) :=
  inferInstanceAs (Decidable (∃ _ < _, _))

/-- The four addresses of a word are different. -/
theorem Word.eq_of_add_ofNat_eq {a : Address} {i j : Nat} (hi : i < Word.size)
    (hj : j < Word.size) (h : a + UInt32.ofNat i = a + UInt32.ofNat j) : i = j := by
  have h := congrArg UInt32.toNat ((UInt32.add_right_inj a).1 h)
  rw [Word.size] at hi hj
  rw [UInt32.toNat_ofNat', UInt32.toNat_ofNat'] at h
  omega

namespace Memory

variable {m m' : Memory} {a b : Address} {w : Word} {i n : Nat}

theorem byte?_writeByte_of_ne (h : b ≠ a) (x : UInt8) :
    (m.writeByte a x).byte? b = m.byte? b := by
  have hne : a.toNat ≠ b.toNat := fun heq => h (UInt32.toNat_inj.1 heq).symm
  rw [writeByte]
  split
  · rw [byte?, Array.getElem?_set_ne _ hne, byte?]
  · rfl

theorem byte?_writeByte_self (h : a.toNat < m.bytes.size) (x : UInt8) :
    (m.writeByte a x).byte? a = some x := by
  rw [writeByte, dif_pos h, byte?, Array.getElem?_set_self]

@[simp] theorem size_bytes_writeByte (a : Address) (x : UInt8) :
    (m.writeByte a x).bytes.size = m.bytes.size := by
  rw [writeByte]
  split
  · next h => exact Array.size_set h
  · rfl

/-! ## Words written byte by byte -/

/-- The memory `m` after the first `n` bytes of a word are written to `a`. -/
def writeFront (m : Memory) (a : Address) (w : Word) : (n : Nat) → Memory
  | 0 => m
  | n + 1 => (m.writeFront a w n).writeByte (a + UInt32.ofNat n) (Word.byte w n)

/-- A word is written byte by byte, the first one at its address. -/
theorem writeWord_eq_writeFront (m : Memory) (a : Address) (w : Word) :
    m.writeWord a w = m.writeFront a w Word.size := by
  have h₀ : a + UInt32.ofNat 0 = a := UInt32.add_zero a
  simp only [writeFront, Word.size, h₀]
  rfl

@[simp] theorem size_bytes_writeFront (m : Memory) (a : Address) (w : Word) (n : Nat) :
    (m.writeFront a w n).bytes.size = m.bytes.size := by
  induction n with
  | zero => rfl
  | succ n ih => rw [writeFront, size_bytes_writeByte, ih]

theorem byte?_writeFront_of_forall_ne (h : ∀ i < n, b ≠ a + UInt32.ofNat i) :
    (m.writeFront a w n).byte? b = m.byte? b := by
  induction n with
  | zero => rfl
  | succ n ih =>
    rw [writeFront, byte?_writeByte_of_ne (h n (Nat.lt_succ_self n))]
    exact ih fun i hi => h i (Nat.lt_succ_of_lt hi)

theorem byte?_writeFront_of_lt (hi : i < n) (hn : n ≤ Word.size)
    (h : (a + UInt32.ofNat i).toNat < m.bytes.size) :
    (m.writeFront a w n).byte? (a + UInt32.ofNat i) = some (Word.byte w i) := by
  induction n with
  | zero => exact absurd hi (Nat.not_lt_zero i)
  | succ n ih =>
    rw [writeFront]
    rcases Nat.lt_succ_iff_lt_or_eq.1 hi with hi | rfl
    · -- The byte that is written now has another address.
      rw [byte?_writeByte_of_ne, ih hi (Nat.le_of_lt hn)]
      exact fun heq => Nat.ne_of_lt hi (Word.eq_of_add_ofNat_eq (Nat.lt_trans hi hn) hn heq)
    · exact byte?_writeByte_self (by rwa [size_bytes_writeFront]) _

/-- A write leaves the bytes at other addresses alone. -/
theorem byte?_writeWord_of_not_covers (h : ¬Word.Covers a b) (w : Word) :
    (m.writeWord a w).byte? b = m.byte? b := by
  rw [writeWord_eq_writeFront]
  exact byte?_writeFront_of_forall_ne fun i hi heq => h ⟨i, hi, heq⟩

/-- A write puts the bytes of the word at its addresses, as far as they are in
    memory. -/
theorem byte?_writeWord_of_lt (hi : i < Word.size)
    (h : (a + UInt32.ofNat i).toNat < m.bytes.size) (w : Word) :
    (m.writeWord a w).byte? (a + UInt32.ofNat i) = some (Word.byte w i) := by
  rw [writeWord_eq_writeFront]
  exact byte?_writeFront_of_lt hi (Nat.le_refl _) h

theorem peekByte_writeWord_of_not_covers (h : ¬Word.Covers a b) (w : Word) :
    (m.writeWord a w).peekByte b = m.peekByte b := by
  rw [peekByte, byte?_writeWord_of_not_covers h, peekByte]

/-! ## Words read byte by byte -/

/-- The bytes of a word that is looked at are those at its four addresses. -/
theorem toBytes_peekWord (m : Memory) (a : Address) :
    Word.toBytes (m.peekWord a) =
      (List.range Word.size).map fun i => m.peekByte (a + UInt32.ofNat i) := by
  have h₀ : m.peekByte (a + UInt32.ofNat 0) = m.peekByte a :=
    congrArg m.peekByte (UInt32.add_zero a)
  have hrange : List.range Word.size = [0, 1, 2, 3] := rfl
  rw [peekWord, Word.toBytes_ofBytes, hrange]
  simp only [List.map_cons, List.map_nil, h₀]
  rfl

/-- A look at a word finds the word that its bytes make up. -/
theorem peekWord_eq (h : ∀ j < Word.size, m.peekByte (a + UInt32.ofNat j) = Word.byte w j) :
    m.peekWord a = w := by
  refine Word.eq_of_toBytes_eq ((toBytes_peekWord m a).trans ?_)
  exact List.map_congr_left fun j hj => h j (List.mem_range.1 hj)

/-- A word that is in memory is read back. -/
theorem peekWord_writeWord_self (h : a.toNat + Word.size ≤ m.bytes.size) (w : Word) :
    (m.writeWord a w).peekWord a = w := by
  have hsize := m.size_bytes
  have hlt := m.layout.total.toNat_lt
  refine peekWord_eq fun j hj => ?_
  rw [peekByte, byte?_writeWord_of_lt hj, Option.getD_some]
  rw [toNat_add_ofNat (by omega)]
  omega

/-- A word is the same where its bytes are. -/
theorem peekWord_congr {a : Address}
    (h : ∀ b, Word.Covers a b → m'.peekByte b = m.peekByte b) :
    m'.peekWord a = m.peekWord a := by
  refine Word.eq_of_toBytes_eq ?_
  rw [toBytes_peekWord, toBytes_peekWord]
  exact List.map_congr_left fun i hi => h _ ⟨i, List.mem_range.1 hi, rfl⟩

theorem peekByte_congr {a : Address} (h : m'.bytes = m.bytes) : m'.peekByte a = m.peekByte a := by
  rw [peekByte, byte?, h, peekByte, byte?]

end Memory

/-- The addresses of a word that does not reach the end of the address space. -/
theorem Word.covers_iff {a b : Address} (h : a.toNat + Word.size ≤ 0x100000000) :
    Word.Covers a b ↔ a.toNat ≤ b.toNat ∧ b.toNat < a.toNat + Word.size := by
  constructor
  · rintro ⟨i, hi, rfl⟩
    rw [toNat_add_ofNat (by omega)]
    omega
  · rintro ⟨hle, hlt⟩
    refine ⟨b.toNat - a.toNat, by omega, UInt32.toNat_inj.1 ?_⟩
    have hb := b.toNat_lt
    rw [toNat_add_ofNat (by omega)]
    omega

end Machine32
