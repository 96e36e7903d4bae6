import Machine32.Proofs.Memory.Loading

/-!
# The data of a loaded program

The words of data of a loaded program stand in the data segment, one behind the
other: `peekWord_of_load` looks at them.
-/

namespace Machine32

/-- The bytes of a word among the bytes of words. -/
theorem getElem?_flatMap_toBytes {ws : List Word} {k j : Nat} {w : Word} (h : ws[k]? = some w)
    (hj : j < Word.size) :
    (ws.flatMap Word.toBytes)[k * Word.size + j]? = (Word.toBytes w)[j]? := by
  induction ws generalizing k with
  | nil => exact nomatch h
  | cons v ws ih =>
    rw [List.flatMap_cons]
    cases k with
    | zero =>
      obtain rfl := Option.some.inj h
      rw [Nat.zero_mul, Nat.zero_add, List.getElem?_append_left (by rwa [Word.length_toBytes])]
    | succ k =>
      rw [Nat.succ_mul, Nat.add_right_comm, Nat.add_comm _ Word.size, ← Word.length_toBytes v,
        List.getElem?_append_right (Nat.le_add_right _ _), Nat.add_sub_cancel_left,
        Word.length_toBytes, ih h]

theorem getElem?_toBytes (w : Word) {j : Nat} (hj : j < Word.size) :
    (Word.toBytes w)[j]? = some (Word.byte w j) := by
  match j, hj with
  | 0, _ | 1, _ | 2, _ | 3, _ => rfl

namespace Memory

variable {m memory : Memory} {p : Program}

/-- The data of a loaded program is at the start of the data segment. -/
theorem load_data (h : m.load p = .ok memory) (hfits : p.data.length ≤ m.layout.dataSize.toNat)
    {j : Nat} (hj : j < p.data.length) :
    p.data[j]? = some (memory.peekByte (m.layout.programSize + UInt32.ofNat j)) := by
  have htotal := m.layout.total_lt
  have hlayout := load_layout h
  obtain ⟨-, rfl⟩ := load_eq_ok_iff.1 h
  have haddr : (m.layout.programSize + UInt32.ofNat j).toNat = m.layout.programSize.toNat + j :=
    toNat_add_ofNat (by omega)
  rw [← getElem?_bytes, sealProgram_bytes, haddr]
  · refine (getElem?_overwrite hj ?_).symm
    change _ < (overwrite m.bytes 0 p.code).size
    rw [size_overwrite, m.size_bytes, Layout.toNat_total]
    omega
  · rw [size_bytes, hlayout, Layout.toNat_total, haddr]
    omega

/-- A look at a word of data of a loaded program finds it. -/
theorem peekWord_of_load {ws : List Word} (h : m.load p = .ok memory)
    (hdata : p.data = ws.flatMap Word.toBytes) (hfits : p.data.length ≤ m.layout.dataSize.toNat)
    {k : Nat} {w : Word} (hw : ws[k]? = some w) :
    memory.peekWord (m.layout.programSize + UInt32.ofNat (k * Word.size)) = w := by
  refine peekWord_eq fun j hj => ?_
  have hbyte := (getElem?_flatMap_toBytes hw hj).trans (getElem?_toBytes w hj)
  rw [← hdata] at hbyte
  have hpeek := (load_data h hfits (List.getElem?_eq_some_iff.1 hbyte).1).symm.trans hbyte
  rw [UInt32.add_assoc, ← UInt32.ofNat_add]
  exact Option.some.inj hpeek

end Memory

end Machine32
