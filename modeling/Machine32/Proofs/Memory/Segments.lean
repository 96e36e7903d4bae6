import Machine32.Proofs.Memory.Loading

/-!
# Segments

The segments lie behind each other and do not overlap, so that what is in one of
them is a matter of its own bytes (`segmentBytes_congr`). When a program is
loaded its parts are at the start of their segments, with zeros behind them
(`segmentBytes_of_load`).
-/

namespace Machine32

theorem Segment.contains_iff {s : Segment} {a : Address} :
    s.contains a = true ↔ s.start.toNat ≤ a.toNat ∧ a.toNat < s.stop.toNat := by
  rw [contains, Bool.and_eq_true, decide_eq_true_iff, decide_eq_true_iff, UInt32.le_iff_toNat_le,
    UInt32.lt_iff_toNat_lt]

namespace Layout

variable (l : Layout) (r : Region)

theorem start_le_stop : (l.segment r).start.toNat ≤ (l.segment r).stop.toNat := by
  cases r with
  | program => exact Nat.zero_le _
  | data =>
    simp only [segment, toNat_stackStart]
    omega
  | stack =>
    simp only [segment, toNat_stackStart, toNat_total]
    omega

theorem stop_le_total : (l.segment r).stop.toNat ≤ l.total.toNat := by
  cases r with
  | program =>
    simp only [segment, toNat_total]
    omega
  | data =>
    simp only [segment, toNat_stackStart, toNat_total]
    omega
  | stack => exact Nat.le_refl _

theorem toNat_size_segment :
    (l.segment r).size.toNat = (l.segment r).stop.toNat - (l.segment r).start.toNat :=
  UInt32.toNat_sub_of_le _ _ (UInt32.le_iff_toNat_le.2 (l.start_le_stop r))

variable {l r}

/-- The segments do not overlap. -/
theorem contains_unique {r r' : Region} {a : Address} (h : (l.segment r).contains a = true)
    (h' : (l.segment r').contains a = true) : r = r' := by
  rw [Segment.contains_iff] at h h'
  cases r <;> cases r' <;> simp only [segment, toNat_stackStart, reduceCtorEq] at h h' ⊢ <;> omega

end Layout

/-- The part of a program that is loaded into a segment. -/
def Program.part (p : Program) : Region → List UInt8
  | .program => p.code
  | .data => p.data
  | .stack => []

theorem getElem?_overwrite_of_le {bytes : Array UInt8} {start n : Nat} {image : List UInt8}
    (h : start + image.length ≤ n) : (overwrite bytes start image)[n]? = bytes[n]? := by
  induction image generalizing bytes start with
  | nil => rfl
  | cons b image ih =>
    rw [List.length_cons] at h
    rw [overwrite, ih (by omega), Array.getElem?_setIfInBounds_ne (by omega)]

/-- Zeros that are overwritten by an image show it with zeros behind it. -/
theorem getElem?_overwrite_of_zero {bytes : Array UInt8} {start k n : Nat} (image : List UInt8)
    (hk : k < n) (hzero : bytes[start + k]? = some 0) :
    (overwrite bytes start image)[start + k]? = (image.rightpad n 0)[k]? := by
  rw [List.rightpad]
  rcases Nat.lt_or_ge k image.length with hlt | hle
  · rw [getElem?_overwrite hlt (Array.getElem?_eq_some_iff.1 hzero).1,
      List.getElem?_append_left hlt]
  · rw [getElem?_overwrite_of_le (Nat.add_le_add_left hle start), hzero,
      List.getElem?_append_right hle, List.getElem?_replicate, if_pos (by omega)]

namespace Memory

variable {m m' memory : Memory} {l : Layout} {p : Program} {r : Region} {k : Nat}

theorem length_segmentBytes (m : Memory) (r : Region) :
    (m.segmentBytes r).length = (m.layout.segment r).size.toNat := by
  have hle := m.layout.stop_le_total r
  rw [segmentBytes, Array.length_toList, Array.size_extract, m.size_bytes,
    Layout.toNat_size_segment, Nat.min_eq_left hle]

theorem getElem?_segmentBytes (hk : k < (m.layout.segment r).size.toNat) :
    (m.segmentBytes r)[k]? = m.bytes[(m.layout.segment r).start.toNat + k]? := by
  have hle := m.layout.stop_le_total r
  rw [Layout.toNat_size_segment] at hk
  rw [segmentBytes, Array.getElem?_toList, Array.getElem?_extract, m.size_bytes,
    Nat.min_eq_left hle, if_pos hk]

/-- A segment is the same where its bytes are. -/
theorem segmentBytes_congr (hlayout : m'.layout = m.layout)
    (h : ∀ b, (m.layout.segment r).contains b = true → m'.byte? b = m.byte? b) :
    m'.segmentBytes r = m.segmentBytes r := by
  refine List.ext_getElem? fun k => ?_
  rcases Nat.lt_or_ge k (m.layout.segment r).size.toNat with hk | hk
  · rw [getElem?_segmentBytes (hlayout ▸ hk), getElem?_segmentBytes hk, hlayout]
    have hstop := m.layout.stop_le_total r
    have htotal := m.layout.total.toNat_lt
    rw [Layout.toNat_size_segment] at hk
    have hb := h (UInt32.ofNat ((m.layout.segment r).start.toNat + k))
    rw [byte?, byte?, Segment.contains_iff, UInt32.toNat_ofNat_of_lt'] at hb
    · exact hb ⟨Nat.le_add_right _ _, by omega⟩
    · exact Nat.lt_trans (by omega) htotal
  · rw [List.getElem?_eq_none, List.getElem?_eq_none] <;> rw [length_segmentBytes]
    · exact hk
    · rwa [hlayout]

/-- The parts of a program that is loaded fit their segments. -/
theorem length_part_of_load (h : m.load p = .ok memory) (hcode : p.code.length < 0x100000000)
    (hdata : p.data.length < 0x100000000) (r : Region) :
    (p.part r).length ≤ (m.layout.segment r).size.toNat := by
  obtain ⟨⟨hcode', hdata'⟩, -⟩ := load_eq_ok_iff.1 h
  rw [Layout.toNat_size_segment]
  cases r with
  | program =>
    rwa [Program.codeSize, UInt32.le_iff_toNat_le, UInt32.toNat_ofNat_of_lt' hcode] at hcode'
  | data =>
    rw [Program.dataSize, UInt32.le_iff_toNat_le, UInt32.toNat_ofNat_of_lt' hdata] at hdata'
    simp only [Layout.segment, Layout.toNat_stackStart, Nat.add_sub_cancel_left]
    exact hdata'
  | stack => exact Nat.zero_le _

/-- The bytes of a segment of a loaded memory are those of its part of the
    program, with zeros behind them. -/
theorem getElem?_bytes_of_load (h : (zero l).load p = .ok memory)
    (hfits : ∀ r, (p.part r).length ≤ (l.segment r).size.toNat)
    (hk : k < (l.segment r).size.toNat) :
    memory.bytes[(l.segment r).start.toNat + k]? =
      ((p.part r).rightpad (l.segment r).size.toNat 0)[k]? := by
  have hbytes : memory.bytes = overwrite (overwrite (zero l).bytes 0 p.code) l.programSize.toNat
      p.data := by
    obtain ⟨-, rfl⟩ := load_eq_ok_iff.1 h
    exact sealProgram_bytes ..
  have hcode := hfits .program
  have hdata := hfits .data
  have hstop := l.stop_le_total r
  have hk' := hk
  rw [Layout.toNat_size_segment] at hcode hdata hk'
  simp only [Layout.segment, Program.part, UInt32.toNat_zero, Nat.sub_zero,
    Layout.toNat_stackStart, Nat.add_sub_cancel_left] at hcode hdata
  have hzero : (zero l).bytes[(l.segment r).start.toNat + k]? = some 0 := by
    rw [zero, Array.getElem?_replicate, if_pos (by omega)]
  rw [hbytes]
  -- The code is in front of the data, and the stack behind it.
  cases r with
  | program =>
    rw [getElem?_overwrite_of_lt]
    · exact getElem?_overwrite_of_zero p.code hk hzero
    · simpa only [Layout.segment, UInt32.toNat_zero, Nat.zero_add, Nat.sub_zero] using hk'
  | data =>
    refine getElem?_overwrite_of_zero p.data hk (Eq.trans (getElem?_overwrite_of_le ?_) hzero)
    omega
  | stack =>
    have hstart : (l.segment .stack).start.toNat = l.programSize.toNat + l.dataSize.toNat :=
      l.toNat_stackStart
    rw [getElem?_overwrite_of_le (by omega), getElem?_overwrite_of_le (by omega)]
    exact getElem?_overwrite_of_zero [] hk hzero

/-- The segments of a loaded memory hold the parts of the program, with zeros
    behind them. -/
theorem segmentBytes_of_load (h : (zero l).load p = .ok memory)
    (hfits : ∀ r, (p.part r).length ≤ (l.segment r).size.toNat) (r : Region) :
    memory.segmentBytes r = (p.part r).rightpad (l.segment r).size.toNat 0 := by
  have hlayout : memory.layout = l := load_layout h
  have hlength := hfits r
  refine List.ext_getElem? fun k => ?_
  rcases Nat.lt_or_ge k (l.segment r).size.toNat with hk | hk
  · rw [getElem?_segmentBytes (hlayout.symm ▸ hk), hlayout, getElem?_bytes_of_load h hfits hk]
  · rw [List.getElem?_eq_none, List.getElem?_eq_none]
    · rw [List.rightpad, List.length_append, List.length_replicate]
      omega
    · rwa [length_segmentBytes, hlayout]

end Memory

end Machine32
