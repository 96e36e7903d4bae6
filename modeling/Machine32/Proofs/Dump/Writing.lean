import Machine32.Machine.Dumper
import Machine32.Proofs.Memory.Accesses
import Machine32.Proofs.Memory.DataSegment
import Machine32.Proofs.Memory.Segments

/-!
# Dumps are written to their end

Whatever memory holds and wherever its program ends, a dump reads bytes of memory
only, and leaves memory as it is.

* `Memory.codeInduction`: a dump goes through the program from one entry to the next;
* `Memory.Lists`: entries show the program without gaps (`lists_codeEntries`);
* `Memory.writeDump_eq` and `Memory.writeHexDump_eq`: what is written is the dump, and
  no read counts.
-/

namespace Machine32

theorem Word.ofNat?_toNat_add {a : Word} {n : Nat} (h : a.toNat + n < 0x100000000) :
    ofNat? (a.toNat + n) = some (a + UInt32.ofNat n) :=
  ofNat?_eq_some_iff.2 ⟨h, toNat_add_ofNat h⟩

theorem Word.byte_ofFront (bytes : List UInt8) {j : Nat} (hj : j < size) :
    byte (ofFront bytes) j = bytes.getD j 0 := by
  have h := getElem?_toBytes (ofFront bytes) hj
  rw [ofFront, toBytes_ofBytes] at h
  match j, hj with
  | 0, _ | 1, _ | 2, _ | 3, _ => exact (Option.some.inj h).symm

/-- The number of bytes that an entry shows. -/
def CodeEntry.length (e : CodeEntry) : Nat :=
  match e.content with
  | .ok i => i.length
  | .error _ => Word.size

theorem CodeEntry.length_pos (e : CodeEntry) : 0 < e.length := by
  rw [length]
  split
  · next i _ => exact i.length_pos
  · decide

theorem CodeEntry.length_le_maxLength (e : CodeEntry) : e.length ≤ Instruction.maxLength := by
  rw [length]
  split
  · next i _ => exact i.length_le_maxLength
  · decide

namespace Memory

variable {m : Memory} {a : Address} {r : Region} {i n : Nat}

/-! ## The program -/

/-- A word that begins in the program is in memory. -/
theorem readWord_of_lt_programEnd (h : a < m.programEnd) : m.readWord a = (m.peekWord a, m) := by
  have hle := add_maxLength_le h
  rw [Instruction.maxLength] at hle
  refine readWord_of_le ?_
  rw [Word.size]
  omega

/-- What a dump shows at an address of the program. -/
def entryAt (m : Memory) (a : Address) : CodeEntry where
  address := a
  content := (Instruction.decode (m.window a Instruction.maxLength)).mapError
    fun e => (m.peekWord a, e)

/-- The next entry begins at an address again. -/
theorem add_length_lt (h : a < m.programEnd) :
    a.toNat + (m.entryAt a).length < 0x100000000 := by
  have hle := add_maxLength_le h
  have hlength := (m.entryAt a).length_le_maxLength
  have hsize := m.size_bytes
  have hlt := m.layout.total.toNat_lt
  omega

/-- What holds at the end of the program, and at an address of it if it holds behind
    the entry there, holds everywhere. -/
theorem codeInduction {P : Nat → Prop} (hstop : ∀ n, m.programEnd.toNat ≤ n → P n)
    (hnext : ∀ a, a < m.programEnd → P (a.toNat + (m.entryAt a).length) → P a.toNat) (n : Nat) :
    P n := by
  generalize hleft : m.programEnd.toNat - n = left
  induction left using Nat.strongRecOn generalizing n with
  | ind left ih =>
    rcases Nat.lt_or_ge n m.programEnd.toNat with hlt | hle
    · obtain ⟨a, rfl⟩ : ∃ a : Address, a.toNat = n :=
        ⟨_, UInt32.toNat_ofNat_of_lt' (Nat.lt_trans hlt m.programEnd.toNat_lt)⟩
      have hpos := (m.entryAt a).length_pos
      exact hnext a (UInt32.lt_iff_toNat_lt.2 hlt) (ih _ (by omega) _ rfl)
    · exact hstop n hle

theorem codeEntries_of_le (h : m.programEnd.toNat ≤ n) : m.codeEntries n = ([], m) := by
  rw [codeEntries, if_neg (Nat.not_lt.2 h)]

/-- The first entry is what stands there, and the others come behind it. -/
theorem codeEntries_of_lt (h : a < m.programEnd) :
    m.codeEntries a.toNat =
      ⟨m.entryAt a :: (m.codeEntries (a.toNat + (m.entryAt a).length)).1,
        (m.codeEntries (a.toNat + (m.entryAt a).length)).2⟩ := by
  rw [codeEntries, if_pos (UInt32.lt_iff_toNat_lt.1 h), UInt32.ofNat_toNat, entryAt,
    CodeEntry.length]
  cases hdecode : Instruction.decode (m.window a Instruction.maxLength) with
  | ok i => simp only [hdecode, Except.mapError]
  | error e => simp only [hdecode, Except.mapError, readWord_of_lt_programEnd h]

/-- Reading the program leaves memory as it is. -/
theorem codeEntries_snd (m : Memory) (n : Nat) : (m.codeEntries n).2 = m := by
  induction n using codeInduction (m := m) with
  | hstop n hle => rw [codeEntries_of_le hle]
  | hnext a hlt ih => rwa [codeEntries_of_lt hlt]

/-- The entries show what stands in memory from the place `n` on, each one behind the
    one before it, until the end of the program is reached. -/
inductive Lists (m : Memory) : (n : Nat) → List CodeEntry → Prop
  | stop {n : Nat} : m.programEnd.toNat ≤ n → Lists m n []
  | next {a : Address} {es : List CodeEntry} : a < m.programEnd →
      Lists m (a.toNat + (m.entryAt a).length) es → Lists m a.toNat (m.entryAt a :: es)

/-- The entries that are read list what stands in memory. -/
theorem lists_codeEntries (m : Memory) (n : Nat) : m.Lists n (m.codeEntries n).1 := by
  induction n using codeInduction (m := m) with
  | hstop n hle =>
    rw [codeEntries_of_le hle]
    exact .stop hle
  | hnext a hlt ih =>
    rw [codeEntries_of_lt hlt]
    exact .next hlt ih

/-! ## Bytes of memory -/

theorem bytesBetween?_eq_some {start stop : Nat} (hle : start ≤ stop)
    (hstop : stop ≤ m.bytes.size) :
    m.bytesBetween? start stop = some (m.bytes.extract start stop).toList :=
  if_pos ⟨hle, hstop⟩

/-- There is always a window, which is empty behind memory. -/
theorem window?_eq (m : Memory) (a : Address) (n : Nat) : m.window? a n = some (m.window a n) := by
  rw [window?, bytesBetween?_eq_some (by omega) (Nat.min_le_right ..), window]
  refine congrArg some (List.ext_getElem? fun k => ?_)
  rw [Array.getElem?_toList, Array.getElem?_toList, Array.getElem?_extract, Array.getElem?_extract]
  rcases Nat.le_total a.toNat m.bytes.size with hle | hle
  · rw [Nat.min_eq_left hle, Nat.min_assoc, Nat.min_self]
  · rw [if_neg (by omega), if_neg (by omega)]

theorem segmentBytes?_eq (m : Memory) (r : Region) :
    m.segmentBytes? r = some (m.segmentBytes r) :=
  bytesBetween?_eq_some (m.layout.start_le_stop r) (m.size_bytes ▸ m.layout.stop_le_total r)

/-! ## Writing the program -/

/-- The line of the entry at the address that is reached is written, and the address
    behind it is reached. -/
theorem writeCode_of_lt (h : a < m.programEnd) (out : String) :
    m.writeCode a out = m.writeCode (a + UInt32.ofNat (m.entryAt a).length)
      (out ++ (m.entryAt a).text ++ "\n") := by
  have hlt := add_length_lt h
  rw [writeCode, if_pos h, window?_eq]
  simp only [readWord_of_lt_programEnd h, Option.bind_eq_bind, Option.bind_some]
  cases hdecode : Instruction.decode (m.window a Instruction.maxLength) with
  | ok i | error e =>
    simp only [entryAt, CodeEntry.length, CodeEntry.text, hdecode, Except.mapError] at hlt ⊢
    have hsum := Word.ofNat?_toNat_add hlt
    split
    · next behind hnext =>
      obtain rfl := Option.some.inj (hnext.symm.trans hsum)
      simp only [String.append_assoc]
    · next hnone => exact absurd (hsum.symm.trans hnone) (Option.some_ne_none _)

/-- The program is written from an address on. -/
theorem writeCode_eq (m : Memory) (a : Address) (out : String) :
    m.writeCode a out =
      some (out ++ String.join ((m.codeEntries a.toNat).1.map (·.text ++ "\n")), m) := by
  suffices h : ∀ n (a : Address) (out : String), a.toNat = n → m.writeCode a out =
      some (out ++ String.join ((m.codeEntries n).1.map (·.text ++ "\n")), m) from h _ a out rfl
  intro n
  induction n using codeInduction (m := m) with
  | hstop n hle =>
    rintro a out rfl
    rw [writeCode, if_neg (mt UInt32.lt_iff_toNat_lt.1 (Nat.not_lt.2 hle)), codeEntries_of_le hle]
    simp
  | hnext b hlt ih =>
    rintro a out heq
    obtain rfl := UInt32.toNat_inj.1 heq
    rw [writeCode_of_lt hlt, ih _ _ (toNat_add_ofNat (add_length_lt hlt)), codeEntries_of_lt hlt,
      List.map_cons, String.join_cons]
    simp only [String.append_assoc]

/-! ## Writing words -/

/-- The address of the word number `i` of a segment. -/
def wordAddress (m : Memory) (r : Region) (i : Nat) : Address :=
  (m.layout.segment r).start + UInt32.ofNat (i * Word.size)

/-- What a dump shows of the word number `i` of a segment. -/
def wordAt? (m : Memory) (r : Region) (i : Nat) : Option (Address × Word) :=
  let w := m.peekWord (m.wordAddress r i)
  if w = 0 then none else some (m.wordAddress r i, w)

theorem wordEntries_eq (m : Memory) (r : Region) :
    m.wordEntries r =
      (List.range ((m.layout.segment r).size.toNat / Word.size)).filterMap (m.wordAt? r) :=
  rfl

/-- The line of a dump that shows a word. -/
def wordLine (e : Address × Word) : String :=
  "  " ++ Address.text e.1 ++ ": " ++ Word.fullText e.2

theorem wordLines_eq (m : Memory) (r : Region) :
    m.wordLines r = m.segmentTitle r :: (m.wordEntries r).map wordLine :=
  rfl

theorem start_add_size_le (m : Memory) (r : Region) :
    (m.layout.segment r).start.toNat + (m.layout.segment r).size.toNat ≤ m.bytes.size := by
  have hle := m.layout.start_le_stop r
  have hstop := m.layout.stop_le_total r
  rw [Layout.toNat_size_segment, m.size_bytes]
  omega

theorem toNat_wordAddress (h : i * Word.size + Word.size ≤ (m.layout.segment r).size.toNat) :
    (m.wordAddress r i).toNat = (m.layout.segment r).start.toNat + i * Word.size := by
  have hle := m.start_add_size_le r
  have hsize := m.size_bytes
  have hlt := m.layout.total.toNat_lt
  rw [Word.size] at h
  rw [wordAddress, toNat_add_ofNat]
  rw [Word.size]
  omega

/-- The bytes of a segment from a word of it on begin with that word. -/
theorem ofFront_segmentBytes (h : i * Word.size + Word.size ≤ (m.layout.segment r).size.toNat) :
    Word.ofFront (((m.segmentBytes r).drop (i * Word.size)).take Word.size) =
      m.peekWord (m.wordAddress r i) := by
  have haddress := toNat_wordAddress h
  have hle := m.start_add_size_le r
  have hsize := m.size_bytes
  have hlt := m.layout.total.toNat_lt
  refine (peekWord_eq fun j hj => ?_).symm
  rw [Word.byte_ofFront _ hj, List.getD_eq_getElem?_getD, List.getElem?_take_of_lt hj,
    List.getElem?_drop, getElem?_segmentBytes (by omega), peekByte, byte?,
    toNat_add_ofNat (by omega), haddress, Nat.add_assoc]

/-- The word that is reached is written, unless it is zero, and the one behind it is
    reached. -/
theorem writeWords_of_lt (h : i * Word.size + Word.size ≤ (m.layout.segment r).size.toNat)
    (out : String) :
    writeWords (m.layout.segment r).start i out ((m.segmentBytes r).drop (i * Word.size)) =
      writeWords (m.layout.segment r).start (i + 1)
        (out ++ String.join ((m.wordAt? r i).toList.map (wordLine · ++ "\n")))
        ((m.segmentBytes r).drop ((i + 1) * Word.size)) := by
  have hle := m.start_add_size_le r
  have hsize := m.size_bytes
  have hlt := m.layout.total.toNat_lt
  have haddress : Word.ofNat? ((m.layout.segment r).start.toNat + i * Word.size) =
      some (m.wordAddress r i) :=
    Word.ofNat?_toNat_add (by omega)
  have hword := ofFront_segmentBytes h
  rw [Nat.succ_mul, ← List.drop_drop]
  obtain ⟨b, bs, hbytes⟩ : ∃ b bs, (m.segmentBytes r).drop (i * Word.size) = b :: bs := by
    refine List.exists_cons_of_ne_nil (List.ne_nil_of_length_pos ?_)
    rw [List.length_drop, length_segmentBytes]
    have hpos : 0 < Word.size := by decide
    omega
  rw [hbytes] at hword ⊢
  rw [writeWords, hword, wordAt?]
  dsimp only
  split
  · simp
  · simp only [haddress, Option.bind_eq_bind, Option.bind_some, Option.toList_some, List.map_cons,
      List.map_nil, String.join_cons, String.join_nil, wordLine, String.append_assoc,
      String.append_empty]

/-- The words of a segment are written from one of them on. -/
theorem writeWords_eq {n : Nat}
    (h : (i + n) * Word.size = (m.layout.segment r).size.toNat) (out : String) :
    writeWords (m.layout.segment r).start i out ((m.segmentBytes r).drop (i * Word.size)) =
      some (out ++ String.join
        (((List.range' i n).filterMap (m.wordAt? r)).map (wordLine · ++ "\n"))) := by
  induction n generalizing i out with
  | zero =>
    rw [Nat.add_zero] at h
    rw [h, ← length_segmentBytes, List.drop_length, writeWords]
    simp
  | succ n ih =>
    rw [← Nat.add_assoc, Nat.add_right_comm] at h
    have hle : i * Word.size + Word.size ≤ (i + 1 + n) * Word.size := by
      rw [← Nat.succ_mul]
      exact Nat.mul_le_mul_right _ (Nat.le_add_right ..)
    rw [writeWords_of_lt (h ▸ hle), ih h, List.range'_succ]
    cases hentry : m.wordAt? r i <;> simp [hentry, String.append_assoc]

/-! ## Writing rows -/

@[simp] theorem rows_nil : rows [] = [] := by
  rw [rows]

/-- The first row takes sixteen bytes, or what is left of them. -/
theorem rows_eq_cons {bytes : List UInt8} (h : bytes ≠ []) :
    rows bytes = bytes.take 16 :: rows (bytes.drop 16) := by
  obtain ⟨b, bs, rfl⟩ := List.exists_cons_of_ne_nil h
  rw [rows, List.take_succ_cons, List.drop_succ_cons]

/-- The bytes of the rows are all bytes. -/
theorem rows_flatten (bytes : List UInt8) : (rows bytes).flatten = bytes := by
  fun_induction rows bytes with
  | case1 => rfl
  | case2 b bytes ih => rw [List.flatten_cons, ih, List.cons_append, List.take_append_drop]

theorem length_of_mem_rows {bytes row : List UInt8} (h : row ∈ rows bytes) :
    0 < row.length ∧ row.length ≤ 16 := by
  fun_induction rows bytes with
  | case1 => exact absurd h List.not_mem_nil
  | case2 b bytes ih =>
    rcases List.mem_cons.1 h with rfl | h
    · rw [List.length_cons, List.length_take]
      omega
    · exact ih h

/-- The bytes of a row are written one after the other. -/
theorem foldl_append_byte (row : List UInt8) (out : String) :
    row.foldl (fun out b => out ++ " " ++ Numeral.hex .upper 2 b.toNat) out =
      out ++ String.join (row.map fun b => " " ++ Numeral.hex .upper 2 b.toNat) := by
  induction row generalizing out with
  | nil => simp
  | cons b row ih =>
    rw [List.foldl_cons, ih, List.map_cons, String.join_cons]
    simp only [String.append_assoc]

/-- Bytes are written row by row, each row under its address. -/
theorem writeRows_eq (start i : Nat) (out : String) (bytes : List UInt8) :
    writeRows start i out bytes = out ++ String.join
      (((rows bytes).zipIdx i).map fun x => rowText (start + 16 * x.2) x.1 ++ "\n") := by
  fun_induction writeRows start i out bytes with
  | case1 => simp
  | case2 i out b bs out' out'' ih =>
    rw [ih, rows_eq_cons (List.cons_ne_nil b bs), List.zipIdx_cons, List.map_cons, String.join_cons,
      rowText]
    simp only [out'', out', foldl_append_byte, String.append_assoc, Nat.mul_comm]

/-! ## Writing dumps -/

/-- The lines of a dump. -/
def dumpLines (m : Memory) : List String :=
  m.segmentTitle .program :: (m.codeEntries 0).1.map CodeEntry.text
    ++ m.wordLines .data ++ m.wordLines .stack

/-- The lines of a dump of all bytes of a segment. -/
def hexDumpLines (m : Memory) (r : Region) : List String :=
  (rows (m.segmentBytes r)).zipIdx.map fun x =>
    rowText ((m.layout.segment r).start.toNat + 16 * x.2) x.1

theorem dump_eq (m : Memory) : m.dump = (String.join (m.dumpLines.map (· ++ "\n")), m) := by
  have hsnd := m.codeEntries_snd 0
  rw [dump]
  simp only [hsnd]
  rfl

theorem hexDump_eq (m : Memory) (r : Region) :
    m.hexDump r = String.join ((m.hexDumpLines r).map (· ++ "\n")) :=
  rfl

/-- A segment consists of words. -/
theorem size_segment (m : Memory) (r : Region) :
    (m.layout.segment r).size.toNat / Word.size * Word.size = (m.layout.segment r).size.toNat := by
  obtain ⟨hprogram, hdata, hstack⟩ := m.layout.aligned
  refine Nat.div_mul_cancel (Nat.dvd_of_mod_eq_zero ?_)
  rw [Layout.toNat_size_segment]
  cases r with
  | program => exact hprogram
  | data =>
    simp only [Layout.segment, Layout.toNat_stackStart, Nat.add_sub_cancel_left]
    exact hdata
  | stack =>
    simp only [Layout.segment, Layout.toNat_stackStart, Layout.toNat_total,
      Nat.add_sub_cancel_left]
    exact hstack

/-- A segment is written behind its title. -/
theorem writeSegment_program (m : Memory) (out : String) :
    m.writeSegment out .program = some (out ++ String.join ((m.segmentTitle .program ::
      (m.codeEntries 0).1.map CodeEntry.text).map (· ++ "\n")), m) := by
  rw [writeSegment]
  refine (m.writeCode_eq 0 _).trans ?_
  simp [String.append_assoc, Function.comp_def]

theorem writeSegment_words (m : Memory) (out : String) (hr : r ≠ .program) :
    m.writeSegment out r = some (out ++ String.join ((m.wordLines r).map (· ++ "\n")), m) := by
  have hall : (0 + (m.layout.segment r).size.toNat / Word.size) * Word.size =
      (m.layout.segment r).size.toNat := by
    rw [Nat.zero_add, size_segment]
  have hwords := writeWords_eq hall
  rw [Nat.zero_mul, List.drop_zero, ← List.range_eq_range', ← wordEntries_eq] at hwords
  cases r with
  | program => exact absurd rfl hr
  | data | stack =>
    simp only [writeSegment, segmentBytes?_eq, hwords, wordLines_eq, Option.bind_eq_bind,
      Option.bind_some]
    simp [String.append_assoc, Function.comp_def]

/-- Whatever memory holds, the dump is written to its end, and memory stays as it is. -/
theorem writeDump_eq (m : Memory) : m.writeDump = some (m.dump.1, m) := by
  rw [dump_eq]
  simp only [writeDump, Region.all, List.foldlM_cons, List.foldlM_nil, writeSegment_program,
    Option.bind_eq_bind, Option.bind_some, m.writeSegment_words _ (r := .data) (by decide),
    m.writeSegment_words _ (r := .stack) (by decide)]
  simp [dumpLines, String.append_assoc]

/-- A hex dump is written to its end too. -/
theorem writeHexDump_eq (m : Memory) (r : Region) : m.writeHexDump r = some (m.hexDump r) := by
  rw [writeHexDump, segmentBytes?_eq, hexDump_eq, hexDumpLines]
  simp [writeRows_eq, Function.comp_def]

end Memory

end Machine32
