import Machine32.Proofs.Dump.Lines

/-!
# Dumps lose nothing

The words and bytes of a segment can be read off a dump of it.

* `Memory.ShowsWords`: entries show the words of a segment, leaving out zeros, and so
  they tell all of its bytes (`ShowsWords.segmentBytes_eq`);
* `Memory.rowLines`: rows of bytes, each under the address of its first byte, which can
  be read off their lines (`rowLines_inj`);
* `dumps_lossless`: a dump shows all words or bytes, and its text tells which they are.
-/

namespace Machine32

/-- Four bytes are those of a word. -/
theorem Word.toBytes_ofFront {bytes : List UInt8} (h : bytes.length = size) :
    toBytes (ofFront bytes) = bytes :=
  match bytes, h with
  | [b₀, b₁, b₂, b₃], _ => toBytes_ofBytes b₀ b₁ b₂ b₃

namespace Memory

variable {m m' : Memory} {r : Region} {i : Nat} {w : Word} {es : List (Address × Word)}

/-! ## Words -/

/-- The bytes of the word number `i` of a segment. -/
def wordBytes (m : Memory) (r : Region) (i : Nat) : List UInt8 :=
  ((m.segmentBytes r).drop (i * Word.size)).take Word.size

/-- The entries show the words of a segment that are not zero, in the order of their
    addresses. -/
structure ShowsWords (m : Memory) (r : Region) (es : List (Address × Word)) : Prop where
  ordered : es.Pairwise (·.1 < ·.1)
  mem_iff : ∀ a w, (a, w) ∈ es ↔ w ≠ 0 ∧
    ∃ i, a.toNat = (m.layout.segment r).start.toNat + i * Word.size ∧
      Word.toBytes w = m.wordBytes r i

/-- A word is in the segment as a whole. -/
theorem le_of_toBytes_eq (h : Word.toBytes w = m.wordBytes r i) :
    i * Word.size + Word.size ≤ (m.layout.segment r).size.toNat := by
  have hlength := congrArg List.length h
  rw [Word.length_toBytes, wordBytes, List.length_take, List.length_drop,
    length_segmentBytes] at hlength
  have hpos : 0 < Word.size := by decide
  omega

/-- The word that a segment has there is the one that a dump looks at. -/
theorem toBytes_eq_wordBytes_iff
    (h : i * Word.size + Word.size ≤ (m.layout.segment r).size.toNat) :
    Word.toBytes w = m.wordBytes r i ↔ m.peekWord (m.wordAddress r i) = w := by
  have hlength : (m.wordBytes r i).length = Word.size := by
    rw [wordBytes, List.length_take, List.length_drop, length_segmentBytes]
    omega
  rw [← ofFront_segmentBytes h, ← Word.toBytes_ofFront hlength]
  exact ⟨fun heq => (Word.eq_of_toBytes_eq heq).symm, fun heq => congrArg _ heq.symm⟩

theorem mem_wordNumbers_iff :
    i ∈ List.range ((m.layout.segment r).size.toNat / Word.size) ↔
      i * Word.size + Word.size ≤ (m.layout.segment r).size.toNat := by
  rw [List.mem_range, ← Nat.succ_le_iff, Nat.le_div_iff_mul_le (by decide), Nat.succ_mul]

theorem wordAt?_eq_some_iff {e : Address × Word} :
    m.wordAt? r i = some e ↔
      e.2 ≠ 0 ∧ m.wordAddress r i = e.1 ∧ m.peekWord (m.wordAddress r i) = e.2 := by
  rw [wordAt?]
  split
  · next hzero =>
    refine ⟨fun heq => absurd heq.symm (Option.some_ne_none _), ?_⟩
    rintro ⟨hne, -, hword⟩
    exact absurd (hword.symm.trans hzero) hne
  · next hne =>
    rw [Option.some.injEq]
    constructor
    · rintro rfl
      exact ⟨hne, rfl, rfl⟩
    · rintro ⟨-, haddress, hword⟩
      exact Prod.ext haddress hword

/-- A dump shows the words of a segment. -/
theorem showsWords_wordEntries (m : Memory) (r : Region) : m.ShowsWords r (m.wordEntries r) where
  ordered := by
    rw [wordEntries_eq, List.pairwise_filterMap]
    refine List.pairwise_lt_range.imp_of_mem fun {i j} hi hj hlt e he e' he' => ?_
    obtain ⟨-, haddress, -⟩ := wordAt?_eq_some_iff.1 he
    obtain ⟨-, haddress', -⟩ := wordAt?_eq_some_iff.1 he'
    have hmul : i * Word.size < j * Word.size := Nat.mul_lt_mul_of_pos_right hlt (by decide)
    rw [← haddress, ← haddress', UInt32.lt_iff_toNat_lt,
      toNat_wordAddress (mem_wordNumbers_iff.1 hi), toNat_wordAddress (mem_wordNumbers_iff.1 hj)]
    omega
  mem_iff a w := by
    rw [wordEntries_eq, List.mem_filterMap]
    constructor
    · rintro ⟨i, hi, he⟩
      have hi := mem_wordNumbers_iff.1 hi
      obtain ⟨hne, haddress, hword⟩ := wordAt?_eq_some_iff.1 he
      refine ⟨hne, i, ?_, (toBytes_eq_wordBytes_iff hi).2 hword⟩
      rw [← toNat_wordAddress hi, haddress]
    · rintro ⟨hne, i, haddress, hbytes⟩
      have hi := le_of_toBytes_eq hbytes
      have heq : m.wordAddress r i = a :=
        UInt32.toNat_inj.1 ((toNat_wordAddress hi).trans haddress.symm)
      exact ⟨i, mem_wordNumbers_iff.2 hi,
        wordAt?_eq_some_iff.2 ⟨hne, heq, (toBytes_eq_wordBytes_iff hi).1 hbytes⟩⟩

/-- A segment consists of its words. -/
theorem exists_toBytes_eq {n : Nat} (hn : n < (m.layout.segment r).size.toNat) :
    ∃ w, Word.toBytes w = m.wordBytes r (n / Word.size) := by
  refine ⟨_, (toBytes_eq_wordBytes_iff ?_).2 rfl⟩
  have hsize := m.size_segment r
  rw [Word.size] at hsize ⊢
  omega

theorem getElem?_segmentBytes_eq (m : Memory) (r : Region) (n : Nat) :
    (m.segmentBytes r)[n]? = (m.wordBytes r (n / Word.size))[n % Word.size]? := by
  rw [wordBytes, List.getElem?_take_of_lt (Nat.mod_lt n (by decide)), List.getElem?_drop,
    Nat.div_add_mod']

/-- A word that is not zero is the same in all segments that are shown alike. -/
theorem ShowsWords.toBytes_eq (h : m.ShowsWords r es) (h' : m'.ShowsWords r es)
    (hlayout : m.layout = m'.layout) (hw : Word.toBytes w = m.wordBytes r i) (hne : w ≠ 0) :
    Word.toBytes w = m'.wordBytes r i := by
  have haddress := toNat_wordAddress (le_of_toBytes_eq hw)
  obtain ⟨-, j, haddress', hw'⟩ := (h'.mem_iff _ _).1 ((h.mem_iff _ _).2 ⟨hne, i, haddress, hw⟩)
  rw [haddress, hlayout, Nat.add_left_cancel_iff] at haddress'
  rwa [Nat.eq_of_mul_eq_mul_right (by decide) haddress']

/-- The words that are shown tell all bytes of a segment. -/
theorem ShowsWords.segmentBytes_eq (h : m.ShowsWords r es) (h' : m'.ShowsWords r es)
    (hlayout : m.layout = m'.layout) : m.segmentBytes r = m'.segmentBytes r := by
  refine List.ext_getElem? fun n => ?_
  rcases Nat.lt_or_ge n (m.layout.segment r).size.toNat with hn | hn
  · obtain ⟨w, hw⟩ := exists_toBytes_eq hn
    obtain ⟨w', hw'⟩ := exists_toBytes_eq (hlayout ▸ hn : n < (m'.layout.segment r).size.toNat)
    rw [getElem?_segmentBytes_eq, getElem?_segmentBytes_eq, ← hw]
    -- A word that is not shown is zero in both segments.
    rcases eq_or_ne w 0 with rfl | hne
    · rcases eq_or_ne w' 0 with rfl | hne'
      · rw [hw']
      · rw [hw, ← h'.toBytes_eq h hlayout.symm hw' hne', hw']
    · rw [h.toBytes_eq h' hlayout hw hne]
  · rw [List.getElem?_eq_none, List.getElem?_eq_none] <;> rw [length_segmentBytes]
    · rwa [← hlayout]
    · exact hn

/-! ## Rows -/

/-- The lines of rows of bytes, each under the address of its first byte. -/
def rowLines (a : Nat) : List (List UInt8) → List String
  | [] => []
  | row :: rows => rowText a row :: rowLines (a + row.length) rows

/-- Rows are told as they come. Only the last one has less than sixteen bytes. -/
theorem rowLines_rows (start i : Nat) (bytes : List UInt8) :
    rowLines (start + 16 * i) (rows bytes) =
      ((rows bytes).zipIdx i).map fun x => rowText (start + 16 * x.2) x.1 := by
  induction hlength : bytes.length using Nat.strongRecOn generalizing i bytes with
  | ind n ih =>
    rcases eq_or_ne bytes [] with rfl | hne
    · rw [rows_nil]
      rfl
    have hpos := List.length_pos_of_ne_nil hne
    rw [rows_eq_cons hne, rowLines, List.zipIdx_cons, List.map_cons, List.length_take]
    congr 1
    rcases Nat.lt_or_ge bytes.length 16 with hlt | hle
    · rw [List.drop_of_length_le (Nat.le_of_lt hlt), rows_nil]
      rfl
    · rw [Nat.min_eq_left hle, Nat.add_assoc, ← Nat.mul_succ,
        ih _ (by rw [List.length_drop]; omega) _ _ rfl]

theorem hexDumpLines_eq (m : Memory) (r : Region) :
    m.hexDumpLines r = rowLines (m.layout.segment r).start.toNat (rows (m.segmentBytes r)) :=
  (rowLines_rows _ 0 _).symm

/-! ## What the lines of a dump tell -/

/-- The address and the word can be read off a line. -/
theorem wordLine_injective : Function.Injective wordLine := by
  rintro ⟨a, w⟩ ⟨a', w'⟩ h
  have hcolon := not_isHexDigit_head (s := ": ") (c := ':') (by decide) (by decide)
  have hblank := not_isHexDigit_head (s := " (") (c := ' ') (by decide) (by decide)
  simp only [wordLine, Address.text, Word.fullText, Word.hexText, String.append_assoc,
    String.append_right_inj] at h
  obtain ⟨haddress, h⟩ := Numeral.hex_append_inj (hcolon _) (hcolon _) h
  simp only [String.append_right_inj] at h
  obtain ⟨hword, -⟩ := Numeral.hex_append_inj (hblank _) (hblank _) h
  exact Prod.ext (UInt32.toNat_inj.1 haddress) (UInt32.toNat_inj.1 hword)

/-- The bytes of a row as text, with a blank in front of each. -/
def rowBytes (row : List UInt8) : String :=
  String.join (row.map fun b => " " ++ Numeral.hex .upper 2 b.toNat)

theorem rowBytes_cons (b : UInt8) (row : List UInt8) :
    rowBytes (b :: row) = " " ++ (Numeral.hex .upper 2 b.toNat ++ rowBytes row) := by
  rw [rowBytes, List.map_cons, String.join_cons, String.append_assoc, rowBytes]

theorem rowBytes_cons_ne_nil (b : UInt8) (row : List UInt8) :
    rowBytes (b :: row) ≠ rowBytes [] := fun heq =>
  absurd (congrArg String.toList heq) (by simp [rowBytes])

theorem not_isHexDigit_rowBytes (row : List UInt8) :
    ∀ c ∈ (rowBytes row).toList.head?, c.isHexDigit = false := by
  cases row with
  | nil => simp [rowBytes]
  | cons b row =>
    rw [rowBytes_cons]
    exact not_isHexDigit_head (c := ' ') (by decide) (by decide) _

/-- The bytes of a row are told apart by the blanks in front of them. -/
theorem rowBytes_injective : Function.Injective rowBytes := by
  intro row row' h
  induction row generalizing row' with
  | nil =>
    cases row' with
    | nil => rfl
    | cons b' row' => exact absurd h.symm (rowBytes_cons_ne_nil b' row')
  | cons b row ih =>
    cases row' with
    | nil => exact absurd h (rowBytes_cons_ne_nil b row)
    | cons b' row' =>
      rw [rowBytes_cons, rowBytes_cons, String.append_right_inj] at h
      obtain ⟨hbyte, hrow⟩ :=
        Numeral.hex_append_inj (not_isHexDigit_rowBytes row) (not_isHexDigit_rowBytes row') h
      rw [UInt8.toNat_inj.1 hbyte, ih hrow]

theorem rowText_inj {a a' : Nat} {row row' : List UInt8} (h : rowText a row = rowText a' row') :
    row = row' := by
  have hcolon := not_isHexDigit_head (s := ":") (c := ':') (by decide) (by decide)
  simp only [rowText, String.append_assoc, String.append_right_inj] at h
  obtain ⟨-, h⟩ := Numeral.hex_append_inj (hcolon _) (hcolon _) h
  exact rowBytes_injective ((String.append_right_inj _).1 h)

/-- The rows can be read off their lines. -/
theorem rowLines_inj {a a' : Nat} {rows rows' : List (List UInt8)}
    (h : rowLines a rows = rowLines a' rows') : rows = rows' := by
  induction rows generalizing a a' rows' with
  | nil =>
    cases rows' with
    | nil => rfl
    | cons row' rows' => exact nomatch h
  | cons row rows ih =>
    cases rows' with
    | nil => exact nomatch h
    | cons row' rows' =>
      obtain ⟨hrow, hrows⟩ := List.cons.inj h
      rw [rowText_inj hrow, ih hrows]

theorem head?_segmentTitle (m : Memory) (r : Region) :
    (m.segmentTitle r).toList.head? = r.name.toList.head? := by
  cases r with
  | program | data | stack => exact head?_append (head?_append (by decide) _) _

theorem segmentTitle_ne (m : Memory) : m.segmentTitle .data ≠ m.segmentTitle .stack := fun heq =>
  absurd (congrArg (·.toList.head?) heq) (by simp only [head?_segmentTitle]; decide)

/-- A title does not begin with a blank, unlike the lines below it. -/
theorem segmentTitle_not_mem (m : Memory) (r : Region) {lines : List String}
    (h : ∀ line ∈ lines, line.toList.head? = some ' ') : m.segmentTitle r ∉ lines := by
  intro hmem
  have hhead := h _ hmem
  rw [head?_segmentTitle] at hhead
  cases r <;> exact absurd hhead (by decide)

theorem head?_of_mem_code {es : List CodeEntry} {line : String}
    (h : line ∈ es.map CodeEntry.text) : line.toList.head? = some ' ' := by
  obtain ⟨e, -, rfl⟩ := List.mem_map.1 h
  exact head?_append (head?_append (head?_append (by decide) _) _) _

theorem head?_of_mem_words {line : String} (h : line ∈ es.map wordLine) :
    line.toList.head? = some ' ' := by
  obtain ⟨e, -, rfl⟩ := List.mem_map.1 h
  exact head?_append (head?_append (head?_append (by decide) _) _) _

/-- The words can be read off the lines of a dump. -/
theorem dumpLines_inj (hlayout : m.layout = m'.layout) (h : m.dumpLines = m'.dumpLines) :
    m.wordEntries .data = m'.wordEntries .data ∧ m.wordEntries .stack = m'.wordEntries .stack := by
  have htitle (r : Region) : m.segmentTitle r = m'.segmentTitle r := by
    rw [segmentTitle, segmentTitle, hlayout]
  simp only [dumpLines, wordLines_eq, htitle, List.cons_append, List.append_assoc] at h
  have hcode : m'.segmentTitle .data ∉ (m.codeEntries 0).1.map CodeEntry.text :=
    m'.segmentTitle_not_mem _ fun _ => head?_of_mem_code
  have hwords (r r' : Region) : m'.segmentTitle r ∉ (m.wordEntries r').map wordLine :=
    m'.segmentTitle_not_mem _ fun _ => head?_of_mem_words
  have hdata : m'.segmentTitle .data ∉ (m.wordEntries .data).map wordLine ++
      m'.segmentTitle .stack :: (m.wordEntries .stack).map wordLine := by
    rw [List.mem_append, List.mem_cons]
    exact not_or.2 ⟨hwords _ _, not_or.2 ⟨m'.segmentTitle_ne, hwords _ _⟩⟩
  -- Each title stands in one place.
  obtain ⟨-, -, h⟩ := (List.append_cons_inj_of_notMem hcode hdata).1 (List.cons.inj h).2
  obtain ⟨hdata, -, hstack⟩ := (List.append_cons_inj_of_notMem (hwords _ _) (hwords _ _)).1 h
  exact ⟨wordLine_injective.list_map hdata, wordLine_injective.list_map hstack⟩

/-- A dump tells the data and the stack segment. -/
theorem segmentBytes_eq_of_dump (hlayout : m.layout = m'.layout) (h : m.dump.1 = m'.dump.1)
    (hr : r ≠ .program) : m.segmentBytes r = m'.segmentBytes r := by
  have hlines := congrArg textLines h
  rw [textLines_dump, textLines_dump] at hlines
  obtain ⟨hdata, hstack⟩ := dumpLines_inj hlayout hlines
  have hwords := m.showsWords_wordEntries r
  have hwords' := m'.showsWords_wordEntries r
  cases r with
  | program => exact absurd rfl hr
  | data => exact hwords.segmentBytes_eq (hdata ▸ hwords') hlayout
  | stack => exact hwords.segmentBytes_eq (hstack ▸ hwords') hlayout

/-- A dump of all bytes of a segment tells them. -/
theorem segmentBytes_eq_of_hexDump (h : m.hexDump r = m'.hexDump r) :
    m.segmentBytes r = m'.segmentBytes r := by
  have hlines := congrArg textLines h
  rw [textLines_hexDump, textLines_hexDump, hexDumpLines_eq, hexDumpLines_eq] at hlines
  rw [← rows_flatten (m.segmentBytes r), rowLines_inj hlines, rows_flatten]

end Memory

open Memory

/-- Whatever memory holds, a dump shows the words of the data and of the stack segment
    that are not zero, each on one line, and a dump of all bytes shows each byte of a
    segment in its place. So memories of one layout with the same dump have the same
    data and the same stack segment, and those with the same dump of all bytes of a
    segment have the same bytes there. -/
theorem dumps_lossless :
    (∀ m : Memory, ∃ (text : String) (code : List CodeEntry) (data stack : List (Address × Word)),
      m.writeDump = some (text, m) ∧
      textLines text = m.segmentTitle .program :: code.map CodeEntry.text
        ++ m.segmentTitle .data :: data.map wordLine
        ++ m.segmentTitle .stack :: stack.map wordLine ∧
      m.ShowsWords .data data ∧ m.ShowsWords .stack stack) ∧
    (∀ (m : Memory) (r : Region), ∃ text rows, m.writeHexDump r = some text ∧
      textLines text = rowLines (m.layout.segment r).start.toNat rows ∧
      rows.flatten = m.segmentBytes r ∧ ∀ row ∈ rows, 0 < row.length ∧ row.length ≤ 16) ∧
    (∀ (m m' : Memory) (text : String), m.layout = m'.layout →
      m.writeDump = some (text, m) → m'.writeDump = some (text, m') →
        ∀ r, r ≠ .program → m.segmentBytes r = m'.segmentBytes r) ∧
    ∀ (m m' : Memory) (r : Region) (text : String),
      m.writeHexDump r = some text → m'.writeHexDump r = some text →
        m.segmentBytes r = m'.segmentBytes r := by
  refine ⟨fun m => ?_, fun m r => ?_, ?_, ?_⟩
  · exact ⟨m.dump.1, _, _, _, m.writeDump_eq, m.textLines_dump, m.showsWords_wordEntries _,
      m.showsWords_wordEntries _⟩
  · exact ⟨m.hexDump r, _, m.writeHexDump_eq r, (m.textLines_hexDump r).trans (m.hexDumpLines_eq r),
      rows_flatten _, fun _ => length_of_mem_rows⟩
  · intro m m' text hlayout h h' r hr
    rw [writeDump_eq] at h h'
    obtain ⟨rfl, -⟩ := Prod.mk.inj (Option.some.inj h)
    exact segmentBytes_eq_of_dump hlayout (Prod.mk.inj (Option.some.inj h')).1.symm hr
  · intro m m' r text h h'
    rw [writeHexDump_eq] at h h'
    exact segmentBytes_eq_of_hexDump (Option.some.inj (h.trans h'.symm))

/-- What stands behind the program is not shown, and all else is. -/
theorem dumps_lossless_sample :
    let m := (Memory.zero .least).writeWord 8 5
    let m' := m.writeByte 0 0x34
    ∃ text bytes, m.writeDump = some (text, m) ∧ m'.writeDump = some (text, m') ∧
      m.writeHexDump .data = some bytes ∧ m'.writeHexDump .data = some bytes ∧
      m.segmentBytes .program ≠ m'.segmentBytes .program ∧
      m.segmentBytes .data = m'.segmentBytes .data ∧
      m.segmentBytes .stack = m'.segmentBytes .stack := by
  intro m m'
  obtain ⟨-, -, hdump, hhex⟩ := dumps_lossless
  have htext : m'.dump.1 = m.dump.1 := by decide +kernel
  have hbytes : m'.hexDump .data = m.hexDump .data := by decide +kernel
  have h : m.writeDump = some (m.dump.1, m) := m.writeDump_eq
  have h' : m'.writeDump = some (m.dump.1, m') := by rw [m'.writeDump_eq, htext]
  have hx : m.writeHexDump .data = some (m.hexDump .data) := m.writeHexDump_eq _
  have hx' : m'.writeHexDump .data = some (m.hexDump .data) := by rw [m'.writeHexDump_eq, hbytes]
  exact ⟨_, _, h, h', hx, hx', by decide +kernel, hhex m m' .data _ hx hx',
    hdump m m' _ rfl h h' .stack (by decide)⟩

end Machine32
