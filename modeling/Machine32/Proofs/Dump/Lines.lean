import Machine32.Proofs.Dump.Writing
import Machine32.Proofs.Listing.Lines

/-!
# The lines of a dump

There is a line for each title, entry, word or row of a dump, and nothing else
(`Memory.textLines_dump`, `Memory.textLines_hexDump`).
-/

namespace Machine32

namespace Memory

variable {m : Memory} {r : Region}

/-- A title has the name of a region and numbers in it. -/
theorem oneLine_segmentTitle (m : Memory) (r : Region) : OneLine (m.segmentTitle r) := by
  have hname : OneLine (r.name ++ " ") := by cases r <;> decide
  have hstart : OneLine ("[0x" ++ Numeral.hex .lower 4 (m.layout.segment r).start.toNat) :=
    OneLine.append (by decide) (OneLine.hex _ _ _)
  exact hname.append (((hstart.append (by decide)).append (OneLine.hex _ _ _)).append (by decide))

/-- What stands at an address comes behind the address, on its line. -/
theorem oneLine_atAddress (a : Address) {s : String} (h : OneLine s) :
    OneLine ("  " ++ Address.text a ++ ": " ++ s) :=
  ((OneLine.append (by decide) (OneLine.address a)).append (by decide)).append h

theorem oneLine_hexText (w : Word) : OneLine (Word.hexText w) :=
  OneLine.append (by decide) (OneLine.hex _ _ _)

/-- A word is shown in two notations on one line. -/
theorem oneLine_fullText (w : Word) : OneLine (Word.fullText w) :=
  (((oneLine_hexText w).append (by decide)).append (OneLine.signed _)).append (by decide)

/-- An entry is an instruction, or a word and why it is none. -/
theorem oneLine_codeEntry (e : CodeEntry) : OneLine e.text := by
  refine oneLine_atAddress _ ?_
  split
  · exact Instruction.newline_not_mem_text _
  · exact ((oneLine_hexText _).append (by decide)).append (OneLine.message _)

theorem oneLine_wordLine (e : Address × Word) : OneLine (wordLine e) :=
  oneLine_atAddress e.1 (oneLine_fullText e.2)

/-- A row is on one line, however many bytes it has. -/
theorem oneLine_rowText (n : Nat) (row : List UInt8) : OneLine (rowText n row) := by
  have hfront : OneLine ("0x" ++ Numeral.hex .upper 4 n ++ ":") :=
    (OneLine.append (by decide) (OneLine.hex _ _ _)).append (by decide)
  refine hfront.append ?_
  induction row with
  | nil => decide
  | cons b row ih =>
    rw [List.map_cons, String.join_cons]
    exact (OneLine.append (by decide) (OneLine.hex _ _ _)).append ih

/-- The lines for the words of a segment are its title and a line for each word. -/
theorem oneLine_wordLines {line : String} (h : line ∈ m.wordLines r) : OneLine line := by
  rw [wordLines_eq] at h
  rcases List.mem_cons.1 h with rfl | h
  · exact m.oneLine_segmentTitle r
  · obtain ⟨e, -, rfl⟩ := List.mem_map.1 h
    exact oneLine_wordLine e

/-- The lines of a dump are the title and the entries of the code, and then the title and the
    words of the data and of the stack. -/
theorem textLines_dump (m : Memory) : textLines m.dump.1 = m.dumpLines := by
  rw [dump_eq]
  refine textLines_join fun line hline => ?_
  rcases List.mem_append.1 hline with hline | hline
  · rcases List.mem_append.1 hline with hline | hline
    · rcases List.mem_cons.1 hline with rfl | hline
      · exact m.oneLine_segmentTitle _
      · obtain ⟨e, -, rfl⟩ := List.mem_map.1 hline
        exact oneLine_codeEntry e
    · exact oneLine_wordLines hline
  · exact oneLine_wordLines hline

/-- The lines of a hex dump are its rows. -/
theorem textLines_hexDump (m : Memory) (r : Region) :
    textLines (m.hexDump r) = m.hexDumpLines r := by
  rw [hexDump_eq]
  refine textLines_join fun line hline => ?_
  obtain ⟨x, -, rfl⟩ := List.mem_map.1 hline
  exact oneLine_rowText _ _

end Memory

end Machine32
