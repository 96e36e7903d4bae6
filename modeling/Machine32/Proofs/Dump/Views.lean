import Machine32.Proofs.Dump.Lines
import Machine32.Proofs.Listing.Labels
import Machine32.Proofs.Machine.ControlFlow

/-!
# Views of a program

The code of an assembled program is shown by its listing, by a dump of the memory it is
loaded into, and by the machine itself, when it fetches one instruction after the other
without executing them. Each goes through the code on its own, and all of them see the
instructions that the assembler put there.

* `State.Passes`: what a machine comes past in this way;
* `InProgram.passes` and `InProgram.codeEntries_eq`: a machine and a dump come past the
  instructions of the program;
* `views_agree`: so does a listing, from the start to the end of the program.
-/

namespace Machine32

/-- The instructions of a stream that begins at `a`, each with its address. -/
def Instruction.rows (a : Nat) (is : List Instruction) : List (Address × Instruction) :=
  (located a is).map fun x => (UInt32.ofNat x.1, x.2)

theorem Instruction.rows_cons (a : Nat) (i : Instruction) (is : List Instruction) :
    rows a (i :: is) = (UInt32.ofNat a, i) :: rows (a + i.length) is :=
  rfl

/-- A machine that fetches what is at its instruction pointer and goes on behind it,
    as long as it is running, comes past the given instructions. -/
inductive State.Passes : State → List (Address × Instruction) → State → Prop
  | stop {s : State} : s.running = false → Passes s [] s
  | next {s t : State} {i : Instruction} {rows : List (Address × Instruction)} :
      s.running = true → s.fetch = .ok i → Passes (s.advance i.length) rows t →
      Passes s ((s.registers.ip, i) :: rows) t

/-- There is one way to go. -/
theorem State.Passes.unique {s t t' : State} {rows rows' : List (Address × Instruction)}
    (h : s.Passes rows t) (h' : s.Passes rows' t') : rows = rows' ∧ t = t' := by
  induction h generalizing rows' t' with
  | stop hr =>
    cases h' with
    | stop => exact ⟨rfl, rfl⟩
    | next hr' => exact nomatch hr.symm.trans hr'
  | next hr hf _ ih =>
    cases h' with
    | stop hr' => exact nomatch hr.symm.trans hr'
    | next _ hf' hp' =>
      obtain rfl := Except.ok.inj (hf.symm.trans hf')
      obtain ⟨rfl, rfl⟩ := ih hp'
      exact ⟨rfl, rfl⟩

open Instruction

namespace InProgram

variable {is pre post : List Instruction} {s : State}

/-- The place behind a front of the program, as an address. -/
theorem toNat_totalLength (h : InProgram is [] s) (hsplit : is = pre ++ post) :
    (UInt32.ofNat (totalLength pre)).toNat = totalLength pre := by
  have hfits := h.fits
  have hlt := s.memory.layout.programSize.toNat_lt
  rw [hsplit, totalLength_append] at hfits
  exact UInt32.toNat_ofNat_of_lt' (Nat.lt_of_le_of_lt (by omega) hlt)

/-- Whatever the instruction pointer is set to in the program, the machine is in it. -/
theorem goto (h : InProgram is [] s) {a : Address} (ha : Boundary 0 is a.toNat) :
    InProgram is [] (s.goto a) where
  boundary := ha
  code := h.code
  executed := h.executed
  fits := h.fits
  programEnd := h.programEnd

theorem located_of_append {i : Instruction} (h : InProgram is [] s) (hsplit : is = pre ++ i :: post)
    {a : Address} (ha : a = UInt32.ofNat (totalLength pre)) : (a.toNat, i) ∈ located 0 is := by
  rw [ha, h.toNat_totalLength hsplit]
  exact mem_located_iff.2 ⟨pre, post, hsplit, (Nat.zero_add _).symm⟩

/-- A machine comes past the instructions of its program, and is at the end then. -/
theorem passes (h : InProgram is [] s) (hsplit : is = pre ++ post)
    (hip : s.registers.ip = UInt32.ofNat (totalLength pre)) :
    s.Passes (rows (totalLength pre) post) (s.goto s.memory.programEnd) := by
  -- By induction on what is left, as `pre` is behind the instruction pointer.
  induction post generalizing pre s with
  | nil =>
    rw [List.append_nil] at hsplit
    have hend : s.registers.ip = s.memory.programEnd := by
      rw [hip, ← hsplit, ← h.programEnd, UInt32.ofNat_toNat]
    have hstop : s.running = false := by
      rw [State.running, hend]
      exact decide_eq_false (UInt32.lt_irrefl _)
    rw [← hend]
    exact .stop hstop
  | cons i post ih =>
    have hi := h.located_of_append hsplit hip
    have hpos := i.length_pos
    have hlt : s.registers.ip.toNat < totalLength is := by
      have hle := (le_of_mem_located hi).2
      omega
    have hnext : s.registers.ip + UInt32.ofNat i.length =
        UInt32.ofNat (totalLength (pre ++ [i])) := by
      rw [hip, ← UInt32.ofNat_add, totalLength_concat]
    have hrest := ih (h.goto (h.boundary_next hi)) (hsplit.trans (List.append_cons ..)) hnext
    rw [totalLength_concat] at hrest
    rw [rows_cons, ← hip]
    exact .next (h.running_iff.2 hlt) (h.fetch_eq hi) hrest

/-- A dump shows the instructions of the program. -/
theorem codeEntries_eq (h : InProgram is [] s) (hsplit : is = pre ++ post) :
    (s.memory.codeEntries (totalLength pre)).1 =
      (rows (totalLength pre) post).map fun x => ⟨x.1, .ok x.2⟩ := by
  induction post generalizing pre with
  | nil =>
    rw [List.append_nil] at hsplit
    rw [← hsplit, ← h.programEnd, Memory.codeEntries_of_le (Nat.le_refl _)]
    rfl
  | cons i post ih =>
    have hi := h.located_of_append hsplit rfl
    have hpos := i.length_pos
    have hlt : UInt32.ofNat (totalLength pre) < s.memory.programEnd := by
      have hle := (le_of_mem_located hi).2
      rw [UInt32.lt_iff_toNat_lt, h.programEnd]
      omega
    have hentry : s.memory.entryAt (UInt32.ofNat (totalLength pre)) =
        ⟨UInt32.ofNat (totalLength pre), .ok i⟩ := by
      rw [Memory.entryAt, h.decode_eq hi]
      rfl
    have hrest := ih (hsplit.trans (List.append_cons ..))
    rw [totalLength_concat] at hrest
    have hentries := Memory.codeEntries_of_lt hlt
    rw [h.toNat_totalLength hsplit, hentry, CodeEntry.length] at hentries
    rw [hentries, rows_cons, List.map_cons, ← hrest]

end InProgram

/-! ## Listings -/

namespace Program

variable {p : Program}

/-- The line of a listing that shows an instruction of the program. -/
def instructionLine (p : Program) (x : Address × Instruction) : String :=
  Address.text x.1 ++ ":  " ++ Chunk.padRight 24 (Chunk.bytesText x.2.encode) ++ "  "
    ++ x.2.text ++ p.remark x.2

/-- The lines of a listing that begin with a digit are those of code. -/
theorem filter_listing (h : p.Named) :
    (textLines p.listing).filter (·.toList.head? = some '0') =
      (Chunk.split 0 p.code).map p.chunkLine := by
  -- Other lines begin with a semicolon, a dot or a name, or are empty.
  have hfront : p.frontLines.filter (·.toList.head? = some '0') = [] := by
    refine List.filter_eq_nil_iff.2 fun line hline => ?_
    rw [decide_eq_true_iff]
    rcases h.frontLines hline with rfl | ⟨-, hzero⟩
    · decide
    · exact hzero
  have hchunk (c : Chunk) :
      (p.chunkLines c).filter (·.toList.head? = some '0') = [p.chunkLine c] := by
    have hlabels : ((p.labelsAt c.address).map ("." ++ ·)).filter
        (·.toList.head? = some '0') = [] := by
      refine List.filter_eq_nil_iff.2 fun line hline => ?_
      obtain ⟨name, -, rfl⟩ := List.mem_map.1 hline
      rw [decide_eq_true_iff, head?_label]
      decide
    have hline := (p.isCodeLine_chunkLine c).head?
    rw [chunkLines, List.filter_append, hlabels, List.filter_singleton, hline]
    rfl
  rw [textLines_listing h.oneLineNames, List.filter_append, hfront, List.nil_append,
    List.filter_flatMap, funext hchunk, ← List.map_eq_flatMap]

/-- A listing shows the instructions that the code was put together from. -/
theorem map_chunkLine_split {is : List Instruction} (h : p.code = is.flatMap encode) :
    (Chunk.split 0 p.code).map p.chunkLine = (rows 0 is).map p.instructionLine := by
  rw [h, Chunk.split_encode, rows, List.map_map, List.map_map]
  refine List.map_congr_left fun x _ => ?_
  exact (String.append_assoc ..).symm

end Program

/-- Three views of an assembled program show the same instructions at the same
    addresses, and nothing that is no instruction: the dump of a machine that the program
    was loaded into, the lines of code of its listing, and what the machine fetches if it
    starts at zero and goes on behind each instruction. This ends at the end of the
    program. -/
theorem views_agree {l : Layout} {source : String} {p : Program}
    (h : assemble l source = .ok p) (maxCycles : Option Nat) :
    ∃ (m : Machine) (rows : List (Address × Instruction)) (dump listing : String),
      (Machine.boot l maxCycles).loadProgram p = .ok m ∧
      m.state.memory.writeDump = some (dump, m.state.memory) ∧
      textLines dump = m.state.memory.segmentTitle .program
          :: rows.map (fun x => "  " ++ Address.text x.1 ++ ": " ++ x.2.text)
        ++ m.state.memory.wordLines .data ++ m.state.memory.wordLines .stack ∧
      p.writeListing l = some listing ∧
      (textLines listing).filter (·.toList.head? = some '0') = rows.map p.instructionLine ∧
      ∀ rows' t, (m.state.goto 0).Passes rows' t ↔
        rows' = rows ∧ t = m.state.goto m.state.memory.programEnd := by
  obtain ⟨lines, a, hparses, hfeeds, hfinish⟩ := assemble_eq_ok_iff.1 h
  obtain ⟨entry, -, hp⟩ := Assembler.finish_eq_ok_iff.1 hfinish
  obtain ⟨memory, hmemory⟩ := load_program hfeeds entry
  have hprogram := inProgram_initial hfeeds hmemory
  have hcode : p.code = (a.instructions entry).flatMap encode := by rw [hp]; rfl
  have hentries : (memory.codeEntries 0).1 =
      (rows 0 (a.instructions entry)).map fun x => ⟨x.1, .ok x.2⟩ :=
    hprogram.codeEntries_eq (List.nil_append _).symm
  have hpasses := hprogram.passes (List.nil_append _).symm rfl
  refine ⟨_, rows 0 (a.instructions entry), memory.dump.1, p.listing,
    Machine.loadProgram_eq_ok_iff.2 ⟨memory, hp ▸ hmemory, rfl⟩, memory.writeDump_eq, ?_,
    p.writeListing_eq l, ?_, fun rows' t => ⟨fun hrows => hrows.unique hpasses, ?_⟩⟩
  · rw [Memory.textLines_dump, Memory.dumpLines, hentries, List.map_map]
    rfl
  · rw [Program.filter_listing (named_of_assemble h), Program.map_chunkLine_split hcode]
  · rintro ⟨rfl, rfl⟩
    exact hpasses

/-- The sample program is passed with the lines of its listing, up to its end. -/
theorem views_agree_sample :
    let lines :=
      ["0x0000:  33 00 00 00 0C 00 00 00   CALL 0x000C  ; start",
       "0x0008:  34 00 00 00               RET",
       "0x000C:  02 00 00 00 FF FF FF FF   MOV EAX, -1",
       "0x0014:  04 00 00 00 28 00 00 00   STORE 0x0028, EAX",
       "0x001C:  33 00 00 00 08 00 00 00   CALL 0x0008  ; f"]
    ∃ m rows t, assemble Source.sampleLayout Source.sampleText = .ok Source.sampleProgram ∧
      (Machine.boot Source.sampleLayout none).loadProgram Source.sampleProgram = .ok m ∧
      rows.map Source.sampleProgram.instructionLine = lines ∧
      (m.state.goto 0).Passes rows t ∧ t.registers.ip = 36 := by
  intro lines
  have hassemble : assemble Source.sampleLayout Source.sampleText = .ok Source.sampleProgram := by
    decide +kernel
  have hlines : (Chunk.split 0 Source.sampleProgram.code).map Source.sampleProgram.chunkLine =
      lines := by
    decide +kernel
  have hend : ((Machine.boot Source.sampleLayout none).loadProgram
      Source.sampleProgram).toOption.any (fun m => m.state.memory.programEnd = 36) = true := by
    decide +kernel
  obtain ⟨m, rows, dump, listing, hload, -, -, hlisting, hcode, hpasses⟩ :=
    views_agree hassemble none
  obtain ⟨m', hload', hend⟩ := Except.any_toOption_iff.1 hend
  obtain rfl := Except.ok.inj (hload.symm.trans hload')
  obtain rfl := Option.some.inj (hlisting.symm.trans (Source.sampleProgram.writeListing_eq _))
  rw [Program.filter_listing (named_of_assemble hassemble), hlines] at hcode
  exact ⟨m, rows, _, hassemble, hload, hcode.symm, (hpasses rows _).2 ⟨rfl, rfl⟩,
    of_decide_eq_true hend⟩

end Machine32
