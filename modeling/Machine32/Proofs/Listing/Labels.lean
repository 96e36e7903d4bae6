import Machine32.Proofs.Listing.Chunks

/-!
# The labels of a listing

A listing goes through the code of a program, and shows a label where it comes to its
address. The labels of an assembled program stand for addresses of instructions, which
it comes to, and for the end of the code, which it does not.

* `ShowsLabel`: lines show a label where it belongs among the lines of code;
* `Program.showsLabel_iff`: a listing shows the labels at the addresses of its chunks;
* `assemble_showsLabel_iff`: which are those before the end of the code.
-/

namespace Machine32

/-- The line begins with an address, as a line of code does. -/
def IsCodeLine (x : Address) (line : String) : Prop :=
  ∃ rest, line = Address.text x ++ ":  " ++ rest

/-- There is one line with the label `name`. The lines of code at lower addresses than `a`
    are above it, and all others below. -/
def ShowsLabel (lines : List String) (name : String) (a : Address) : Prop :=
  ∃ above below, lines = above ++ ("." ++ name) :: below ∧
    "." ++ name ∉ above ∧ "." ++ name ∉ below ∧
    (∀ line ∈ above, ∀ x, IsCodeLine x line → x < a) ∧
    ∀ line ∈ below, ∀ x, IsCodeLine x line → a ≤ x

/-! ## What a line begins with -/

theorem IsCodeLine.head? {x : Address} {line : String} (h : IsCodeLine x line) :
    line.toList.head? = some '0' := by
  obtain ⟨rest, rfl⟩ := h
  exact head?_append (head?_append (head?_append (by decide) _) _) _

theorem head?_label (name : String) : ("." ++ name).toList.head? = some '.' :=
  head?_append (by decide) _

theorem head?_name {name : String} (h : IsName name.toList) :
    ∃ c, name.toList.head? = some c ∧ Ascii.isNameStart c = true := by
  cases hname : name.toList with
  | nil => exact (hname ▸ h).elim
  | cons c cs =>
    rw [hname] at h
    exact ⟨c, rfl, h.1⟩

/-- The address of a line of code can be read off it. -/
theorem IsCodeLine.unique {x y : Address} {line : String} (hx : IsCodeLine x line)
    (hy : IsCodeLine y line) : x = y := by
  obtain ⟨rest, rfl⟩ := hx
  obtain ⟨rest', heq⟩ := hy
  have hcolon := not_isHexDigit_head (s := ":  ") (c := ':') (by decide) (by decide)
  simp only [Address.text, String.append_assoc, String.append_right_inj] at heq
  exact UInt32.toNat_inj.1 (Numeral.hex_append_inj (hcolon _) (hcolon _) heq).1

/-! ## The places of chunks -/

namespace Chunk

variable {offset : Nat} {code : List UInt8}

theorem le_offset_of_mem_split {c : Chunk} (h : c ∈ split offset code) : offset ≤ c.offset := by
  obtain ⟨before, after, hsplit⟩ := List.append_of_mem h
  rw [(heads_of_split hsplit).1]
  exact Nat.le_add_right ..

theorem pairwise_split (offset : Nat) (code : List UInt8) :
    (split offset code).Pairwise (·.offset < ·.offset) := by
  fun_induction split offset code with
  | case1 => exact .nil
  | case2 offset b bs i _ ih =>
    have hpos := i.length_pos
    refine List.pairwise_cons.2 ⟨fun c hc => ?_, ih⟩
    have hle := le_offset_of_mem_split hc
    dsimp only
    omega
  | case3 offset b bs e _ ih =>
    refine List.pairwise_cons.2 ⟨fun c hc => ?_, ih⟩
    have hle := le_offset_of_mem_split hc
    simp only [Word.size] at hle ⊢
    omega

end Chunk

namespace Program

variable {p : Program} {c : Chunk} {name : String} {x : Address}

theorem toNat_address_of_mem_split (hlt : p.code.length < 0x100000000)
    (h : c ∈ Chunk.split 0 p.code) : c.address.toNat = c.offset ∧ c.offset < p.code.length := by
  obtain ⟨before, after, hsplit⟩ := List.append_of_mem h
  obtain ⟨hoffset, -⟩ := Chunk.heads_of_split hsplit
  obtain ⟨hlength, haddress, -, -⟩ := shows_of_split hlt hsplit
  omega

/-- The chunks are in the order of their addresses. -/
theorem pairwise_address_split (hlt : p.code.length < 0x100000000) :
    (Chunk.split 0 p.code).Pairwise (·.address < ·.address) := by
  refine (Chunk.pairwise_split 0 p.code).imp_of_mem fun hc hd hcd => ?_
  rw [UInt32.lt_iff_toNat_lt, (toNat_address_of_mem_split hlt hc).1,
    (toNat_address_of_mem_split hlt hd).1]
  exact hcd

/-! ## What the lines are -/

theorem isCodeLine_chunkLine (p : Program) (c : Chunk) : IsCodeLine c.address (p.chunkLine c) :=
  ⟨_, by rw [chunkLine, String.append_assoc, String.append_assoc]⟩

theorem mem_map_label_iff {names : List String} :
    "." ++ name ∈ names.map ("." ++ ·) ↔ name ∈ names :=
  List.mem_map_of_injective fun _ _ heq => (String.append_right_inj ".").1 heq

theorem not_isCodeLine_of_mem_map_label {names : List String} {line : String}
    (h : line ∈ names.map ("." ++ ·)) : ¬IsCodeLine x line := by
  obtain ⟨other, -, rfl⟩ := List.mem_map.1 h
  exact fun hx => nomatch (head?_label other).symm.trans hx.head?

/-- The labels above a chunk are those at its address. -/
theorem get?_of_mem_chunkLines (h : "." ++ name ∈ p.chunkLines c) :
    p.labels.get? name = some c.address := by
  rcases List.mem_append.1 h with h | h
  · exact mem_labelsAt_iff.1 (mem_map_label_iff.1 h)
  · have hhead := (p.isCodeLine_chunkLine c).head?
    rw [← List.mem_singleton.1 h, head?_label] at hhead
    exact nomatch hhead

/-- The line of code among the lines of a chunk has its address. -/
theorem address_of_mem_chunkLines {line : String} (h : line ∈ p.chunkLines c)
    (hx : IsCodeLine x line) : x = c.address := by
  rcases List.mem_append.1 h with h | h
  · exact absurd hx (not_isCodeLine_of_mem_map_label h)
  · rw [List.mem_singleton.1 h] at hx
    exact hx.unique (p.isCodeLine_chunkLine c)

/-- The names of a program are spelled as such, and no label has the name of the data
    section. -/
structure Named (p : Program) : Prop where
  labels : ∀ e ∈ p.labels.entries, IsName e.1.toList ∧ e.1 ≠ "data"
  constants : ∀ e ∈ p.constants.entries, IsName e.1.toList

theorem Named.oneLineNames (h : p.Named) : p.OneLineNames where
  labels e he := Token.newline_not_mem_name (h.labels e he).1
  constants e he := Token.newline_not_mem_name (h.constants e he)

/-- Of the lines before the code one begins with a dot, and none with a digit. -/
theorem Named.frontLines (h : p.Named) {line : String} (hline : line ∈ p.frontLines) :
    line = ".data" ∨ line.toList.head? ≠ some '.' ∧ line.toList.head? ≠ some '0' := by
  have hhead {line : String} {c : Char} (h : line.toList.head? = some c) (hdot : c ≠ '.')
      (hzero : c ≠ '0') : line.toList.head? ≠ some '.' ∧ line.toList.head? ≠ some '0' := by
    rw [h]
    exact ⟨fun heq => hdot (Option.some.inj heq), fun heq => hzero (Option.some.inj heq)⟩
  have hcomment : "; Entry point: ".toList.head? = some ';' := by decide
  have hcomment' : "; Code size: ".toList.head? = some ';' := by decide
  simp only [Program.frontLines, constantLines, List.mem_append, List.mem_cons, List.not_mem_nil,
    or_false] at hline
  rcases hline with ((rfl | rfl | rfl) | hline) | rfl
  · exact .inr (by decide)
  · exact .inr (hhead (head?_append hcomment _) (by decide) (by decide))
  · simp only [String.append_assoc]
    exact .inr (hhead (head?_append hcomment' _) (by decide) (by decide))
  · split at hline
    · exact absurd hline List.not_mem_nil
    simp only [List.mem_cons, List.mem_map, List.mem_mergeSort] at hline
    rcases hline with rfl | rfl | ⟨⟨name, c⟩, he, rfl⟩
    · exact .inr (by decide)
    · exact .inl rfl
    · simp only [String.append_assoc]
      obtain ⟨d, hd, hstart⟩ := head?_name (h.constants _ he)
      exact .inr (hhead (head?_append hd _) (Token.ne_of_class hstart (by decide))
        (Token.ne_of_class hstart (by decide)))
  · exact .inr (by decide)

theorem Named.label_not_mem_frontLines (h : p.Named) (hname : p.labels.get? name = some x) :
    "." ++ name ∉ p.frontLines := by
  intro hmem
  rcases h.frontLines hmem with heq | ⟨hdot, -⟩
  · have hdata : name = "data" := (String.append_right_inj ".").1 heq
    exact (h.labels _ (NameTable.mem_entries_iff.2 hname)).2 hdata
  · exact hdot (head?_label name)

theorem Named.not_isCodeLine_of_mem_frontLines (h : p.Named) {line : String}
    (hline : line ∈ p.frontLines) : ¬IsCodeLine x line := by
  intro hx
  rcases h.frontLines hline with rfl | ⟨-, hzero⟩
  · exact absurd hx.head? (by decide)
  · exact hzero hx.head?

/-- A label does not stand above chunks at other addresses. -/
theorem label_not_mem_flatMap_chunkLines (hname : p.labels.get? name = some x) {cs : List Chunk}
    (hcs : ∀ c ∈ cs, c.address ≠ x) : "." ++ name ∉ cs.flatMap p.chunkLines := by
  intro hmem
  obtain ⟨c, hc, hmem⟩ := List.mem_flatMap.1 hmem
  exact hcs c hc (Option.some.inj ((get?_of_mem_chunkLines hmem).symm.trans hname))

theorem exists_address_of_mem_flatMap_chunkLines {cs : List Chunk} {line : String}
    (hmem : line ∈ cs.flatMap p.chunkLines) (hx : IsCodeLine x line) : ∃ c ∈ cs, x = c.address := by
  obtain ⟨c, hc, hmem⟩ := List.mem_flatMap.1 hmem
  exact ⟨c, hc, address_of_mem_chunkLines hmem hx⟩

/-- A label is shown if there is a chunk at its address. -/
theorem Named.showsLabel (h : p.Named) (hlt : p.code.length < 0x100000000)
    (hc : c ∈ Chunk.split 0 p.code) (hname : p.labels.get? name = some c.address) :
    ShowsLabel (textLines p.listing) name c.address := by
  have hpairwise := p.pairwise_address_split hlt
  obtain ⟨before, after, hsplit⟩ := List.append_of_mem hc
  obtain ⟨l₁, l₂, hlabels⟩ := List.append_of_mem (mem_labelsAt_iff.2 hname)
  have hnodup := p.nodup_labelsAt c.address
  rw [hsplit] at hpairwise
  rw [hlabels, List.nodup_middle, List.nodup_cons, List.mem_append] at hnodup
  obtain ⟨hl₁, hl₂⟩ := not_or.1 hnodup.1
  obtain ⟨-, hrest, hbefore⟩ := List.pairwise_append.1 hpairwise
  have hbefore : ∀ d ∈ before, d.address < c.address := fun d hd =>
    hbefore d hd c List.mem_cons_self
  have hafter : ∀ d ∈ after, c.address < d.address := (List.pairwise_cons.1 hrest).1
  refine ⟨p.frontLines ++ before.flatMap p.chunkLines ++ l₁.map ("." ++ ·),
    l₂.map ("." ++ ·) ++ [p.chunkLine c] ++ after.flatMap p.chunkLines, ?_, ?_, ?_, ?_, ?_⟩
  · rw [textLines_listing h.oneLineNames, hsplit, List.flatMap_append, List.flatMap_cons,
      chunkLines, hlabels]
    simp
  · simp only [List.mem_append, not_or, mem_map_label_iff]
    refine ⟨⟨h.label_not_mem_frontLines hname, ?_⟩, hl₁⟩
    exact label_not_mem_flatMap_chunkLines hname fun d hd => UInt32.ne_of_lt (hbefore d hd)
  · simp only [List.mem_append, not_or, mem_map_label_iff, List.mem_singleton]
    refine ⟨⟨hl₂, fun heq => ?_⟩, label_not_mem_flatMap_chunkLines hname fun d hd => ?_⟩
    · have hhead := (p.isCodeLine_chunkLine c).head?
      rw [← heq, head?_label] at hhead
      cases hhead
    · exact (UInt32.ne_of_lt (hafter d hd)).symm
  · intro line hline y hy
    simp only [List.mem_append] at hline
    rcases hline with (hline | hline) | hline
    · exact absurd hy (h.not_isCodeLine_of_mem_frontLines hline)
    · obtain ⟨d, hd, rfl⟩ := exists_address_of_mem_flatMap_chunkLines hline hy
      exact hbefore d hd
    · exact absurd hy (not_isCodeLine_of_mem_map_label hline)
  · intro line hline y hy
    simp only [List.mem_append, List.mem_singleton] at hline
    rcases hline with (hline | rfl) | hline
    · exact absurd hy (not_isCodeLine_of_mem_map_label hline)
    · exact UInt32.le_of_eq (hy.unique (p.isCodeLine_chunkLine c)).symm
    · obtain ⟨d, hd, rfl⟩ := exists_address_of_mem_flatMap_chunkLines hline hy
      exact UInt32.le_of_lt (hafter d hd)

/-- A listing shows the labels at the addresses of its chunks. -/
theorem showsLabel_iff (h : p.Named) (hlt : p.code.length < 0x100000000)
    (hname : p.labels.get? name = some x) :
    ShowsLabel (textLines p.listing) name x ↔ ∃ c ∈ Chunk.split 0 p.code, c.address = x := by
  constructor
  · rintro ⟨above, below, hlines, -⟩
    rw [textLines_listing h.oneLineNames] at hlines
    have hmem : "." ++ name ∈ p.frontLines ++ (Chunk.split 0 p.code).flatMap p.chunkLines :=
      hlines ▸ List.mem_append_right _ List.mem_cons_self
    rcases List.mem_append.1 hmem with hmem | hmem
    · exact absurd hmem (h.label_not_mem_frontLines hname)
    · obtain ⟨c, hc, hmem⟩ := List.mem_flatMap.1 hmem
      exact ⟨c, hc, Option.some.inj ((get?_of_mem_chunkLines hmem).symm.trans hname)⟩
  · rintro ⟨c, hc, rfl⟩
    exact h.showsLabel hlt hc hname

end Program

/-! ## Assembled programs -/

/-- The chunks of a stream are its instructions. -/
theorem Chunk.split_encode (offset : Nat) (is : List Instruction) :
    split offset (is.flatMap Instruction.encode) =
      (Instruction.located offset is).map fun w => ⟨w.1, w.2.encode, .ok w.2⟩ := by
  induction is generalizing offset with
  | nil => exact split_nil offset
  | cons i is ih =>
    have hne : (i :: is).flatMap Instruction.encode ≠ [] := List.ne_nil_of_length_pos (by
      have hpos := i.length_pos
      rw [Instruction.length_flatMap_encode, Instruction.totalLength_cons]
      omega)
    obtain ⟨c, hoffset, hc, hsplit⟩ := split_eq_cons offset hne
    rw [List.flatMap_cons] at hc hsplit ⊢
    have hcontent : c.content = .ok i := hc.content_eq.trans (Instruction.decode_encode i _)
    have hlength : c.bytes.length = i.encode.length := by
      rw [hc.length_of_ok i hcontent, Instruction.length_encode]
    have hbytes : c.bytes = i.encode := by
      rw [hc.bytes_eq, hlength, List.take_left]
    rw [hsplit, hlength, List.drop_left, Instruction.length_encode, ih, Instruction.located,
      List.map_cons, ← hbytes, ← hcontent, ← hoffset]

open Assembler

variable {l : Layout} {source : String} {p : Program}

/-- What is known of the program that a text describes. -/
theorem exists_regular_of_assemble (h : assemble l source = .ok p) :
    ∃ (a : Assembler) (entry : Address), a.Regular ∧ p = a.program entry := by
  obtain ⟨lines, a, hparses, hfeeds, hfinish⟩ := assemble_eq_ok_iff.1 h
  obtain ⟨entry, -, rfl⟩ := finish_eq_ok_iff.1 hfinish
  exact ⟨a, entry, regular_of_feeds hfeeds fun _ => named_of_parses hparses, rfl⟩

theorem named_of_assemble (h : assemble l source = .ok p) : p.Named := by
  obtain ⟨a, entry, ha, rfl⟩ := exists_regular_of_assemble h
  obtain ⟨ds, hds⟩ := ha.definitions
  constructor
  · intro e he
    obtain ⟨hname, hlabel⟩ := ha.definable (NameTable.mem_entries_iff.1 he)
    refine ⟨hname.isName, fun hdata => ?_⟩
    rw [hdata] at hlabel
    exact absurd hlabel (by decide)
  · intro e he
    have hmem : e.1 ∈ ds.map (·.1) := by
      rw [← map_fst_placed a.layout 0 ds]
      exact List.mem_map_of_mem (hds.perm.mem_iff.1 he)
    obtain ⟨d, hd, heq⟩ := List.mem_map.1 hmem
    exact heq ▸ (hds.definable d hd).isName

theorem length_code_lt_of_assemble (h : assemble l source = .ok p) :
    p.code.length < 0x100000000 := by
  obtain ⟨a, entry, ha, rfl⟩ := exists_regular_of_assemble h
  rw [length_code_program]
  exact Nat.lt_of_le_of_lt ha.codeSize_le a.layout.programSize.toNat_lt

/-- A label stands for the address of a chunk, unless it is at the end of the code. -/
theorem exists_chunk_iff_of_assemble (h : assemble l source = .ok p) {name : String} {x : Address}
    (hname : p.labels.get? name = some x) :
    (∃ c ∈ Chunk.split 0 p.code, c.address = x) ↔ x.toNat < p.code.length := by
  constructor
  · rintro ⟨c, hc, rfl⟩
    obtain ⟨haddress, hlt⟩ := p.toNat_address_of_mem_split (length_code_lt_of_assemble h) hc
    rwa [haddress]
  · intro hlt
    obtain ⟨a, entry, ha, rfl⟩ := exists_regular_of_assemble h
    rw [length_code_program, codeSize_eq_totalLength] at hlt
    rcases ha.boundary hname with ⟨i, hi⟩ | heq
    · refine ⟨⟨x.toNat, i.encode, .ok i⟩, ?_, UInt32.ofNat_toNat⟩
      rw [Assembler.program, Chunk.split_encode]
      exact List.mem_map.2 ⟨(x.toNat, i), List.mem_cons_of_mem _ hi, rfl⟩
    · exact absurd heq (Nat.ne_of_lt hlt)

/-- The listing of an assembled program shows a label where it belongs exactly if the
    label stands before the end of the code, for a memory of any layout. -/
theorem assemble_showsLabel_iff (h : assemble l source = .ok p) :
    ∃ text, p.writeListing l = some text ∧
      ∀ name x, p.labels.get? name = some x →
        (ShowsLabel (textLines text) name x ↔ x.toNat < p.code.length) := by
  refine ⟨p.listing, p.writeListing_eq l, fun name x hname => ?_⟩
  rw [p.showsLabel_iff (named_of_assemble h) (length_code_lt_of_assemble h) hname]
  exact exists_chunk_iff_of_assemble h hname

/-- A label above the first instruction, and one behind the last. -/
theorem assemble_showsLabel_iff_sample :
    ∃ (p : Program) (text : String),
      assemble .standard ".f\n.start\nCALL f\n.g\n" = .ok p ∧ p.writeListing .standard = some text ∧
        ShowsLabel (textLines text) "f" 8 ∧ ¬ShowsLabel (textLines text) "g" 16 := by
  let p : Program :=
    { code := [0x33, 0, 0, 0, 8, 0, 0, 0, 0x33, 0, 0, 0, 8, 0, 0, 0]
      data := []
      entryPoint := 8
      labels := .ofList [("f", 8), ("start", 8), ("g", 16)]
      constants := ∅ }
  have hp : assemble .standard ".f\n.start\nCALL f\n.g\n" = .ok p := by decide +kernel
  obtain ⟨text, htext, hshows⟩ := assemble_showsLabel_iff hp
  exact ⟨p, text, hp, htext, (hshows "f" 8 (by decide)).2 (by decide),
    mt (hshows "g" 16 (by decide)).1 (by decide)⟩

/-- A program of the entry call alone, with the label of the entry point behind it. -/
theorem label_at_end_not_shown :
    ∃ (p : Program) (text : String), assemble .standard ".start\n" = .ok p ∧
      p.labels.get? "start" = some 8 ∧ p.writeListing .standard = some text ∧
        ¬ShowsLabel (textLines text) "start" 8 := by
  let p : Program :=
    { code := [0x33, 0, 0, 0, 8, 0, 0, 0]
      data := []
      entryPoint := 8
      labels := .ofList [("start", 8)]
      constants := ∅ }
  have hp : assemble .standard ".start\n" = .ok p := by decide +kernel
  have hname : p.labels.get? "start" = some 8 := by decide
  refine ⟨p, p.listing, hp, hname, p.writeListing_eq .standard, ?_⟩
  rw [p.showsLabel_iff (named_of_assemble hp) (length_code_lt_of_assemble hp) hname,
    exists_chunk_iff_of_assemble hp hname]
  decide

end Machine32
