import Machine32.Lister
import Machine32.Proofs.Isa.Grammar
import Machine32.Proofs.Assembly.Reassembly
import Machine32.Proofs.Listing.Lines

/-!
# The chunks of a listing

Each chunk is what is at the front of the code behind those before it.

* `Chunk.Heads`: a chunk is what code begins with;
* `Chunk.split_eq_cons`: the first chunk, and what is divided behind it;
* `Chunk.heads_of_split`: so it is for every chunk.
-/

namespace Machine32

theorem Instruction.length_le_of_decode {bytes : List UInt8} {i : Instruction}
    (h : decode bytes = .ok i) : i.length ≤ bytes.length := by
  obtain ⟨op, hop, hencode⟩ := decode_eq_ok_iff.1 h
  rw [← length_encode, hencode, Opcode.normalized, List.length_mapIdx]
  exact List.length_take_le' ..

namespace Chunk

/-- The chunk is what `code` begins with: an instruction, or else the next word or what
    is left of it. -/
structure Heads (c : Chunk) (code : List UInt8) : Prop where
  content_eq : c.content = Instruction.decode code
  bytes_eq : c.bytes = code.take c.bytes.length
  length_of_ok : ∀ i, c.content = .ok i → c.bytes.length = i.length
  length_of_error : ∀ e, c.content = .error e → c.bytes.length = min Word.size code.length
  nonempty : 0 < c.bytes.length

variable {offset : Nat} {code : List UInt8}

@[simp] theorem split_nil (offset : Nat) : split offset [] = [] := by
  rw [split]

/-- The first chunk of code, and the chunks behind it. -/
theorem split_eq_cons (offset : Nat) (hne : code ≠ []) :
    ∃ c : Chunk, c.offset = offset ∧ c.Heads code ∧
      split offset code = c :: split (offset + c.bytes.length) (code.drop c.bytes.length) := by
  obtain ⟨b, bs, rfl⟩ := List.exists_cons_of_ne_nil hne
  cases hdecode : Instruction.decode (b :: bs) with
  | ok i =>
    have hlength : ((b :: bs).take i.length).length = i.length :=
      List.length_take_of_le (Instruction.length_le_of_decode hdecode)
    refine ⟨⟨offset, (b :: bs).take i.length, .ok i⟩, rfl, ⟨hdecode.symm, ?_, ?_, ?_, ?_⟩, ?_⟩
    · rw [hlength]
    · rintro _ ⟨⟩
      exact hlength
    · rintro _ ⟨⟩
    · rw [hlength]
      exact i.length_pos
    · rw [split, hdecode, hlength]
  | error e =>
    have hlength : ((b :: bs).take Word.size).length = min Word.size (b :: bs).length :=
      List.length_take
    have htake : (b :: bs).take Word.size = (b :: bs).take (min Word.size (b :: bs).length) := by
      rw [← List.take_take, List.take_length]
    refine ⟨⟨offset, (b :: bs).take Word.size, .error e⟩, rfl,
      ⟨hdecode.symm, ?_, ?_, ?_, ?_⟩, ?_⟩
    · rw [hlength, ← htake]
    · rintro _ ⟨⟩
    · rintro _ ⟨⟩
      exact hlength
    · rw [hlength, List.length_cons, Word.size]
      omega
    · rw [split, hdecode, hlength]
      -- What is left of the code may be less than a word, and then nothing is behind it.
      rcases Nat.le_total Word.size (b :: bs).length with hle | hle
      · rw [Nat.min_eq_left hle]
      · rw [Nat.min_eq_right hle, List.drop_length, List.drop_eq_nil_of_le hle, split_nil,
          split_nil]

/-- A chunk is what the code behind the chunks before it begins with. -/
theorem heads_of_split {before after : List Chunk} {c : Chunk}
    (h : split offset code = before ++ c :: after) :
    c.offset = offset + (before.flatMap (·.bytes)).length ∧
      c.Heads (code.drop (before.flatMap (·.bytes)).length) := by
  induction before generalizing offset code with
  | nil =>
    have hne : code ≠ [] := by
      rintro rfl
      exact nomatch (split_nil offset).symm.trans h
    obtain ⟨d, hd, hheads, hsplit⟩ := split_eq_cons offset hne
    obtain ⟨rfl, -⟩ := List.cons.inj (hsplit.symm.trans h)
    exact ⟨hd, hheads⟩
  | cons d before ih =>
    have hne : code ≠ [] := by
      rintro rfl
      exact nomatch (split_nil offset).symm.trans h
    obtain ⟨e, -, -, hsplit⟩ := split_eq_cons offset hne
    obtain ⟨rfl, hbehind⟩ := List.cons.inj (hsplit.symm.trans h)
    obtain ⟨hoffset, hheads⟩ := ih hbehind
    rw [List.flatMap_cons, List.length_append, ← Nat.add_assoc]
    rw [List.drop_drop] at hheads
    exact ⟨hoffset, hheads⟩

end Chunk

namespace Program

variable {p : Program}

/-! ## Writing the listing -/

theorem codeBetween?_eq_some {start stop : Nat} (hle : start ≤ stop)
    (hstop : stop ≤ p.code.length) :
    p.codeBetween? start stop = some ((p.code.drop start).take (stop - start)) := by
  rw [codeBetween?, if_pos ⟨hle, hstop⟩, List.drop_take]

/-- Lines written one after the other. -/
theorem foldl_append_line (lines : List String) (out : String) :
    lines.foldl (fun out line => out ++ line ++ "\n") out =
      out ++ String.join (lines.map (· ++ "\n")) := by
  induction lines generalizing out with
  | nil => simp
  | cons line lines ih =>
    rw [List.foldl_cons, ih, List.map_cons, String.join_cons]
    simp only [String.append_assoc]

/-- The chunk at the place that is reached is written, and the place behind it is
    reached. -/
theorem writeCode_step {offset : Nat} (hlt : offset < p.code.length) {c : Chunk}
    (hoffset : c.offset = offset) (hc : c.Heads (p.code.drop offset)) (out : String) :
    p.writeCode 0 offset out = p.writeCode 0 (offset + c.bytes.length)
      (out ++ String.join ((p.chunkLines c).map (· ++ "\n"))) := by
  have hlength := List.length_drop (i := offset) (l := p.code)
  have hle : c.bytes.length ≤ (p.code.drop offset).length := by
    rw [hc.bytes_eq]
    exact List.length_take_le' ..
  have hrest : p.codeBetween? offset p.code.length = some (p.code.drop offset) := by
    rw [codeBetween?_eq_some (Nat.le_of_lt hlt) (Nat.le_refl _), ← hlength, List.take_length]
  have hbytes : p.codeBetween? offset (offset + c.bytes.length) = some c.bytes := by
    rw [codeBetween?_eq_some (Nat.le_add_right ..) (by omega), Nat.add_sub_cancel_left,
      ← hc.bytes_eq]
  have haddress : (0 : Address) + UInt32.ofNat offset = c.address := by
    rw [UInt32.zero_add, Chunk.address, hoffset]
  have hlabels (out : String) :
      (p.labelsAt c.address).foldl (fun out name => out ++ "." ++ name ++ "\n") out =
        out ++ String.join (((p.labelsAt c.address).map ("." ++ ·)).map (· ++ "\n")) := by
    rw [← foldl_append_line, List.foldl_map]
    simp only [String.append_assoc]
  rw [writeCode, if_pos hlt]
  simp only [hrest, haddress, hlabels, Option.bind_eq_bind, Option.bind_some, ← hc.content_eq]
  cases hcontent : c.content with
  | ok i =>
    simp only [← hc.length_of_ok i hcontent, hbytes, Option.bind_some]
    simp only [writePlace, chunkLines, chunkLine, hcontent, List.map_append, List.map_cons,
      List.map_nil, String.join_append, String.join_cons, String.join_nil, String.append_assoc,
      String.append_empty]
  | error e =>
    have hstop : min (offset + Word.size) p.code.length = offset + c.bytes.length := by
      rw [hc.length_of_error e hcontent]
      omega
    simp only [hstop, hbytes, Option.bind_some]
    simp only [writePlace, chunkLines, chunkLine, hcontent, List.map_append, List.map_cons,
      List.map_nil, String.join_append, String.join_cons, String.join_nil, String.append_assoc,
      String.append_empty]

/-- What is written of the code from a place on. -/
theorem writeCode_eq {offset : Nat} (hle : offset ≤ p.code.length) (out : String) :
    p.writeCode 0 offset out = some (out ++ String.join
      (((Chunk.split offset (p.code.drop offset)).flatMap p.chunkLines).map (· ++ "\n"))) := by
  -- By induction on what is left of the code.
  generalize hleft : p.code.length - offset = left
  induction left using Nat.strongRecOn generalizing offset out with
  | ind left ih =>
    rcases Nat.lt_or_eq_of_le hle with hlt | heq
    · have hne : p.code.drop offset ≠ [] := List.ne_nil_of_length_pos (by
        rw [List.length_drop]
        omega)
      obtain ⟨c, hoffset, hc, hsplit⟩ := Chunk.split_eq_cons offset hne
      have hpos := hc.nonempty
      have hstop : c.bytes.length ≤ p.code.length - offset := by
        rw [hc.bytes_eq, ← List.length_drop]
        exact List.length_take_le' ..
      rw [writeCode_step hlt hoffset hc,
        ih (p.code.length - (offset + c.bytes.length)) (by omega) (by omega) _ rfl, hsplit,
        List.flatMap_cons, List.map_append, String.join_append, ← String.append_assoc,
        List.drop_drop]
    · rw [writeCode, if_neg (Nat.not_lt.2 (Nat.le_of_eq heq.symm)), heq, List.drop_length,
        Chunk.split_nil]
      simp

/-- Whatever the code is, the listing is written to its end. -/
theorem writeListing_eq (p : Program) (l : Layout) : p.writeListing l = some p.listing := by
  change p.writeCode 0 0 _ = _
  rw [writeCode_eq (Nat.zero_le _), foldl_append_line, List.drop_zero, String.empty_append,
    ← String.join_append, ← List.map_append]
  rfl

/-! ## What a listing shows -/

theorem pairwise_labelsAt (p : Program) (x : Address) : (p.labelsAt x).Pairwise (· < ·) :=
  List.pairwise_map.2 (p.labels.ordered.filter _)

/-- The chunk is at an offset of the code, and its line shows what is decoded there. -/
structure Shows (p : Program) (offset : Nat) (c : Chunk) : Prop where
  lt_length : offset < p.code.length
  address_eq : c.address.toNat = offset
  of_ok : ∀ i, Instruction.decode (p.code.drop offset) = .ok i →
    c.bytes.length = i.length ∧
      p.chunkLine c = c.address.text ++ ":  " ++ Chunk.padRight 24 (Chunk.bytesText c.bytes) ++ "  "
        ++ (i.text ++ p.remark i)
  of_error : ∀ e, Instruction.decode (p.code.drop offset) = .error e →
    c.bytes.length = min 4 (p.code.length - offset) ∧
      p.chunkLine c = c.address.text ++ ":  " ++ Chunk.padRight 24 (Chunk.bytesText c.bytes) ++ "  "
        ++ ("; ERROR: " ++ e.message)

theorem shows_of_split (hlt : p.code.length < 0x100000000) {before after : List Chunk} {c : Chunk}
    (h : Chunk.split 0 p.code = before ++ c :: after) :
    p.Shows (before.flatMap (·.bytes)).length c := by
  obtain ⟨hoffset, hc⟩ := Chunk.heads_of_split h
  have hpos := hc.nonempty
  have hlength : (before.flatMap (·.bytes)).length + c.bytes.length ≤ p.code.length := by
    rw [← Chunk.split_flatMap 0 p.code, h, List.flatMap_append, List.flatMap_cons]
    simp only [List.length_append]
    omega
  rw [Nat.zero_add] at hoffset
  constructor
  · omega
  · have hsize : UInt32.size = 0x100000000 := rfl
    rw [Chunk.address, hoffset]
    exact UInt32.toNat_ofNat_of_lt' (by omega)
  · intro i hi
    rw [← hc.content_eq] at hi
    exact ⟨hc.length_of_ok i hi, by rw [chunkLine, hi]⟩
  · intro e he
    rw [← hc.content_eq] at he
    rw [← List.length_drop]
    exact ⟨hc.length_of_error e he, by rw [chunkLine, he]⟩

/-- For every program a listing is written, and behind the lines at its front it shows
    the code in chunks, one after the other from the start on, which together are all of
    the code. The line of a chunk has its address, its bytes, and the instruction they
    are, or the reason why there is none, the chunk being the next word then or what is
    left of it. Above it stand the labels at its address, in the order of their names. -/
theorem writeListing_shows_code (hnames : p.OneLineNames) (hlt : p.code.length < 0x100000000)
    (l : Layout) :
    ∃ (text : String) (chunks : List Chunk), p.writeListing l = some text ∧
      textLines text = p.frontLines ++
        chunks.flatMap (fun c => (p.labelsAt c.address).map ("." ++ ·) ++ [p.chunkLine c]) ∧
      chunks.flatMap (·.bytes) = p.code ∧
      (∀ before c after, chunks = before ++ c :: after →
        p.Shows (before.flatMap (·.bytes)).length c) ∧
      ∀ x, (p.labelsAt x).Pairwise (· < ·) ∧
        ∀ name, name ∈ p.labelsAt x ↔ p.labels.get? name = some x := by
  refine ⟨p.listing, Chunk.split 0 p.code, p.writeListing_eq l, textLines_listing hnames,
    Chunk.split_flatMap 0 p.code, fun _ _ _ h => shows_of_split hlt h, fun x => ?_⟩
  exact ⟨p.pairwise_labelsAt x, fun name => mem_labelsAt_iff⟩

/-- Code with a return in it, a byte that is no opcode, and a call that is cut off. -/
def brokenSample : Program where
  code := [0x34, 0, 0, 0, 0xEE, 1, 2, 3, 0x33, 0, 0]
  data := []
  entryPoint := 0
  labels := .ofList [("b", 4), ("a", 4)]
  constants := ∅

theorem writeListing_shows_code_sample :
    let lines :=
      ["0x0000:  34 00 00 00               RET",
       ".a",
       ".b",
       "0x0004:  EE 01 02 03               ; ERROR: Unknown opcode: 0xEE",
       "0x0008:  33 00 00                  ; ERROR: Truncated instruction 0x33: "
         ++ "needs 8 bytes, 3 available"]
    brokenSample.OneLineNames ∧ brokenSample.code.length < 0x100000000 ∧
      ∃ (text : String) (chunks : List Chunk), brokenSample.writeListing .standard = some text ∧
        chunks.flatMap (·.bytes) = brokenSample.code ∧
        textLines text = brokenSample.frontLines ++ lines := by
  intro lines
  have hnames : brokenSample.OneLineNames := ⟨by decide, by decide⟩
  have hlines : (Chunk.split 0 brokenSample.code).flatMap brokenSample.chunkLines = lines := by
    decide +kernel
  obtain ⟨text, chunks, htext, -, hbytes, -⟩ :=
    writeListing_shows_code hnames (by decide) .standard
  refine ⟨hnames, by decide, text, chunks, htext, hbytes, ?_⟩
  obtain rfl := Option.some.inj (htext.symm.trans (writeListing_eq brokenSample .standard))
  rw [textLines_listing hnames, hlines]

end Program

end Machine32
