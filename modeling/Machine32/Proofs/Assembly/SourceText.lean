import Machine32.Proofs.Isa.Stream
import Machine32.Proofs.Assembly.Rendering

/-!
# A program as source text

A program is written as source text from its names and its code: the constants
in the order of their addresses, then the instructions from the entry call on,
each under the labels of its address.

* `Instruction.walk` finds the instructions, decoding one behind the other; in
  the code of a stream it finds the stream (`walk_stream`);
* `Program.sourceText` is the text, each of its lines ended by a line feed, so that
  they are read back (`textLines_join`): none of them has one in it
  (`Instruction.newline_not_mem_text`, `newline_not_mem_assignment`).
-/

namespace Machine32

/-! ## Walking through code -/

/-- The instructions of `code` from `offset` on, decoded one behind the other
    until the code ends, and where the last one ends. -/
def Instruction.walk (code : List UInt8) (offset : Nat) :
    Except DecodeError (List (Nat × Instruction) × Nat) :=
  if offset < code.length then do
    let i ← decode (code.drop offset)
    let (walked, stop) ← walk code (offset + i.length)
    return ((offset, i) :: walked, stop)
  else .ok ([], offset)
termination_by code.length - offset
decreasing_by
  have := i.length_pos
  omega

/-- A walk through a stream meets its instructions, and ends where it does. -/
theorem Instruction.walk_stream (pre post : List Instruction) :
    walk ((pre ++ post).flatMap encode) (totalLength pre) =
      .ok (located (totalLength pre) post, totalLength (pre ++ post)) := by
  induction post generalizing pre with
  | nil =>
    rw [walk, length_flatMap_encode, List.append_nil, if_neg (Nat.lt_irrefl _)]
    rfl
  | cons i post ih =>
    -- The walk is at `i`, behind `pre`, and goes on behind `pre ++ [i]`.
    have hlt : totalLength pre < totalLength (pre ++ i :: post) := by
      have := i.length_pos
      rw [totalLength_append, totalLength_cons]
      omega
    have hmem : (totalLength pre, i) ∈ located 0 (pre ++ i :: post) :=
      mem_located_iff.2 ⟨pre, post, rfl, (Nat.zero_add _).symm⟩
    have ih := ih (pre ++ [i])
    rw [List.append_assoc, List.singleton_append, totalLength_concat] at ih
    rw [walk, length_flatMap_encode, if_pos hlt, decode_drop hmem]
    refine (Except.bind_eq_ok_iff).2 ⟨i, rfl, Except.bind_eq_ok_iff.2 ⟨_, ih, rfl⟩⟩

/-! ## The text -/

namespace Program

variable (p : Program)

/-- The lines that define the constants, in the order of their addresses. -/
def dataLines : List String :=
  if p.constants.entries.isEmpty then []
  else
    let inOrder := p.constants.entries.mergeSort fun c d => c.2.address ≤ d.2.address
    ".data" :: inOrder.map fun c => c.1 ++ " = " ++ Numeral.signed (Word.toSigned c.2.value)

/-- The lines that define the labels of the code at `offset`. -/
def labelLines (offset : Nat) : List String :=
  (p.labelsAt (UInt32.ofNat offset)).map ("." ++ ·)

/-- The lines of a program whose instructions are `walked`. -/
def sourceLines (walked : List (Nat × Instruction)) : List String :=
  p.dataLines ++ walked.flatMap (fun w => p.labelLines w.1 ++ [w.2.text])
    ++ p.labelLines p.code.length

/-- The source text of a program whose instructions are `walked`. -/
def sourceText (walked : List (Nat × Instruction)) : String :=
  String.join ((p.sourceLines walked).map (· ++ "\n"))

end Program

/-! ## The lines of the text -/

/-- A text is split at its first line feed, and then behind it. -/
theorem splitLines_cons {line : List Char} (h : '\n' ∉ line) (rest : List Char) :
    splitLines (line ++ '\n' :: rest) = line :: splitLines rest := by
  induction line with
  | nil => rfl
  | cons c cs ih =>
    have hc : c ≠ '\n' := fun heq => h (heq ▸ List.mem_cons_self)
    have ih := ih fun hmem => h (List.mem_cons_of_mem _ hmem)
    rw [List.cons_append, splitLines, List.foldr_cons, ← splitLines, ih, consLines, if_neg hc]

/-- Lines that are each ended by a line feed are the lines of the text. -/
theorem textLines_join {lines : List String} (h : ∀ line ∈ lines, '\n' ∉ line.toList) :
    textLines (String.join (lines.map (· ++ "\n"))) = lines := by
  induction lines with
  | nil => rfl
  | cons line lines ih =>
    have ih := ih fun other hmem => h other (List.mem_cons_of_mem _ hmem)
    rw [textLines] at ih ⊢
    rw [List.map_cons, String.join_cons, String.toList_append, String.toList_append,
      List.append_assoc]
    refine (congrArg _ (splitLines_cons (h line List.mem_cons_self) _)).trans ?_
    rw [List.map_cons, String.ofList_toList]
    exact congrArg _ ih

namespace Token

/-- There is no line feed in a text over a class of characters that it is not in. -/
theorem newline_not_mem {p : Char → Bool} {cs : List Char} (hp : p '\n' = false)
    (h : ∀ c ∈ cs, p c = true) : '\n' ∉ cs :=
  fun hmem => ne_of_class (h _ hmem) hp rfl

theorem newline_not_mem_name {cs : List Char} (h : IsName cs) : '\n' ∉ cs := by
  cases cs with
  | nil => exact List.not_mem_nil
  | cons c cs =>
    rw [List.mem_cons]
    rintro (heq | hmem)
    · exact ne_of_class h.1 (by decide) heq.symm
    · exact newline_not_mem (by decide) h.2 hmem

/-- No spelling of a token has a line feed in it. -/
theorem Spells.newline_not_mem {t : Token} {w : List Char} (h : t.Spells w) : '\n' ∉ w := by
  cases h with
  | directive hn => simp [newline_not_mem_name hn]
  | identifier hn => exact newline_not_mem_name hn
  | number _ hds => exact Token.newline_not_mem (by decide) hds
  | negative _ hds => simp [Token.newline_not_mem (by decide) hds]
  | hex hx _ hds =>
    rcases hx with rfl | rfl <;> simp [Token.newline_not_mem (by decide) hds]

theorem newline_not_mem_intercalate {ws : List (List Char)} (h : ∀ w ∈ ws, '\n' ∉ w) :
    '\n' ∉ [',', ' '].intercalate ws := by
  induction ws with
  | nil => exact List.not_mem_nil
  | cons w ws ih =>
    have hw := h w List.mem_cons_self
    have ih := ih fun v hv => h v (List.mem_cons_of_mem _ hv)
    cases ws with
    | nil => simpa using hw
    | cons v vs =>
      rw [List.intercalate_cons_cons]
      simp [hw, ih]

end Token

/-- An instruction is written on one line. -/
theorem Instruction.newline_not_mem_text (i : Instruction) : '\n' ∉ i.text.toList := by
  have hname := Token.newline_not_mem_name i.opcode.isName_mnemonic
  rw [text, operandTexts_eq]
  split
  · exact hname
  · have hwords : '\n' ∉ (", ".intercalate (i.arguments.map Argument.text)).toList := by
      rw [String.toList_intercalate]
      refine Token.newline_not_mem_intercalate fun w hw => ?_
      simp only [List.mem_map] at hw
      obtain ⟨_, ⟨x, -, rfl⟩, rfl⟩ := hw
      exact x.spells.newline_not_mem
    rw [String.toList_append, String.toList_append, List.mem_append, List.mem_append]
    rintro ((h | h) | h)
    · exact hname h
    · exact absurd h (by decide)
    · exact hwords h

theorem newline_not_mem_directive {name : String} (h : IsName name.toList) :
    '\n' ∉ ("." ++ name).toList := by
  rw [String.toList_append]
  exact (Token.Spells.directive h).newline_not_mem

/-- A constant is written on one line. -/
theorem newline_not_mem_assignment {name : String} {n : Int} (h : IsName name.toList)
    (hn : Token.Fits64 n) : '\n' ∉ (name ++ " = " ++ Numeral.signed n).toList := by
  have hname := Token.newline_not_mem_name h
  have hnumber := (Token.spells_signed hn).newline_not_mem
  rw [String.toList_append, String.toList_append, List.mem_append, List.mem_append]
  rintro ((h | h) | h)
  · exact hname h
  · exact absurd h (by decide)
  · exact hnumber h

end Machine32
