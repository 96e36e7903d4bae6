import Machine32.Assembly.Assembler
import Machine32.Proofs.Result
import Machine32.Proofs.Isa.Stream

/-!
# Feeding lines

What the assembler does with a line that it accepts, as a relation. Each kind of
line has a rule of its own, which says when the line is accepted and what comes
of it:

* `Assembler.Step` for a line that is not blank (`feedParsed_eq_ok_iff`);
* `Assembler.Feeds` for the lines of a text, one after the other
  (`assemble_eq_ok_iff`), with `Feeds.invariant` for what holds after all of them.
-/

namespace Machine32

/-- A number is a word if it fits one, signed or unsigned. -/
theorem Word.ofNumber_eq_ok_iff {n : Int} {w : Word} :
    Word.ofNumber n = .ok w ↔ Word.Fits n ∧ w = Word.ofInt n := by
  rw [Word.ofNumber]
  split
  · next h => simp [h, eq_comm]
  · next h => simp [h]

/-- The address behind `n` bytes of data. -/
theorem Layout.toNat_dataAddress (l : Layout) {n : Nat} (h : n ≤ l.dataSize.toNat) :
    (l.programSize + UInt32.ofNat n).toNat = l.programSize.toNat + n := by
  have hlt := l.total_lt
  have hsize : (UInt32.ofNat n).toNat = n :=
    UInt32.toNat_ofNat_of_lt' (Nat.lt_of_le_of_lt h l.dataSize.toNat_lt)
  rw [UInt32.toNat_add, hsize]
  omega

/-- The label that a directive binds, none if it opens a data section. -/
def labelOf? (name : String) : Option String :=
  if Ascii.lower name = "data" then none
  else if Ascii.lower name = Assembler.startLabel then some Assembler.startLabel
  else some name

namespace SymbolTable

variable {t u : SymbolTable} {name : String}

/-- A name is free to be bound if it is not that of a register. -/
theorem checkName_eq_ok_iff {x : Unit} :
    checkName name = .ok x ↔ Register.ofName? name = none := by
  rw [checkName]
  cases Register.ofName? name <;> simp

/-- A label is bound if its name is no register and no label yet, and comes into the table. -/
theorem defineLabel_eq_ok_iff {a : Address} :
    t.defineLabel name a = .ok u ↔ Register.ofName? name = none ∧ t.labels.get? name = none ∧
      u = { t with labels := t.labels.insert name a } := by
  simp only [defineLabel, Except.bind_eq_ok_iff, checkName_eq_ok_iff]
  split
  · next h => simp [Option.isSome_iff_ne_none.1 h]
  · next h => simp [Option.not_isSome_iff_eq_none.1 h, Except.pure_eq_ok_iff]

/-- A constant is bound if its name is no register and no constant yet. -/
theorem defineConstant_eq_ok_iff {c : Constant} :
    t.defineConstant name c = .ok u ↔ Register.ofName? name = none ∧
      t.constants.get? name = none ∧ u = { t with constants := t.constants.insert name c } := by
  simp only [defineConstant, Except.bind_eq_ok_iff, checkName_eq_ok_iff]
  split
  · next h => simp [Option.isSome_iff_ne_none.1 h]
  · next h => simp [Option.not_isSome_iff_eq_none.1 h, Except.pure_eq_ok_iff]

end SymbolTable

namespace Assembler

/-- What comes of a line that is accepted. -/
inductive Step (a : Assembler) : Line → Assembler → Prop
  | data {name : String} : labelOf? name = none →
      Step a (.directive name) { a with current := .data }
  | label {name label : String} : labelOf? name = some label → Register.ofName? label = none →
      a.symbols.labels.get? label = none →
      Step a (.directive name)
        { a with
          symbols := { a.symbols with labels := a.symbols.labels.insert label a.programPointer }
          current := .code }
  | constant {name : String} {value : Int} : a.current = .data → Word.Fits value →
      a.dataSize + Word.size ≤ a.layout.dataSize.toNat → Register.ofName? name = none →
      a.symbols.constants.get? name = none →
      Step a (.assignment name value)
        { a with
          symbols :=
            { a.symbols with
              constants := a.symbols.constants.insert name ⟨a.dataPointer, Word.ofInt value⟩ }
          data := a.data.push (Word.ofInt value) }
  | statement {mnemonic : String} {operands : List Operand} {values : List Value}
      {i : Instruction} : a.current = .code →
      List.Forall₂ (fun o v => a.symbols.resolve o = .ok v) operands values →
      Instruction.ofStatement mnemonic values = .ok i →
      a.codeSize + i.length ≤ a.layout.programSize.toNat →
      Step a (.statement mnemonic operands) { a with code := a.code.push i }

variable {a b : Assembler}

/-- A section of code is opened if its label can be bound, to the address behind the code so
    far. -/
theorem openCode_eq_ok_iff {label : String} :
    a.openCode label = .ok b ↔ Register.ofName? label = none ∧
      a.symbols.labels.get? label = none ∧
      b = { a with
        symbols := { a.symbols with labels := a.symbols.labels.insert label a.programPointer }
        current := .code } := by
  simp [openCode, Except.map_eq_ok_iff, SymbolTable.defineLabel_eq_ok_iff, and_assoc]

/-- A directive opens the data section, or a section of code with the label that it binds. -/
theorem openSection_eq_ok_iff {name : String} :
    a.openSection name = .ok b ↔
      (labelOf? name = none ∧ b = { a with current := .data }) ∨
      ∃ label, labelOf? name = some label ∧ a.openCode label = .ok b := by
  rw [openSection, labelOf?]
  split
  · simp [eq_comm]
  split <;> simp

/-- A word of data needs a number that fits, room for it and a name that can be bound. -/
theorem defineData_eq_ok_iff {name : String} {value : Int} :
    a.defineData name value = .ok b ↔ Word.Fits value ∧
      a.dataSize + Word.size ≤ a.layout.dataSize.toNat ∧ Register.ofName? name = none ∧
      a.symbols.constants.get? name = none ∧
      b = { a with
        symbols :=
          { a.symbols with
            constants := a.symbols.constants.insert name ⟨a.dataPointer, Word.ofInt value⟩ }
        data := a.data.push (Word.ofInt value) } := by
  simp only [defineData, Except.bind_eq_ok_iff, Word.ofNumber_eq_ok_iff, and_assoc]
  split
  · next h => simp [Nat.not_le.2 h]
  · next h =>
    simp [Except.map_eq_ok_iff, SymbolTable.defineConstant_eq_ok_iff, Nat.not_lt.1 h, and_assoc]

/-- An instruction goes behind the code so far if there is room for it. -/
theorem emit_eq_ok_iff {i : Instruction} :
    a.emit i = .ok b ↔
      a.codeSize + i.length ≤ a.layout.programSize.toNat ∧
        b = { a with code := a.code.push i } := by
  have hi := i.length_pos
  simp only [emit]
  split
  · next h => simp [show ¬a.codeSize + i.length ≤ a.layout.programSize.toNat by omega]
  · next h => simp [show a.codeSize + i.length ≤ a.layout.programSize.toNat by omega, eq_comm]

/-- Where data is defined, an assignment is a word of data. -/
theorem feedParsed_assignment {name : String} {value : Int} (h : a.current = .data) :
    a.feedParsed (.assignment name value) = a.defineData name value := by
  simp only [feedParsed, h]

/-- Where code is written, a statement is an instruction. -/
theorem feedParsed_statement {mnemonic : String} {operands : List Operand}
    (h : a.current = .code) :
    a.feedParsed (.statement mnemonic operands) =
      (do
        let values ← operands.mapM a.symbols.resolve
        a.emit (← Instruction.ofStatement mnemonic values)) := by
  simp only [feedParsed, h]

/-- The assembler accepts the lines that the rules accept, with what they say. -/
theorem feedParsed_eq_ok_iff {line : Line} : a.feedParsed line = .ok b ↔ a.Step line b := by
  constructor
  · -- The section decides first whether an assignment or a statement is accepted.
    intro h
    cases line with
    | directive name =>
      rcases openSection_eq_ok_iff.1 h with ⟨hn, rfl⟩ | ⟨label, hl, h⟩
      · exact .data hn
      · obtain ⟨hr, hf, rfl⟩ := openCode_eq_ok_iff.1 h
        exact .label hl hr hf
    | assignment name value =>
      cases hc : a.current with
      | outside | code => simp [feedParsed, hc] at h
      | data =>
        rw [feedParsed_assignment hc, defineData_eq_ok_iff] at h
        obtain ⟨hv, hs, hr, hf, rfl⟩ := h
        exact .constant hc hv hs hr hf
    | statement mnemonic operands =>
      cases hc : a.current with
      | outside | data => simp [feedParsed, hc] at h
      | code =>
        simp only [feedParsed_statement hc, Except.bind_eq_ok_iff, Except.mapM_eq_ok_iff,
          emit_eq_ok_iff] at h
        obtain ⟨values, hv, i, hi, hs, rfl⟩ := h
        exact .statement hc hv hi hs
  · intro h
    cases h with
    | data hn => exact openSection_eq_ok_iff.2 (.inl ⟨hn, rfl⟩)
    | label hl hr hf =>
      exact openSection_eq_ok_iff.2 (.inr ⟨_, hl, openCode_eq_ok_iff.2 ⟨hr, hf, rfl⟩⟩)
    | constant hc hv hs hr hf =>
      rw [feedParsed_assignment hc]
      exact defineData_eq_ok_iff.2 ⟨hv, hs, hr, hf, rfl⟩
    | statement hc hv hi hs =>
      simp only [feedParsed_statement hc, Except.bind_eq_ok_iff, Except.mapM_eq_ok_iff,
        emit_eq_ok_iff]
      exact ⟨_, hv, _, hi, hs, rfl⟩

theorem Step.layout {line : Line} (h : a.Step line b) : b.layout = a.layout := by
  cases h <;> rfl

/-- The lines of a text, one after the other. Blank lines change nothing. -/
inductive Feeds : Assembler → List (Option Line) → Assembler → Prop
  | nil (a : Assembler) : Feeds a [] a
  | blank {a b : Assembler} {lines : List (Option Line)} :
      Feeds a lines b → Feeds a (none :: lines) b
  | line {a b c : Assembler} {line : Line} {lines : List (Option Line)} :
      a.Step line b → Feeds b lines c → Feeds a (some line :: lines) c

theorem Feeds.layout {lines : List (Option Line)} (h : Feeds a lines b) :
    b.layout = a.layout := by
  induction h with
  | nil => rfl
  | blank _ ih => exact ih
  | line hs _ ih => exact ih.trans hs.layout

/-- What every line preserves, given the lines before it, holds after all of
    them. -/
theorem Feeds.invariant {P : List (Option Line) → Assembler → Prop}
    {lines : List (Option Line)} (h : Feeds a lines b) (ha : P [] a)
    (hblank : ∀ before a, P before a → P (before ++ [none]) a)
    (hline : ∀ before a line b, P before a → a.Step line b → P (before ++ [some line]) b) :
    P lines b := by
  -- By induction on the lines to come, whatever lines came before.
  have hbefore (before : List (Option Line)) (ha : P before a) : P (before ++ lines) b := by
    clear * - h ha hblank hline
    induction h generalizing before with
    | nil => rwa [List.append_nil]
    | blank _ ih => exact List.append_cons .. ▸ ih _ (hblank _ _ ha)
    | line hs _ ih => exact List.append_cons .. ▸ ih _ (hline _ _ _ _ ha hs)
  exact hbefore [] ha

/-! ## Capacity -/

/-- The size of the code is that of the entry call and of each instruction. -/
theorem codeSize_eq_totalLength (a : Assembler) :
    a.codeSize = entryLength + Instruction.totalLength a.code.toList := by
  -- The fold may begin with any number.
  have hfoldl (is : List Instruction) (n : Nat) :
      is.foldl (fun n i => n + i.length) n = n + Instruction.totalLength is := by
    induction is generalizing n with
    | nil => rfl
    | cons i is ih => rw [List.foldl_cons, ih, Instruction.totalLength_cons, Nat.add_assoc]
  rw [codeSize, ← Array.foldl_toList, hfoldl]

/-- An instruction adds its length to the size of the code. -/
theorem codeSize_of_push {i : Instruction} (h : b.code = a.code.push i) :
    b.codeSize = a.codeSize + i.length := by
  rw [codeSize_eq_totalLength, h, Array.toList_push, Instruction.totalLength_concat,
    ← Nat.add_assoc, ← codeSize_eq_totalLength]

/-- The code and the data so far fit their segments. -/
structure Bounded (a : Assembler) : Prop where
  codeSize_le : a.codeSize ≤ a.layout.programSize.toNat
  dataSize_le : a.dataSize ≤ a.layout.dataSize.toNat

/-- As the code fits its segment, the address behind it does not wrap around. -/
theorem Bounded.toNat_programPointer (h : a.Bounded) : a.programPointer.toNat = a.codeSize :=
  UInt32.toNat_ofNat_of_lt' (Nat.lt_of_le_of_lt h.codeSize_le a.layout.programSize.toNat_lt)

/-- So it is for the address behind the data. -/
theorem Bounded.toNat_dataPointer (h : a.Bounded) :
    a.dataPointer.toNat = a.layout.programSize.toNat + a.dataSize :=
  a.layout.toNat_dataAddress h.dataSize_le

theorem bounded_initial (l : Layout) : (initial l).Bounded where
  codeSize_le := l.nonempty.1
  dataSize_le := Nat.zero_le _

/-- No line that is accepted goes beyond a segment. -/
theorem Step.bounded {line : Line} (h : a.Step line b) (ha : a.Bounded) : b.Bounded := by
  cases h with
  | data | label => exact ⟨ha.codeSize_le, ha.dataSize_le⟩
  | constant _ _ hs =>
    refine ⟨ha.codeSize_le, ?_⟩
    rw [dataSize, Array.size_push, Nat.succ_mul]
    exact hs
  | statement _ _ _ hs =>
    refine ⟨?_, ha.dataSize_le⟩
    rw [codeSize_of_push rfl]
    exact hs

/-- Each text reads as the line beside it. -/
def Parses (texts : List String) (lines : List (Option Line)) : Prop :=
  List.Forall₂ (fun text line => Line.parse text = .ok line) texts lines

/-- A text is accepted as the line that it reads as. -/
theorem feed_eq_ok_iff {text : String} :
    a.feed text = .ok b ↔ ∃ line, Line.parse text = .ok line ∧ Feeds a [line] b := by
  simp only [feed, Except.bind_eq_ok_iff]
  refine exists_congr fun line => and_congr_right fun _ => ?_
  cases line with
  | none =>
    simp only [Except.pure_eq_ok_iff]
    constructor
    · rintro rfl
      exact .blank (.nil _)
    · rintro (_ | ⟨⟨⟩⟩)
      rfl
  | some line =>
    simp only [feedParsed_eq_ok_iff]
    constructor
    · exact fun h => .line h (.nil _)
    · rintro (_ | _ | ⟨h, ⟨⟩⟩)
      exact h

/-- An accepted line is blank, or it is a step. -/
theorem feed_cases {text : String} (h : a.feed text = .ok b) : b = a ∨ ∃ line, a.Step line b := by
  obtain ⟨_, -, hfeeds⟩ := feed_eq_ok_iff.1 h
  rcases hfeeds with _ | ⟨⟨⟩⟩ | ⟨hs, ⟨⟩⟩
  · exact .inl rfl
  · exact .inr ⟨_, hs⟩

/-- Texts are accepted if each reads as a line, and these lines are accepted one after the
    other. -/
theorem feedLines_eq_ok_iff {n : Nat} {texts : List String} :
    a.feedLines n texts = .ok b ↔ ∃ lines, Parses texts lines ∧ Feeds a lines b := by
  induction texts generalizing a n with
  | nil =>
    constructor
    · rintro ⟨⟩
      exact ⟨[], .nil, .nil _⟩
    · rintro ⟨_, ⟨⟩, ⟨⟩⟩
      rfl
  | cons text texts ih =>
    simp only [feedLines, Except.bind_eq_ok_iff, feedLine, Except.mapError_eq_ok_iff, ih,
      feed_eq_ok_iff]
    constructor
    · rintro ⟨c, ⟨line, hp, hc⟩, lines, hps, hb⟩
      refine ⟨line :: lines, .cons hp hps, ?_⟩
      rcases hc with _ | ⟨⟨⟩⟩ | ⟨hs, ⟨⟩⟩
      · exact .blank hb
      · exact .line hs hb
    · rintro ⟨_, _ | ⟨hp, hps⟩, h⟩
      rcases h with _ | h | ⟨hs, h⟩
      · exact ⟨a, ⟨none, hp, .blank (.nil _)⟩, _, hps, h⟩
      · exact ⟨_, ⟨some _, hp, .line hs (.nil _)⟩, _, hps, h⟩

/-- The program that the assembler makes when the text is entered at `entry`. -/
def program (a : Assembler) (entry : Address) : Program where
  code := (.jump .call entry :: a.code.toList).flatMap Instruction.encode
  data := a.data.toList.flatMap Word.toBytes
  entryPoint := entry
  labels := a.symbols.labels
  constants := a.symbols.constants

/-- There is a program in the end if the text has a place to begin. -/
theorem finish_eq_ok_iff {p : Program} :
    a.finish = .ok p ↔ ∃ entry, a.symbols.labels.get? startLabel = some entry ∧
      p = a.program entry := by
  rw [finish]
  split
  · next h => simp [h]
  · next entry h =>
    simp only [h, Except.ok.injEq, Option.some.injEq, exists_eq_left']
    exact eq_comm

/-- The size that is counted as the assembler goes along is the length of the code. -/
theorem length_code_program (a : Assembler) (entry : Address) :
    (a.program entry).code.length = a.codeSize := by
  rw [program, Instruction.length_flatMap_encode, codeSize_eq_totalLength]
  rfl

theorem length_data_program (a : Assembler) (entry : Address) :
    (a.program entry).data.length = a.dataSize := by
  rw [dataSize, ← Array.length_toList]
  change (a.data.toList.flatMap Word.toBytes).length = _
  induction a.data.toList with
  | nil => rfl
  | cons w ws ih =>
    rw [List.flatMap_cons, List.length_append, Word.length_toBytes, ih, List.length_cons,
      Nat.succ_mul, Nat.add_comm]

end Assembler

/-- The lines of a text, as texts. -/
def textLines (source : String) : List String :=
  (splitLines source.toList).map String.ofList

/-- A text is a program if all its lines are accepted and they make one up. -/
theorem assemble_eq_ok_iff {l : Layout} {source : String} {p : Program} :
    assemble l source = .ok p ↔ ∃ lines a, Assembler.Parses (textLines source) lines ∧
      (Assembler.initial l).Feeds lines a ∧ a.finish = .ok p := by
  rw [assemble, ← textLines]
  simp only [Except.bind_eq_ok_iff, Assembler.feedLines_eq_ok_iff]
  constructor
  · rintro ⟨a, ⟨lines, hp, hf⟩, ha⟩
    exact ⟨lines, a, hp, hf, ha⟩
  · rintro ⟨lines, a, hp, hf, ha⟩
    exact ⟨a, ⟨lines, hp, hf⟩, ha⟩

end Machine32
