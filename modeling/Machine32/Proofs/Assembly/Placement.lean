import Machine32.Proofs.NameTables
import Machine32.Proofs.Assembly.Description

/-!
# The assembler follows the description

The assembler goes through a text once and keeps a program pointer, a data
pointer and a table of names. Between two lines these are what the lines so far
describe (`Reads`), so that in the end the program is the one the whole text
describes.
-/

namespace Machine32.Source

/-! ## One more line -/

theorem getElem?_concat_eq_some_iff {α : Type} {xs : List α} {x y : α} {m : Nat} :
    (xs ++ [x])[m]? = some y ↔ xs[m]? = some y ∨ (m = xs.length ∧ x = y) := by
  -- Before the new element, at it, or behind it.
  rcases Nat.lt_trichotomy m xs.length with h | rfl | h
  · rw [List.getElem?_append_left h]
    simp [Nat.ne_of_lt h]
  · rw [List.getElem?_concat_length, List.getElem?_eq_none (Nat.le_refl _)]
    simp
  · rw [List.getElem?_eq_none (by simpa using Nat.succ_le_of_lt h),
      List.getElem?_eq_none (Nat.le_of_lt h)]
    simp [Nat.ne_of_gt h]

variable {l : Layout} {lines : List (Option Line)} {code : List (Option Instruction)}
  {x : Option Line} {c : Option Instruction} {t u : SymbolTable}

theorem labelAt_concat {m : Nat} {label : String} :
    LabelAt (lines ++ [x]) m label ↔
      LabelAt lines m label ∨ (m = lines.length ∧ Labels x label) := by
  simp only [LabelAt, getElem?_concat_eq_some_iff]
  constructor
  · rintro ⟨line, h | ⟨rfl, rfl⟩, hl⟩
    · exact .inl ⟨line, h, hl⟩
    · exact .inr ⟨rfl, hl⟩
  · rintro (⟨line, h, hl⟩ | ⟨rfl, hl⟩)
    · exact ⟨line, .inl h, hl⟩
    · exact ⟨x, .inr ⟨rfl, rfl⟩, hl⟩

theorem constantAt_concat {m : Nat} {name : String} {value : Int} :
    ConstantAt (lines ++ [x]) m name value ↔ ConstantAt lines m name value ∨
      (m = lines.length ∧ x = some (.assignment name value)) := by
  simp only [ConstantAt, getElem?_concat_eq_some_iff]

theorem LabelAt.lt {m : Nat} {label : String} (h : LabelAt lines m label) : m < lines.length :=
  let ⟨_, h, _⟩ := h
  (List.getElem?_eq_some_iff.1 h).1

theorem ConstantAt.lt {m : Nat} {name : String} {value : Int}
    (h : ConstantAt lines m name value) : m < lines.length :=
  (List.getElem?_eq_some_iff.1 h).1

theorem address_concat {m : Nat} (h : m ≤ code.length) :
    address (code ++ [c]) m = address code m := by
  rw [address, address, List.take_append_of_le_length h]

theorem dataAddress_concat {m : Nat} (h : m ≤ lines.length) :
    dataAddress l (lines ++ [x]) m = dataAddress l lines m := by
  rw [dataAddress, dataAddress, List.take_append_of_le_length h]

/-- Later lines do not change what an operand denotes. -/
theorem Denotes.concat {n : Nat} {o : Operand} {v : Value} (hlen : code.length = lines.length)
    (hn : n ≤ lines.length) (h : Denotes l lines code n o v) :
    Denotes l (lines ++ [x]) (code ++ [c]) n o v := by
  cases h with
  | number hv => exact .number hv
  | register hr => exact .register hr
  | constant hr hm hc hw => exact .constant hr hm (constantAt_concat.2 (.inl hc)) hw
  | label hr hnone hm hl ha =>
    refine .label hr (fun k hk value hc => ?_) hm (labelAt_concat.2 (.inl hl)) ?_
    · rcases constantAt_concat.1 hc with hc | ⟨rfl, _⟩
      · exact hnone k hk value hc
      · exact absurd hk (Nat.not_lt.2 hn)
    · rw [ha, address_concat (by omega)]
  | addressOf hm hc ha =>
    refine .addressOf hm (constantAt_concat.2 (.inl hc)) ?_
    rw [ha, dataAddress_concat (by omega)]

theorem Assembles.concat {n : Nat} {line : Option Line} {d : Option Instruction}
    (hlen : code.length = lines.length) (hn : n ≤ lines.length)
    (h : Assembles l lines code n line d) :
    Assembles l (lines ++ [x]) (code ++ [c]) n line d := by
  cases h with
  | blank => exact .blank
  | directive => exact .directive
  | assignment => exact .assignment
  | statement hv hi => exact .statement (hv.imp fun _ _ h => h.concat hlen hn) hi

theorem assigned_concat : assigned (lines ++ [x]) = assigned lines ++ assigned [x] :=
  List.filterMap_append

/-- One more line, with its instruction if it is a statement and with its name
    new in the table if it defines one. -/
theorem Defines.concat (h : Defines l lines code t)
    (hc : Assembles l lines code lines.length x c)
    (hlabel : ∀ label, Labels x label → t.labels.get? label = none ∧
      ∃ a, u.labels.get? label = some a ∧ a.toNat = address code lines.length)
    (hlabel' : ∀ label, ¬Labels x label → u.labels.get? label = t.labels.get? label)
    (hconstant : ∀ name value, x = some (.assignment name value) →
      t.constants.get? name = none ∧ ∃ d, u.constants.get? name = some d ∧
        d.address.toNat = dataAddress l lines lines.length ∧ Word.ofNumber value = .ok d.value)
    (hconstant' : ∀ name, (∀ value, x ≠ some (.assignment name value)) →
      u.constants.get? name = t.constants.get? name) :
    Defines l (lines ++ [x]) (code ++ [c]) u := by
  have hlen := h.length_code
  -- A name that the new line defines is on no earlier line.
  have hnew {m label} (hm : LabelAt lines m label) : ¬Labels x label := fun hx => by
    obtain ⟨a, ha, _⟩ := h.label hm
    exact nomatch (hlabel label hx).1.symm.trans ha
  have hnew' {m name v} (hm : ConstantAt lines m name v) (w) : x ≠ some (.assignment name w) :=
    fun hx => by
      obtain ⟨d, hd, _⟩ := h.constant hm
      exact nomatch (hconstant name w hx).1.symm.trans hd
  constructor
  case length_code => simp [hlen]
  case assembles =>
    -- The lengths of the lists are the same, so both are at an earlier line or
    -- both at the new one.
    intro n line d hline hd
    rcases getElem?_concat_eq_some_iff.1 hline with hline | ⟨rfl, rfl⟩
    · have hn : n < lines.length := (List.getElem?_eq_some_iff.1 hline).1
      rw [List.getElem?_append_left (hlen ▸ hn)] at hd
      exact (h.assembles hline hd).concat hlen (Nat.le_of_lt hn)
    · rw [← hlen, List.getElem?_concat_length] at hd
      exact Option.some.inj hd ▸ hc.concat hlen (Nat.le_refl _)
  case label =>
    intro m label hm
    rcases labelAt_concat.1 hm with hm | ⟨rfl, hx⟩
    · rw [hlabel' label (hnew hm), address_concat (by have := hm.lt; omega)]
      exact h.label hm
    · rw [address_concat (Nat.le_of_eq hlen.symm)]
      exact (hlabel label hx).2
  case label_of =>
    intro label a ha
    by_cases hx : Labels x label
    · exact ⟨lines.length, labelAt_concat.2 (.inr ⟨rfl, hx⟩)⟩
    · rw [hlabel' label hx] at ha
      obtain ⟨m, hm⟩ := h.label_of ha
      exact ⟨m, labelAt_concat.2 (.inl hm)⟩
  case label_once =>
    intro label m k hm hk
    rcases labelAt_concat.1 hm with hm | ⟨rfl, hx⟩ <;>
      rcases labelAt_concat.1 hk with hk | ⟨rfl, hy⟩
    · exact h.label_once hm hk
    · exact absurd hy (hnew hm)
    · exact absurd hx (hnew hk)
    · rfl
  case constant =>
    intro m name value hm
    rcases constantAt_concat.1 hm with hm | ⟨rfl, hx⟩
    · rw [hconstant' name (hnew' hm), dataAddress_concat (Nat.le_of_lt hm.lt)]
      exact h.constant hm
    · rw [dataAddress_concat (Nat.le_refl _)]
      exact (hconstant name value hx).2
  case constant_of =>
    intro name d hd
    by_cases hx : ∃ value, x = some (.assignment name value)
    · obtain ⟨value, hx⟩ := hx
      exact ⟨lines.length, value, constantAt_concat.2 (.inr ⟨rfl, hx⟩)⟩
    · rw [hconstant' name (not_exists.1 hx)] at hd
      obtain ⟨m, value, hm⟩ := h.constant_of hd
      exact ⟨m, value, constantAt_concat.2 (.inl hm)⟩
  case constant_once =>
    intro name m k v w hm hk
    rcases constantAt_concat.1 hm with hm | ⟨rfl, hx⟩ <;>
      rcases constantAt_concat.1 hk with hk | ⟨rfl, hy⟩
    · exact h.constant_once hm hk
    · exact absurd hy (hnew' hm w)
    · exact absurd hx (hnew' hk v)
    · rfl

/-! ## The lines so far -/

variable {a b : Assembler}

/-- Between two lines, the assembler knows what the lines so far describe. -/
structure Reads (lines : List (Option Line)) (code : List (Option Instruction)) (a : Assembler) :
    Prop extends Defines a.layout lines code a.symbols, a.Bounded where
  code_eq : a.code.toList = code.filterMap id
  data_eq : a.data.toList = (assigned lines).map Word.ofInt

theorem reads_initial (l : Layout) : Reads [] [] (.initial l) where
  length_code := rfl
  assembles h := nomatch h
  label h := nomatch h.lt
  label_of h := nomatch h
  label_once h := nomatch h.lt
  constant h := nomatch h.lt
  constant_of h := nomatch h
  constant_once h := nomatch h.lt
  toBounded := Assembler.bounded_initial l
  code_eq := rfl
  data_eq := rfl

/-- The program pointer is the address of the next line. -/
theorem Reads.toNat_programPointer (h : Reads lines code a) :
    a.programPointer.toNat = address code lines.length := by
  rw [h.toBounded.toNat_programPointer, a.codeSize_eq_totalLength, h.code_eq, address,
    List.take_of_length_le (Nat.le_of_eq h.length_code)]

/-- The data pointer is the address of the next word of data. -/
theorem Reads.toNat_dataPointer (h : Reads lines code a) :
    a.dataPointer.toNat = dataAddress a.layout lines lines.length := by
  rw [h.toBounded.toNat_dataPointer, Assembler.dataSize, ← Array.length_toList, h.data_eq,
    List.length_map, dataAddress, List.take_length, Nat.mul_comm]

/-- The table resolves an operand to what it denotes on the next line. -/
theorem Reads.denotes (h : Reads lines code a) {o : Operand} {v : Value}
    (hv : a.symbols.resolve o = .ok v) : Denotes a.layout lines code lines.length o v := by
  cases o with
  | number n =>
    obtain ⟨w, hw, rfl⟩ := Except.map_eq_ok_iff.1 hv
    exact .number hw
  | symbol name =>
    -- First among the registers, then the constants, then the labels.
    simp only [SymbolTable.resolve, SymbolTable.resolveName] at hv
    split at hv
    · next r hr =>
      obtain rfl := Except.ok.inj hv
      exact .register hr
    next hr =>
    split at hv
    · next c hc =>
      obtain rfl := Except.ok.inj hv
      obtain ⟨m, value, hm, _, hw⟩ := h.constants_iff.1 hc
      exact .constant hr hm.lt hm hw
    next hc =>
    split at hv
    · next a ha =>
      obtain rfl := Except.ok.inj hv
      obtain ⟨m, hm, haddr⟩ := h.labels_iff.1 ha
      refine .label hr (fun k _ value hk => ?_) hm.lt hm haddr
      obtain ⟨c, hc', _⟩ := h.constant hk
      exact nomatch hc.symm.trans hc'
    · exact nomatch hv
  | addressOf name =>
    simp only [SymbolTable.resolve] at hv
    split at hv
    · next c hc =>
      obtain rfl := Except.ok.inj hv
      obtain ⟨m, value, hm, haddr, _⟩ := h.constants_iff.1 hc
      exact .addressOf hm.lt hm haddr
    · exact nomatch hv

/-- A line that defines nothing leaves the table as it is. -/
theorem Reads.concat_of_same (h : Reads lines code a)
    (hc : Assembles a.layout lines code lines.length x c) (hlabel : ∀ label, ¬Labels x label)
    (hconstant : ∀ name value, x ≠ some (.assignment name value)) :
    Defines a.layout (lines ++ [x]) (code ++ [c]) a.symbols :=
  h.toDefines.concat hc (fun label hx => absurd hx (hlabel label)) (fun _ _ => rfl)
    (fun name value hx => absurd hx (hconstant name value)) (fun _ _ => rfl)

/-- A line that is no statement leaves the code as it is. -/
theorem Reads.code_concat (h : Reads lines code a) :
    a.code.toList = (code ++ [none]).filterMap id := by
  rw [List.filterMap_append, h.code_eq]
  exact (List.append_nil _).symm

/-- A line that assigns nothing leaves the data as it is. -/
theorem Reads.data_concat (h : Reads lines code a) (hx : assigned [x] = []) :
    a.data.toList = (assigned (lines ++ [x])).map Word.ofInt := by
  rw [assigned_concat, hx, List.append_nil, h.data_eq]

/-- A blank line changes nothing. -/
theorem Reads.blank (h : Reads lines code a) : Reads (lines ++ [none]) (code ++ [none]) a where
  toDefines := h.concat_of_same .blank (fun _ ⟨_, hx, _⟩ => nomatch hx) (fun _ _ hx => nomatch hx)
  toBounded := h.toBounded
  code_eq := h.code_concat
  data_eq := h.data_concat rfl

/-- What an accepted line adds to the assembler is what it adds to the
    description. -/
theorem Reads.step {line : Line} (h : Reads lines code a) (hs : a.Step line b) :
    ∃ c, Reads (lines ++ [some line]) (code ++ [c]) b := by
  have hb := hs.bounded h.toBounded
  cases hs with
  | data hn =>
    -- The directive of a data section binds no label.
    refine ⟨none, h.concat_of_same .directive ?_ (fun _ _ hx => nomatch hx), hb, ?_, ?_⟩
    · rintro label ⟨name, hx, hl⟩
      cases hx
      exact nomatch hn.symm.trans hl
    · exact h.code_concat
    · exact h.data_concat rfl
  | @label name label hl hr hf =>
    -- The label stands for the program pointer.
    have hx : Labels (some (.directive name)) label := ⟨name, rfl, hl⟩
    have honly : ∀ other, Labels (some (.directive name)) other → other = label := by
      rintro other ⟨_, ⟨⟩, ho⟩
      exact Option.some.inj (ho.symm.trans hl)
    refine ⟨none, h.toDefines.concat .directive ?_ ?_ (fun _ _ hx => nomatch hx) (fun _ _ => rfl),
      hb, ?_, ?_⟩
    · intro other ho
      obtain rfl := honly other ho
      exact ⟨hf, a.programPointer, NameTable.get?_insert_self .., h.toNat_programPointer⟩
    · intro other ho
      have hne : other ≠ label := fun heq => ho (heq ▸ hx)
      exact NameTable.get?_insert_of_ne hne _
    · exact h.code_concat
    · exact h.data_concat rfl
  | @constant name value hc hv hs hr hf =>
    -- The constant is at the data pointer.
    refine ⟨none, h.toDefines.concat .assignment (fun _ ⟨_, hx, _⟩ => nomatch hx) (fun _ _ => rfl)
      ?_ ?_, hb, ?_, ?_⟩
    · intro name value hx
      cases hx
      exact ⟨hf, ⟨a.dataPointer, Word.ofInt value⟩, NameTable.get?_insert_self ..,
        h.toNat_dataPointer, Word.ofNumber_eq_ok_iff.2 ⟨hv, rfl⟩⟩
    · intro other ho
      have hne : other ≠ name := fun heq => ho value (by rw [heq])
      exact NameTable.get?_insert_of_ne hne _
    · exact h.code_concat
    · rw [Array.toList_push, h.data_eq, assigned_concat, List.map_append]
      rfl
  | @statement _ _ values i hc hv hi hs =>
    refine ⟨some i, h.concat_of_same (.statement (hv.imp fun _ _ => h.denotes) hi)
      (fun _ ⟨_, hx, _⟩ => nomatch hx) (fun _ _ hx => nomatch hx), hb, ?_, ?_⟩
    · rw [Array.toList_push, h.code_eq, List.filterMap_append]
      rfl
    · exact h.data_concat rfl

/-- The assembler has read the lines it has taken in. -/
theorem reads_of_feeds {l : Layout} (h : (Assembler.initial l).Feeds lines a) :
    ∃ code, Reads lines code a := by
  refine h.invariant (P := fun lines a => ∃ code, Reads lines code a) ⟨[], reads_initial l⟩ ?_ ?_
  · rintro _ _ ⟨code, h⟩
    exact ⟨_, h.blank⟩
  · rintro _ _ _ _ ⟨code, h⟩ hs
    obtain ⟨c, hc⟩ := h.step hs
    exact ⟨_, hc⟩

/-- A finished program is the one that the lines taken in describe. -/
theorem Reads.finish {p : Program} (h : Reads lines code a) (hp : a.finish = .ok p) :
    Describes a.layout lines code p := by
  obtain ⟨entry, hentry, rfl⟩ := Assembler.finish_eq_ok_iff.1 hp
  refine ⟨h.toDefines, hentry, ?_, ?_⟩
  · rw [Assembler.program, h.code_eq]
  · rw [Assembler.program, h.data_eq]

/-- The program that the assembler makes of a text is the one that the lines of
    the text describe, and there is no other one that they do. -/
theorem assemble_describes {source : String} {p : Program} (h : assemble l source = .ok p) :
    ∃ lines code, Assembler.Parses (textLines source) lines ∧ Describes l lines code p ∧
      ∀ code' p', Describes l lines code' p' → p' = p := by
  obtain ⟨lines, a, hp, hf, ha⟩ := assemble_eq_ok_iff.1 h
  obtain ⟨code, hr⟩ := reads_of_feeds hf
  have hl : a.layout = l := hf.layout
  have hd : Describes l lines code p := hl ▸ hr.finish ha
  exact ⟨lines, code, hp, hd, fun _ _ hd' => hd'.unique hd⟩

/-- A constant and a label of one name, a label in upper case, and a call of a
    function that stands before the entry point. -/
def sampleText : String :=
  ".data\nf = -1\n.f\nRET\n.START\nMOV EAX f\nSTORE &f EAX\nCALL 8\n"

/-- A memory with room for the sample text and two words on the stack. -/
def sampleLayout : Layout where
  programSize := 40
  dataSize := 4
  stackSize := 8
  aligned := by decide
  nonempty := by decide
  total_lt := by decide

/-- The program of the sample text. -/
def sampleProgram : Program where
  code := [0x33, 0, 0, 0, 12, 0, 0, 0, 0x34, 0, 0, 0, 0x02, 0, 0, 0, 255, 255, 255, 255,
    0x04, 0, 0, 0, 40, 0, 0, 0, 0x33, 0, 0, 0, 8, 0, 0, 0]
  data := [255, 255, 255, 255]
  entryPoint := 12
  labels := ⟨[("f", 8), ("start", 12)], by decide⟩
  constants := ⟨[("f", ⟨40, 0xFFFFFFFF⟩)], by decide⟩

theorem assemble_describes_sample :
    assemble sampleLayout sampleText = .ok sampleProgram ∧
    ∃ lines code, Assembler.Parses (textLines sampleText) lines ∧
      Describes sampleLayout lines code sampleProgram ∧
      ∀ code' p', Describes sampleLayout lines code' p' → p' = sampleProgram :=
  ⟨by decide +kernel, assemble_describes (by decide +kernel)⟩

end Machine32.Source
