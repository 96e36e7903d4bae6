import Machine32.Proofs.NameTables
import Machine32.Proofs.Assembly.Feeding

/-!
# Room in the segments

The assembler counts the bytes of the image as it goes along, and takes in no
line for which there is no room:

* `codeBuffer` and `dataBuffer` are the bytes so far, those of the entry call
  left open, as it goes in at the end (`code_program`);
* `Fits` is what holds of the number of these bytes;
* `fits_feedAll`: it does whatever lines the assembler is given, of which it may
  refuse some;
* `feed_eq_error_iff_of_capacity`: a line is refused for want of room if its
  instruction or its word does not go in behind the bytes so far, and it is a
  line that would be accepted otherwise as far as that is known by then.
-/

namespace Machine32

/-- The fault is that a segment is full. -/
@[simp] def Fault.OfCapacity : Fault → Prop
  | programFull .. | dataFull _ => True
  | _ => False

/-- A computation that does not fail because a segment is full. -/
def Roomy {α : Type} (x : Except Fault α) : Prop :=
  ∀ f, x = .error f → ¬f.OfCapacity

namespace Roomy

variable {α β : Type}

@[simp] theorem ok (a : α) : Roomy (.ok a : Except Fault α) := nofun

@[simp] theorem pure (a : α) : Roomy (pure a : Except Fault α) := nofun

@[simp] theorem error_iff {f : Fault} : Roomy (.error f : Except Fault α) ↔ ¬f.OfCapacity := by
  simp [Roomy]

/-- Two steps of which neither asks for room do not do so together. -/
theorem bind {x : Except Fault α} {g : α → Except Fault β} (hx : Roomy x)
    (hg : ∀ a, Roomy (g a)) : Roomy (x >>= g) := by
  intro f h
  rcases Except.bind_eq_error_iff.1 h with h | ⟨a, -, h⟩
  · exact hx f h
  · exact hg a f h

theorem map {x : Except Fault α} {g : α → β} (hx : Roomy x) : Roomy (g <$> x) :=
  fun f h => hx f (Except.map_eq_error_iff.1 h)

/-- A step for each element of a list does not ask for room if none does. -/
theorem mapM {g : α → Except Fault β} (hg : ∀ a, Roomy (g a)) (as : List α) :
    Roomy (as.mapM g) := by
  intro f h
  obtain ⟨_, a, _, _, _, h⟩ := Except.mapM_eq_error_iff.1 h
  exact hg a f h

end Roomy

/-! ## What does not ask for room -/

/-- Reading the operands of a line takes no room in a segment, whatever tokens they have. -/
theorem Operand.roomy_ofTokens (ts : List Token) : Roomy (ofTokens ts) := by
  induction ts using ofTokens.induct <;> simp_all [ofTokens, Roomy.map]

theorem Line.roomy_assignmentOfTokens (name : String) (ts : List Token) :
    Roomy (assignmentOfTokens name ts) := by
  unfold assignmentOfTokens
  split <;> simp

/-- Neither does putting the tokens of a line together. -/
theorem Line.roomy_ofTokens (ts : List Token) : Roomy (ofTokens ts) := by
  unfold ofTokens
  split
  · simp
  · simp
  · simp
  · split
    · exact (roomy_assignmentOfTokens _ _).map
    · exact (Operand.roomy_ofTokens _).map
  · simp

theorem Line.roomy_tokens (xs : List Lexeme) : Roomy (tokens xs) := by
  induction xs with
  | nil => simp [tokens]
  | cons x xs ih =>
    rw [tokens]
    split
    · simp
    · exact ih.map

/-- A text that does not read as a line is refused for another reason than room. -/
theorem Line.roomy_parse (text : String) : Roomy (parse text) :=
  (roomy_tokens _).bind fun _ => roomy_ofTokens _

theorem Word.roomy_ofNumber (n : Int) : Roomy (ofNumber n) := by
  rw [ofNumber]
  split <;> simp

namespace SymbolTable

variable (t : SymbolTable)

/-- A name that cannot be bound is not a matter of room. -/
theorem roomy_checkName (name : String) : Roomy (checkName name) := by
  rw [checkName]
  split <;> simp

/-- The table of labels is never full. -/
theorem roomy_defineLabel (name : String) (a : Address) : Roomy (t.defineLabel name a) := by
  refine (roomy_checkName name).bind fun _ => ?_
  split <;> simp

/-- The table of constants is never full. The room for its words is looked at before. -/
theorem roomy_defineConstant (name : String) (c : Constant) : Roomy (t.defineConstant name c) := by
  refine (roomy_checkName name).bind fun _ => ?_
  split <;> simp

/-- An operand that denotes nothing is not a matter of room. -/
theorem roomy_resolve (o : Operand) : Roomy (t.resolve o) := by
  cases o with
  | number n => exact (Word.roomy_ofNumber n).map
  | symbol name =>
    rw [resolve, resolveName]
    split
    · simp
    split
    · simp
    split <;> simp
  | addressOf name =>
    rw [resolve]
    split <;> simp

end SymbolTable

/-- Whether a statement makes up an instruction is not a matter of room. -/
theorem Instruction.roomy_ofStatement (mnemonic : String) (values : List Value) :
    Roomy (ofStatement mnemonic values) := by
  rw [ofStatement]
  split
  · simp
  · split <;> simp

namespace Assembler

variable {a b : Assembler} {l : Layout} {f : Fault}

/-- A directive takes no room: it only binds a label. -/
theorem roomy_openSection (a : Assembler) (name : String) : Roomy (a.openSection name) := by
  have hcode (label : String) : Roomy (a.openCode label) :=
    (a.symbols.roomy_defineLabel label a.programPointer).map
  rw [openSection]
  split
  · simp
  split
  · exact hcode _
  · exact hcode _

/-! ## The bytes so far -/

/-- The bytes of the code so far, with room for the entry call at the front. -/
def codeBuffer (a : Assembler) : Array UInt8 :=
  a.code.foldl Instruction.encodeInto (Array.replicate entryLength 0)

/-- The bytes of the data so far. -/
def dataBuffer (a : Assembler) : Array UInt8 :=
  a.data.foldl (fun out w => out ++ (Word.toBytes w).toArray) #[]

/-- What each step of a fold puts behind a buffer is there in the end, one behind
    the other. -/
theorem toList_foldl_of_append {α β : Type} {put : Array β → α → Array β} {g : α → List β}
    (h : ∀ out x, (put out x).toList = out.toList ++ g x) (xs : List α) (out : Array β) :
    (xs.foldl put out).toList = out.toList ++ xs.flatMap g := by
  induction xs generalizing out with
  | nil => exact (List.append_nil _).symm
  | cons x xs ih => rw [List.foldl_cons, ih, h, List.flatMap_cons, List.append_assoc]

/-- The bytes of the code are those of its instructions, behind the room for the entry call. -/
theorem toList_codeBuffer (a : Assembler) :
    a.codeBuffer.toList =
      List.replicate entryLength 0 ++ a.code.toList.flatMap Instruction.encode := by
  rw [codeBuffer, ← Array.foldl_toList, toList_foldl_of_append Instruction.toList_encodeInto,
    Array.toList_replicate]

/-- The bytes of the data are those of its words. -/
theorem toList_dataBuffer (a : Assembler) :
    a.dataBuffer.toList = a.data.toList.flatMap Word.toBytes := by
  have happend (out : Array UInt8) (w : Word) :
      (out ++ (Word.toBytes w).toArray).toList = out.toList ++ Word.toBytes w :=
    Array.toList_append
  rw [dataBuffer, ← Array.foldl_toList, toList_foldl_of_append happend, List.nil_append]

/-- There are as many bytes of code as are counted. -/
@[simp] theorem size_codeBuffer (a : Assembler) : a.codeBuffer.size = a.codeSize := by
  rw [← Array.length_toList, toList_codeBuffer, List.length_append, List.length_replicate,
    Instruction.length_flatMap_encode, codeSize_eq_totalLength]

@[simp] theorem size_dataBuffer (a : Assembler) : a.dataBuffer.size = a.dataSize := by
  rw [← Array.length_toList, toList_dataBuffer]
  exact a.length_data_program 0

/-- The entry call goes where it was left room for. -/
theorem code_program (a : Assembler) (entry : Address) :
    (a.program entry).code =
      (Instruction.jump .call entry).encode ++ a.codeBuffer.toList.drop entryLength := by
  rw [toList_codeBuffer, List.drop_left' List.length_replicate]
  rfl

/-! ## What fits -/

/-- What the bytes so far have to do with the segments of a layout and with the
    constants. -/
structure Fits (l : Layout) (a : Assembler) : Prop where
  layout : a.layout = l
  entryLength_le : entryLength ≤ a.codeBuffer.size
  code_le : a.codeBuffer.size ≤ l.programSize.toNat
  data_le : a.dataBuffer.size ≤ l.dataSize.toNat
  code_aligned : a.codeBuffer.size % Word.size = 0
  data_aligned : a.dataBuffer.size % Word.size = 0
  /-- Every constant is a word of data. -/
  data_eq : a.dataBuffer.size = Word.size * a.symbols.constants.entries.length

/-- Instructions are whole words long. -/
theorem totalLength_mod (is : List Instruction) :
    Instruction.totalLength is % Word.size = 0 := by
  induction is with
  | nil => rfl
  | cons i is ih =>
    rw [Word.size] at ih ⊢
    rw [Instruction.totalLength_cons]
    rcases i.length_eq with h | h <;> omega

/-- There is a word of data for each constant. -/
def Counted (a : Assembler) : Prop :=
  a.symbols.constants.entries.length = a.data.size

/-- A line that adds a constant adds a word, and no other line adds either. -/
theorem Step.counted {line : Line} (h : a.Step line b) (ha : a.Counted) : b.Counted := by
  cases h with
  | data | label | statement => exact ha
  | constant _ _ _ _ hnone =>
    rw [Counted, (NameTable.perm_insert hnone).length_eq, List.length_cons, Array.size_push]
    exact congrArg (· + 1) ha

/-- What is counted is the number of the bytes, and so they fit. -/
theorem Bounded.fits (h : a.Bounded) (hcounted : a.Counted) : a.Fits a.layout where
  layout := rfl
  entryLength_le := by
    rw [size_codeBuffer, codeSize_eq_totalLength]
    exact Nat.le_add_right _ _
  code_le := by
    rw [size_codeBuffer]
    exact h.codeSize_le
  data_le := by
    rw [size_dataBuffer]
    exact h.dataSize_le
  code_aligned := by
    have hmod := totalLength_mod a.code.toList
    rw [Word.size] at hmod ⊢
    rw [size_codeBuffer, codeSize_eq_totalLength, entryLength]
    omega
  data_aligned := by
    rw [size_dataBuffer, dataSize, Nat.mul_mod_left]
  data_eq := by
    rw [size_dataBuffer, dataSize, hcounted, Nat.mul_comm]

/-- The assembler after lines with their numbers, of which it may refuse some. -/
def feedAll (a : Assembler) (calls : List (Nat × String)) : Assembler :=
  calls.foldl (fun a call =>
    match a.feedLine call.1 call.2 with
    | .ok b => b
    | .error _ => a) a

/-- What every accepted line preserves holds after all lines. -/
theorem feedAll_invariant {P : Assembler → Prop} (calls : List (Nat × String)) (ha : P a)
    (hstep : ∀ a line b, P a → a.Step line b → P b) : P (a.feedAll calls) := by
  induction calls generalizing a with
  | nil => exact ha
  | cons call calls ih =>
    rw [feedAll, List.foldl_cons]
    refine ih ?_
    split
    · next b hb =>
      rcases feed_cases (Except.mapError_eq_ok_iff.1 hb) with rfl | ⟨line, hs⟩
      · exact ha
      · exact hstep _ _ _ ha hs
    · exact ha

/-- Whatever lines the assembler is given, the bytes so far fit. -/
theorem fits_feedAll (l : Layout) (calls : List (Nat × String)) :
    ((initial l).feedAll calls).Fits l := by
  obtain ⟨hlayout, hbounded, hcounted⟩ := feedAll_invariant
    (P := fun a => a.layout = l ∧ a.Bounded ∧ a.Counted) (a := initial l) calls
    ⟨rfl, bounded_initial l, rfl⟩ fun a line b ha hs =>
      ⟨hs.layout.trans ha.1, hs.bounded ha.2.1, hs.counted ha.2.2⟩
  have hfits := hbounded.fits hcounted
  rwa [hlayout] at hfits

/-! ## What is refused -/

/-- A line is refused for want of room: a statement that makes up an instruction
    which does not go in behind the code so far, or the assignment of a word
    that does not go in behind the data so far. -/
inductive Refuses (a : Assembler) (text : String) : Fault → Prop
  | program {mnemonic : String} {operands : List Operand} {values : List Value}
      {i : Instruction} : Line.parse text = .ok (some (.statement mnemonic operands)) →
      a.current = .code → List.Forall₂ (fun o v => a.symbols.resolve o = .ok v) operands values →
      Instruction.ofStatement mnemonic values = .ok i →
      a.layout.programSize.toNat < a.codeBuffer.size + i.length →
      Refuses a text (.programFull i.length (a.layout.programSize.toNat - a.codeBuffer.size))
  | data {name : String} {value : Int} : Line.parse text = .ok (some (.assignment name value)) →
      a.current = .data → Word.Fits value →
      a.layout.dataSize.toNat < a.dataBuffer.size + Word.size →
      Refuses a text (.dataFull a.layout.dataSize.toNat)

/-- An instruction is refused if it does not go in behind the code so far, and the room that is
    left is told. -/
theorem emit_eq_error_iff {i : Instruction} :
    a.emit i = .error f ↔ a.layout.programSize.toNat < a.codeBuffer.size + i.length ∧
      f = .programFull i.length (a.layout.programSize.toNat - a.codeBuffer.size) := by
  have hi := i.length_pos
  have hiff : a.layout.programSize.toNat - a.codeSize < i.length ↔
      a.layout.programSize.toNat < a.codeSize + i.length := by omega
  simp only [emit, size_codeBuffer, hiff]
  split
  · next h => simp [h, eq_comm]
  · next h => simp [h]

/-- A number that fits a word is refused if there is no room for the word. -/
theorem defineData_eq_error_iff (hf : f.OfCapacity) {name : String} {value : Int} :
    a.defineData name value = .error f ↔ Word.Fits value ∧
      a.layout.dataSize.toNat < a.dataBuffer.size + Word.size ∧
      f = .dataFull a.layout.dataSize.toNat := by
  have hnumber : Word.ofNumber value ≠ .error f := fun h => Word.roomy_ofNumber value f h hf
  have hdefine (w : Word) : a.symbols.defineConstant name ⟨a.dataPointer, w⟩ ≠ .error f :=
    fun h => a.symbols.roomy_defineConstant _ _ f h hf
  simp only [defineData, Except.bind_eq_error_iff, hnumber, false_or, Word.ofNumber_eq_ok_iff,
    and_assoc, exists_and_left, exists_eq_left, size_dataBuffer]
  refine and_congr_right fun _ => ?_
  split
  · next h => simp [h, eq_comm]
  · next h => simp [h, Except.map_eq_error_iff, hdefine]

/-- The lines that are refused for want of room. -/
theorem feed_eq_error_iff_of_capacity (hf : f.OfCapacity) {text : String} :
    a.feed text = .error f ↔ a.Refuses text f := by
  constructor
  · intro h
    rcases Except.bind_eq_error_iff.1 h with h | ⟨line, hline, h⟩
    · exact absurd hf (Line.roomy_parse text f h)
    rcases line with _ | line
    · exact nomatch h
    change a.feedParsed line = .error f at h
    cases line with
    | directive name => exact absurd hf (a.roomy_openSection name f h)
    | assignment name value =>
      cases hc : a.current with
      | outside | code =>
        simp only [feedParsed, hc, Except.error.injEq] at h
        exact absurd hf (h ▸ id)
      | data =>
        rw [feedParsed_assignment hc, defineData_eq_error_iff hf] at h
        obtain ⟨hfits, hfull, rfl⟩ := h
        exact .data hline hc hfits hfull
    | statement mnemonic operands =>
      cases hc : a.current with
      | outside | data =>
        simp only [feedParsed, hc, Except.error.injEq] at h
        exact absurd hf (h ▸ id)
      | code =>
        rw [feedParsed_statement hc] at h
        rcases Except.bind_eq_error_iff.1 h with h | ⟨values, hvalues, h⟩
        · exact absurd hf (Roomy.mapM a.symbols.roomy_resolve _ f h)
        rcases Except.bind_eq_error_iff.1 h with h | ⟨i, hi, h⟩
        · exact absurd hf (Instruction.roomy_ofStatement _ _ f h)
        obtain ⟨hfull, rfl⟩ := emit_eq_error_iff.1 h
        exact .program hline hc (Except.mapM_eq_ok_iff.1 hvalues) hi hfull
  · intro h
    refine Except.bind_eq_error_iff.2 (.inr ?_)
    cases h with
    | program hline hc hvalues hi hfull =>
      refine ⟨_, hline, ?_⟩
      simp only [feedParsed_statement hc, Except.bind_eq_error_iff, emit_eq_error_iff]
      exact .inr ⟨_, Except.mapM_eq_ok_iff.2 hvalues, .inr ⟨_, hi, hfull, rfl⟩⟩
    | data hline hc hfits hfull =>
      refine ⟨_, hline, ?_⟩
      simp only [feedParsed_assignment hc, defineData_eq_error_iff hf]
      exact ⟨hfits, hfull, trivial⟩

/-- So it is with the number of the line told along. -/
theorem feedLine_eq_error_iff_of_capacity (hf : f.OfCapacity) {number : Nat} {text : String} :
    a.feedLine number text = .error (.atLine number f) ↔ a.Refuses text f := by
  rw [feedLine, Except.mapError_eq_error_iff, ← feed_eq_error_iff_of_capacity hf]
  constructor
  · rintro ⟨f', hf', ⟨⟩⟩
    exact hf'
  · exact fun h => ⟨f, h, rfl⟩

end Assembler

end Machine32
