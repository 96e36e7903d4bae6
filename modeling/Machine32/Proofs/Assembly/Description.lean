import Machine32.Proofs.Assembly.Feeding

/-!
# What a text describes

A reading of assembly text as a whole, without a state that goes from line to
line. The lines are numbered, and each statement stands for an instruction
(`code`, with `none` for the other lines):

* a label stands for the address behind the instructions of earlier lines, a
  constant for a word behind the words of earlier lines;
* an operand on line `n` denotes what a line before `n` has bound (`Denotes`);
* `Describes` says which program this makes.

The lines leave no choice (`Describes.unique`), and the program the assembler
makes is the one its text describes (`Reads.step`, line by line).
-/

namespace Machine32.Source

/-- A line binds a label. -/
def Labels (line : Option Line) (label : String) : Prop :=
  ∃ name, line = some (.directive name) ∧ labelOf? name = some label

/-- The directive on line `m` binds a label. -/
def LabelAt (lines : List (Option Line)) (m : Nat) (label : String) : Prop :=
  ∃ line, lines[m]? = some line ∧ Labels line label

/-- Line `m` assigns a number to a name. -/
def ConstantAt (lines : List (Option Line)) (m : Nat) (name : String) (value : Int) : Prop :=
  lines[m]? = some (some (.assignment name value))

/-- The numbers that lines assign, in their order. -/
def assigned (lines : List (Option Line)) : List Int :=
  lines.filterMap fun
    | some (.assignment _ value) => some value
    | _ => none

/-- The address behind the instructions of the lines before `m`. -/
def address (code : List (Option Instruction)) (m : Nat) : Nat :=
  entryLength + Instruction.totalLength ((code.take m).filterMap id)

/-- The address behind the words of the lines before `m`. -/
def dataAddress (l : Layout) (lines : List (Option Line)) (m : Nat) : Nat :=
  l.programSize.toNat + Word.size * (assigned (lines.take m)).length

variable (l : Layout) (lines : List (Option Line)) (code : List (Option Instruction))

/-- What an operand on line `n` denotes: a name is a register, else a constant
    of an earlier line, else a label of an earlier line. -/
inductive Denotes (n : Nat) : Operand → Value → Prop
  | number {value : Int} {w : Word} : Word.ofNumber value = .ok w →
      Denotes n (.number value) (.word w)
  | register {name : String} {r : Register} : Register.ofName? name = some r →
      Denotes n (.symbol name) (.register r)
  | constant {name : String} {m : Nat} {value : Int} {w : Word} :
      Register.ofName? name = none → m < n → ConstantAt lines m name value →
      Word.ofNumber value = .ok w → Denotes n (.symbol name) (.word w)
  | label {name : String} {m : Nat} {a : Address} : Register.ofName? name = none →
      (∀ k < n, ∀ value, ¬ConstantAt lines k name value) → m < n → LabelAt lines m name →
      a.toNat = address code m → Denotes n (.symbol name) (.word a)
  | addressOf {name : String} {m : Nat} {value : Int} {a : Address} : m < n →
      ConstantAt lines m name value → a.toNat = dataAddress l lines m →
      Denotes n (.addressOf name) (.word a)

/-- What line `n` adds to the code: a statement its instruction, and any other
    line nothing. -/
inductive Assembles (n : Nat) : Option Line → Option Instruction → Prop
  | blank : Assembles n none none
  | directive {name : String} : Assembles n (some (.directive name)) none
  | assignment {name : String} {value : Int} : Assembles n (some (.assignment name value)) none
  | statement {mnemonic : String} {operands : List Operand} {values : List Value}
      {i : Instruction} : List.Forall₂ (Denotes l lines code n) operands values →
      Instruction.ofStatement mnemonic values = .ok i →
      Assembles n (some (.statement mnemonic operands)) (some i)

/-- The names that the lines define, each on one line, are those of a table. -/
structure Defines (t : SymbolTable) : Prop where
  length_code : code.length = lines.length
  assembles {n : Nat} {line : Option Line} {c : Option Instruction} :
    lines[n]? = some line → code[n]? = some c → Assembles l lines code n line c
  label {m : Nat} {label : String} : LabelAt lines m label →
    ∃ a, t.labels.get? label = some a ∧ a.toNat = address code m
  label_of {label : String} {a : Address} : t.labels.get? label = some a →
    ∃ m, LabelAt lines m label
  label_once {label : String} {m k : Nat} : LabelAt lines m label → LabelAt lines k label → m = k
  constant {m : Nat} {name : String} {value : Int} : ConstantAt lines m name value →
    ∃ c, t.constants.get? name = some c ∧ c.address.toNat = dataAddress l lines m ∧
      Word.ofNumber value = .ok c.value
  constant_of {name : String} {c : Constant} : t.constants.get? name = some c →
    ∃ m value, ConstantAt lines m name value
  constant_once {name : String} {m k : Nat} {v w : Int} :
    ConstantAt lines m name v → ConstantAt lines k name w → m = k

/-- The program that the lines describe: behind the call of the label that
    programs are entered at, the instructions of the statements in the order of
    their lines, and the words of data in that order, too. -/
structure Describes (p : Program) : Prop
    extends Defines l lines code ⟨p.labels, p.constants⟩ where
  entry : p.labels.get? Assembler.startLabel = some p.entryPoint
  code_eq : p.code =
    (.jump .call p.entryPoint :: code.filterMap id).flatMap Instruction.encode
  data_eq : p.data = ((assigned lines).map Word.ofInt).flatMap Word.toBytes

/-! ## Uniqueness -/

variable {l lines code} {code' : List (Option Instruction)}

theorem Defines.labels_iff {t : SymbolTable} (h : Defines l lines code t) {label : String}
    {a : Address} : t.labels.get? label = some a ↔
      ∃ m, LabelAt lines m label ∧ a.toNat = address code m := by
  constructor
  · intro ha
    obtain ⟨m, hm⟩ := h.label_of ha
    obtain ⟨b, hb, haddr⟩ := h.label hm
    obtain rfl := Option.some.inj (ha.symm.trans hb)
    exact ⟨m, hm, haddr⟩
  · rintro ⟨m, hm, haddr⟩
    obtain ⟨b, hb, haddr'⟩ := h.label hm
    rw [hb, UInt32.toNat_inj.1 (haddr.trans haddr'.symm)]

theorem Defines.constants_iff {t : SymbolTable} (h : Defines l lines code t) {name : String}
    {c : Constant} : t.constants.get? name = some c ↔
      ∃ m value, ConstantAt lines m name value ∧ c.address.toNat = dataAddress l lines m ∧
        Word.ofNumber value = .ok c.value := by
  constructor
  · intro hc
    obtain ⟨m, value, hm⟩ := h.constant_of hc
    obtain ⟨d, hd, hplace⟩ := h.constant hm
    obtain rfl := Option.some.inj (hc.symm.trans hd)
    exact ⟨m, value, hm, hplace⟩
  · rintro ⟨m, value, hm, haddr, hvalue⟩
    obtain ⟨a, w⟩ := c
    obtain ⟨⟨b, v⟩, hd, haddr', hvalue'⟩ := h.constant hm
    obtain rfl : a = b := UInt32.toNat_inj.1 (haddr.trans haddr'.symm)
    obtain rfl : w = v := Except.ok.inj (hvalue.symm.trans hvalue')
    exact hd

/-- An operand denotes one value, if the instructions before its line are given
    and the lines define each name once. -/
theorem Denotes.unique {n : Nat} {o : Operand} {v v' : Value} {t : SymbolTable}
    (hd : Defines l lines code t) (hcode : ∀ m < n, address code m = address code' m)
    (h : Denotes l lines code n o v) (h' : Denotes l lines code' n o v') : v = v' := by
  -- A name is denoted in one way only: each rule excludes those before it.
  cases h with
  | number hw =>
    cases h' with
    | number hw' => rw [Except.ok.inj (hw.symm.trans hw')]
  | register hr =>
    cases h' with
    | register hr' => rw [Option.some.inj (hr.symm.trans hr')]
    | constant hr' | label hr' => exact nomatch hr.symm.trans hr'
  | constant hr hm hc hw =>
    cases h' with
    | register hr' => exact nomatch hr.symm.trans hr'
    | constant _ _ hc' hw' =>
      obtain rfl := hd.constant_once hc hc'
      have h := hc.symm.trans hc'
      simp only [Option.some.injEq, Line.assignment.injEq, true_and] at h
      subst h
      rw [Except.ok.inj (hw.symm.trans hw')]
    | label _ hnone => exact absurd hc (hnone _ hm _)
  | label hr hnone hm hl ha =>
    cases h' with
    | register hr' => exact nomatch hr.symm.trans hr'
    | constant _ hm' hc' _ => exact absurd hc' (hnone _ hm' _)
    | label _ _ _ hl' ha' =>
      obtain rfl := hd.label_once hl hl'
      rw [UInt32.toNat_inj.1 (ha.trans ((hcode _ hm).trans ha'.symm))]
  | addressOf _ hc ha =>
    cases h' with
    | addressOf _ hc' ha' =>
      obtain rfl := hd.constant_once hc hc'
      rw [UInt32.toNat_inj.1 (ha.trans ha'.symm)]

theorem Denotes.forall₂_unique {n : Nat} {os : List Operand} {vs vs' : List Value}
    {t : SymbolTable} (hd : Defines l lines code t)
    (hcode : ∀ m < n, address code m = address code' m)
    (h : List.Forall₂ (Denotes l lines code n) os vs)
    (h' : List.Forall₂ (Denotes l lines code' n) os vs') : vs = vs' := by
  induction h generalizing vs' with
  | nil => cases h'; rfl
  | cons ho _ ih =>
    obtain _ | ⟨ho', hos'⟩ := h'
    rw [Denotes.unique hd hcode ho ho', ih hos']

/-- A line stands for one instruction at most, given the addresses of the lines before it. -/
theorem Assembles.unique {n : Nat} {line : Option Line} {c c' : Option Instruction}
    {t : SymbolTable} (hd : Defines l lines code t)
    (hcode : ∀ m < n, address code m = address code' m)
    (h : Assembles l lines code n line c) (h' : Assembles l lines code' n line c') : c = c' := by
  cases h with
  | blank | directive | assignment => cases h'; rfl
  | statement hv hi =>
    cases h' with
    | statement hv' hi' =>
      rw [Denotes.forall₂_unique hd hcode hv hv'] at hi
      exact congrArg _ (Except.ok.inj (hi.symm.trans hi'))

/-- The lines determine the instructions of their statements. -/
theorem Defines.code_unique {t t' : SymbolTable} (h : Defines l lines code t)
    (h' : Defines l lines code' t') : code = code' := by
  have hlen := h.length_code
  have hlen' := h'.length_code
  -- Line by line: an instruction depends on the lengths of those before it.
  have htake : ∀ n, code.take n = code'.take n := by
    intro n
    induction n with
    | zero => rfl
    | succ n ih =>
      by_cases hn : n < lines.length
      · have hc : n < code.length := hlen ▸ hn
        have hc' : n < code'.length := hlen' ▸ hn
        have haddress : ∀ m < n, address code m = address code' m := by
          intro m hm
          have h := congrArg (List.take m) ih
          rw [List.take_take, List.take_take, Nat.min_eq_left (Nat.le_of_lt hm)] at h
          rw [address, address, h]
        have heq : code[n] = code'[n] := Assembles.unique h haddress
          (h.assembles (List.getElem?_eq_getElem hn) (List.getElem?_eq_getElem hc))
          (h'.assembles (List.getElem?_eq_getElem hn) (List.getElem?_eq_getElem hc'))
        rw [List.take_succ_eq_append_getElem hc, List.take_succ_eq_append_getElem hc', ih, heq]
      · rw [List.take_of_length_le (by omega), List.take_of_length_le (by omega)] at ih ⊢
        exact ih
  calc code = code.take lines.length := (List.take_of_length_le (Nat.le_of_eq hlen)).symm
    _ = code'.take lines.length := htake _
    _ = code' := List.take_of_length_le (Nat.le_of_eq hlen')

/-- The lines determine the names they define. -/
theorem Defines.table_unique {t t' : SymbolTable} (h : Defines l lines code t)
    (h' : Defines l lines code t') : t = t' := by
  have hlabels : t.labels = t'.labels := NameTable.ext_get? fun label =>
    Option.ext fun a => h.labels_iff.trans h'.labels_iff.symm
  have hconstants : t.constants = t'.constants := NameTable.ext_get? fun name =>
    Option.ext fun c => h.constants_iff.trans h'.constants_iff.symm
  cases t
  cases t'
  rw [SymbolTable.mk.injEq]
  exact ⟨hlabels, hconstants⟩

/-- The lines determine the program they describe. -/
theorem Describes.unique {p p' : Program} (h : Describes l lines code p)
    (h' : Describes l lines code' p') : p = p' := by
  obtain rfl := h.toDefines.code_unique h'.toDefines
  have ht := h.toDefines.table_unique h'.toDefines
  obtain ⟨hl, hc⟩ := SymbolTable.mk.inj ht
  have hentry : p.entryPoint = p'.entryPoint :=
    Option.some.inj (h.entry.symm.trans (hl ▸ h'.entry))
  have hcode : p.code = p'.code := by rw [h.code_eq, h'.code_eq, hentry]
  have hdata : p.data = p'.data := by rw [h.data_eq, h'.data_eq]
  cases p
  cases p'
  rw [Program.mk.injEq]
  exact ⟨hcode, hdata, hentry, hl, hc⟩

end Machine32.Source
