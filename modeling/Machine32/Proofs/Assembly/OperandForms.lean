import Machine32.Proofs.Assembly.Emission
import Machine32.Proofs.Assembly.Rendering

/-!
# The forms of statements

Which operands each mnemonic takes, and what instruction they make up:

* `Statement.forms` is the table of the mnemonics with the kinds of their operands;
* `Statement.expand` writes an arithmetic statement with two operands out in full;
* `Instruction.ofStatement_forms`: a statement is accepted if it has one of these
  forms, and then it is the instruction with this mnemonic and, written out in
  full, these operands.
-/

namespace Machine32

/-- What a value is, apart from which one. -/
inductive Value.Kind where
  | register
  | word
  deriving DecidableEq

/-- The kind of a value. -/
def Value.kind : Value → Kind
  | register _ => .register
  | word _ => .word

theorem Value.kind_eq_register_iff {v : Value} : v.kind = .register ↔ ∃ r, v = .register r := by
  cases v <;> simp [kind]

theorem Value.kind_eq_word_iff {v : Value} : v.kind = .word ↔ ∃ w, v = .word w := by
  cases v <;> simp [kind]

namespace Statement

open Value.Kind in
/-- The mnemonics that take the same operands, with the kinds of these. -/
def forms : List (List String × List (List Value.Kind)) :=
  [(["MOV"], [[register, register], [register, word]]),
   (["LOAD"], [[register, word]]),
   (["STORE"], [[word, register]]),
   (["ADD", "SUB", "MUL", "DIV", "AND", "OR", "XOR"],
     [[register, register], [register, register, register]]),
   (["NOT", "PUSH", "POP"], [[register]]),
   (["JMP", "JZ", "JNZ", "CALL"], [[word]]),
   (["RET"], [[]])]

/-- The mnemonic is in the table, in any letter case. -/
def Known (mnemonic : String) : Prop :=
  ∃ row ∈ forms, Ascii.upper mnemonic ∈ row.1

/-- The mnemonic takes operands of the kinds that the given ones have. -/
def Takes (mnemonic : String) (values : List Value) : Prop :=
  ∃ row ∈ forms, Ascii.upper mnemonic ∈ row.1 ∧ values.map Value.kind ∈ row.2

/-- The operands of a statement in full: with two operands, the destination of
    an arithmetic statement is also its first source. -/
def expand (mnemonic : String) (values : List Value) : List Value :=
  match values with
  | [dst, src] =>
    if Ascii.upper mnemonic ∈ ["ADD", "SUB", "MUL", "DIV", "AND", "OR", "XOR"] then [dst, dst, src]
    else values
  | _ => values

end Statement

/-! ## Mnemonics -/

namespace Opcode

theorem upper_mnemonic (op : Opcode) : Ascii.upper op.mnemonic = op.mnemonic := by
  cases op with
  | alu op | unary op | jump op => cases op <;> decide
  | _ => decide

/-- A mnemonic stands for the one of its opcodes that is not the second form of
    another one. -/
theorem ofMnemonic?_eq_some_iff {mnemonic : String} {op : Opcode} :
    ofMnemonic? mnemonic = some op ↔ op.mnemonic = Ascii.upper mnemonic ∧ op ≠ .movImm := by
  have hupper {op : Opcode} (h : op.mnemonic = Ascii.upper mnemonic) :
      ofMnemonic? mnemonic = some (if op = .movImm then .mov else op) := by
    rw [← ofMnemonic?_mnemonic, ofMnemonic?, ofMnemonic?, upper_mnemonic, h]
  constructor
  · intro h
    have hmnemonic : op.mnemonic = Ascii.upper mnemonic := by simpa using List.find?_some h
    refine ⟨hmnemonic, ?_⟩
    rintro rfl
    cases (hupper hmnemonic).symm.trans h
  · rintro ⟨hmnemonic, hne⟩
    rw [hupper hmnemonic, if_neg hne]

/-- The kinds of the operands that an opcode takes as the one of its mnemonic. -/
def kinds : Opcode → List (List Value.Kind)
  | mov => [[.register, .register], [.register, .word]]
  | movImm => []
  | load => [[.register, .word]]
  | store => [[.word, .register]]
  | alu _ => [[.register, .register], [.register, .register, .register]]
  | unary _ => [[.register]]
  | jump _ => [[.word]]
  | ret => [[]]

/-- The operands that an opcode is given, in full. -/
def expand (op : Opcode) (values : List Value) : List Value :=
  match op, values with
  | alu _, [dst, src] => [dst, dst, src]
  | _, _ => values

end Opcode

namespace Statement

variable {mnemonic : String} {values : List Value} {op : Opcode}

theorem exists_form (op : Opcode) : ∃ row ∈ forms, op.mnemonic ∈ row.1 := by
  cases op with
  | alu op | unary op | jump op => cases op <;> decide
  | _ => decide

theorem exists_opcode_of_form : ∀ row ∈ forms, ∀ mnemonic ∈ row.1,
    ∃ op ∈ Opcode.all, op.mnemonic = mnemonic ∧ op ≠ .movImm := by
  decide

/-- A mnemonic is in one row. -/
theorem kinds_of_form (hop : op ≠ .movImm) :
    ∀ row ∈ forms, op.mnemonic ∈ row.1 → row.2 = op.kinds := by
  cases op with
  | movImm => exact absurd rfl hop
  | alu op | unary op | jump op => cases op <;> decide
  | _ => decide

theorem known_iff : Known mnemonic ↔ ∃ op, Opcode.ofMnemonic? mnemonic = some op := by
  constructor
  · rintro ⟨row, hrow, hmem⟩
    obtain ⟨op, -, hop⟩ := exists_opcode_of_form row hrow _ hmem
    exact ⟨op, Opcode.ofMnemonic?_eq_some_iff.2 hop⟩
  · rintro ⟨op, hop⟩
    obtain ⟨hmnemonic, -⟩ := Opcode.ofMnemonic?_eq_some_iff.1 hop
    obtain ⟨row, hrow, hmem⟩ := exists_form op
    exact ⟨row, hrow, hmnemonic ▸ hmem⟩

theorem takes_iff :
    Takes mnemonic values ↔
      ∃ op, Opcode.ofMnemonic? mnemonic = some op ∧ values.map Value.kind ∈ op.kinds := by
  constructor
  · rintro ⟨row, hrow, hmem, hkinds⟩
    obtain ⟨op, -, hmnemonic, hop⟩ := exists_opcode_of_form row hrow _ hmem
    refine ⟨op, Opcode.ofMnemonic?_eq_some_iff.2 ⟨hmnemonic, hop⟩, ?_⟩
    rwa [← kinds_of_form hop row hrow (hmnemonic ▸ hmem)]
  · rintro ⟨op, hop, hkinds⟩
    obtain ⟨hmnemonic, hop⟩ := Opcode.ofMnemonic?_eq_some_iff.1 hop
    obtain ⟨row, hrow, hmem⟩ := exists_form op
    refine ⟨row, hrow, hmnemonic ▸ hmem, ?_⟩
    rwa [kinds_of_form hop row hrow hmem]

theorem expand_eq (h : op.mnemonic = Ascii.upper mnemonic) (values : List Value) :
    expand mnemonic values = op.expand values := by
  unfold expand
  rw [← h]
  split
  · cases op with
    | alu f =>
      rw [if_pos (by cases f <;> decide)]
      rfl
    | unary f | jump f =>
      rw [if_neg (by cases f <;> decide)]
      rfl
    | _ =>
      rw [if_neg (by decide)]
      rfl
  · next hnot =>
    -- The operands are as they are for an arithmetic statement, too.
    unfold Opcode.expand
    split
    · exact absurd rfl (hnot _ _)
    · rfl

end Statement

/-! ## Operands -/

namespace Instruction

variable {op : Opcode} {mnemonic : String} {values : List Value} {i : Instruction} {fault : Fault}

/-- An opcode and operands are the instruction that has this opcode, up to the
    form of `MOV`, and these operands in full. -/
theorem ofOperands?_eq_some_iff :
    ofOperands? op values = some i ↔ op = (if i.opcode = .movImm then .mov else i.opcode) ∧
      i.arguments.map Argument.value = op.expand values := by
  constructor
  · intro h
    unfold ofOperands? at h
    split at h
    case h_10 => exact nomatch h
    all_goals
      obtain rfl := Option.some.inj h
      exact ⟨rfl, rfl⟩
  · rintro ⟨rfl, h⟩
    cases i with
    | alu f dst src₁ src₂ =>
      -- There are two operands or three.
      obtain _ | ⟨x, _ | ⟨y, _ | ⟨z, values⟩⟩⟩ := values
      · exact nomatch h
      · exact nomatch h
      · cases h
        rfl
      · cases h
        rfl
    | _ =>
      change _ = values at h
      rw [← h]
      rfl

/-- There is such an instruction if the operands are of the kinds that the opcode
    takes. -/
theorem exists_ofOperands?_iff :
    (∃ i, ofOperands? op values = some i) ↔ values.map Value.kind ∈ op.kinds := by
  constructor
  · rintro ⟨i, h⟩
    unfold ofOperands? at h
    split at h
    case h_10 => exact nomatch h
    all_goals simp [Opcode.kinds, Value.kind]
  · intro h
    cases op <;>
      simp only [Opcode.kinds, List.mem_cons, List.not_mem_nil, or_false, List.map_eq_cons_iff,
        List.map_eq_nil_iff, Value.kind_eq_register_iff, Value.kind_eq_word_iff] at h
    case mov =>
      obtain ⟨_, _, rfl, ⟨dst, rfl⟩, _, _, rfl, ⟨src, rfl⟩, rfl⟩ |
        ⟨_, _, rfl, ⟨dst, rfl⟩, _, _, rfl, ⟨imm, rfl⟩, rfl⟩ := h
      · exact ⟨_, rfl⟩
      · exact ⟨_, rfl⟩
    case load =>
      obtain ⟨_, _, rfl, ⟨reg, rfl⟩, _, _, rfl, ⟨address, rfl⟩, rfl⟩ := h
      exact ⟨_, rfl⟩
    case store =>
      obtain ⟨_, _, rfl, ⟨address, rfl⟩, _, _, rfl, ⟨reg, rfl⟩, rfl⟩ := h
      exact ⟨_, rfl⟩
    case alu f =>
      obtain ⟨_, _, rfl, ⟨dst, rfl⟩, _, _, rfl, ⟨src, rfl⟩, rfl⟩ |
        ⟨_, _, rfl, ⟨dst, rfl⟩, _, _, rfl, ⟨src₁, rfl⟩, _, _, rfl, ⟨src₂, rfl⟩, rfl⟩ := h
      · exact ⟨_, rfl⟩
      · exact ⟨_, rfl⟩
    case unary f =>
      obtain ⟨_, _, rfl, ⟨reg, rfl⟩, rfl⟩ := h
      exact ⟨_, rfl⟩
    case jump f =>
      obtain ⟨_, _, rfl, ⟨address, rfl⟩, rfl⟩ := h
      exact ⟨_, rfl⟩
    case ret =>
      subst h
      exact ⟨_, rfl⟩

/-! ## Statements -/

theorem exists_ofStatement_iff :
    (∃ i, ofStatement mnemonic values = .ok i) ↔ Statement.Takes mnemonic values := by
  simp only [ofStatement_eq_ok_iff, Statement.takes_iff, ← exists_ofOperands?_iff]
  constructor
  · rintro ⟨i, op, hop, hi⟩
    exact ⟨op, hop, i, hi⟩
  · rintro ⟨op, hop, i, hi⟩
    exact ⟨i, op, hop, hi⟩

/-- A statement is the instruction that has its mnemonic in upper case, and its
    operands in full. -/
theorem ofStatement_eq_ok_iff_arguments :
    ofStatement mnemonic values = .ok i ↔ i.opcode.mnemonic = Ascii.upper mnemonic ∧
      i.arguments.map Argument.value = Statement.expand mnemonic values := by
  have hfamily : (if i.opcode = .movImm then Opcode.mov else i.opcode).mnemonic =
      i.opcode.mnemonic := by
    split
    · next h => rw [h]; rfl
    · rfl
  simp only [ofStatement_eq_ok_iff, ofOperands?_eq_some_iff, Opcode.ofMnemonic?_eq_some_iff]
  constructor
  · rintro ⟨_, ⟨hmnemonic, -⟩, rfl, hvalues⟩
    rw [hfamily] at hmnemonic
    refine ⟨hmnemonic, ?_⟩
    rwa [Statement.expand_eq (hfamily.trans hmnemonic)]
  · rintro ⟨hmnemonic, hvalues⟩
    refine ⟨_, ⟨hfamily.trans hmnemonic, ?_⟩, rfl, ?_⟩
    · split
      · exact Opcode.noConfusion
      · next h => exact h
    · rwa [← Statement.expand_eq (hfamily.trans hmnemonic)]

/-- A statement is refused for its mnemonic, or else for its operands. -/
theorem ofStatement_eq_error_iff :
    ofStatement mnemonic values = .error fault ↔
      (¬Statement.Known mnemonic ∧ fault = .unknownInstruction mnemonic) ∨
      (Statement.Known mnemonic ∧ ¬Statement.Takes mnemonic values ∧
        ∃ op, op.mnemonic = Ascii.upper mnemonic ∧ op ≠ .movImm ∧ fault = .invalidOperands op) := by
  simp only [Statement.known_iff, Statement.takes_iff, ← and_assoc (c := _ = _),
    ← Opcode.ofMnemonic?_eq_some_iff, ofStatement]
  cases hop : Opcode.ofMnemonic? mnemonic with
  | none => simp [eq_comm]
  | some op =>
    simp only [← exists_ofOperands?_iff]
    cases hi : ofOperands? op values with
    | none => simp [hi, @eq_comm _ fault]
    | some i => simp [hi]

/-- A statement is accepted if its mnemonic is in the table, in any letter case, and
    takes operands of these kinds. It is then the instruction with this mnemonic and
    these operands, those of an arithmetic statement with two operands in full. So
    two statements are the same instruction if their mnemonics are the same in upper
    case, and their operands the same in full. A mnemonic outside the table is
    unknown, and for all others the operands are refused. -/
theorem ofStatement_forms (mnemonic : String) (values : List Value) :
    ((∃ i, ofStatement mnemonic values = .ok i) ↔ Statement.Takes mnemonic values) ∧
      (∀ i, ofStatement mnemonic values = .ok i ↔ i.opcode.mnemonic = Ascii.upper mnemonic ∧
        i.arguments.map Argument.value = Statement.expand mnemonic values) ∧
      (∀ mnemonic' values' i i', ofStatement mnemonic values = .ok i →
        ofStatement mnemonic' values' = .ok i' →
        (i = i' ↔ Ascii.upper mnemonic = Ascii.upper mnemonic' ∧
          Statement.expand mnemonic values = Statement.expand mnemonic' values')) ∧
      ∀ fault, ofStatement mnemonic values = .error fault ↔
        (¬Statement.Known mnemonic ∧ fault = .unknownInstruction mnemonic) ∨
        (Statement.Known mnemonic ∧ ¬Statement.Takes mnemonic values ∧
          ∃ op, op.mnemonic = Ascii.upper mnemonic ∧ op ≠ .movImm ∧
            fault = .invalidOperands op) := by
  refine ⟨exists_ofStatement_iff, fun i => ofStatement_eq_ok_iff_arguments, ?_,
    fun fault => ofStatement_eq_error_iff⟩
  intro mnemonic' values' i i' hi hi'
  obtain ⟨hmnemonic, hvalues⟩ := ofStatement_eq_ok_iff_arguments.1 hi
  constructor
  · rintro rfl
    obtain ⟨hmnemonic', hvalues'⟩ := ofStatement_eq_ok_iff_arguments.1 hi'
    exact ⟨hmnemonic.symm.trans hmnemonic', hvalues.symm.trans hvalues'⟩
  · rintro ⟨hupper, hexpand⟩
    rw [hupper] at hmnemonic
    rw [hexpand] at hvalues
    have hi := ofStatement_eq_ok_iff_arguments.2 ⟨hmnemonic, hvalues⟩
    exact Except.ok.inj (hi.symm.trans hi')

/-- Two ways to write one instruction, and operands in the wrong order. -/
theorem ofStatement_forms_sample :
    let two : List Value := [.register .eax, .register .ebx]
    let three : List Value := [.register .eax, .register .eax, .register .ebx]
    ofStatement "sub" two = .ok (.alu .sub .eax .eax .ebx) ∧
      ofStatement "Sub" three = .ok (.alu .sub .eax .eax .ebx) ∧
      Ascii.upper "sub" = Ascii.upper "Sub" ∧
      Statement.expand "sub" two = Statement.expand "Sub" three ∧
      ofStatement "STORE" [.register .eax, .word 0] = .error (.invalidOperands .store) := by
  intro two three
  obtain ⟨-, hiff, hsame, -⟩ := ofStatement_forms "sub" two
  have htwo : ofStatement "sub" two = .ok (.alu .sub .eax .eax .ebx) :=
    (hiff _).2 ⟨by decide, by decide⟩
  have hthree : ofStatement "Sub" three = .ok (.alu .sub .eax .eax .ebx) := by decide
  obtain ⟨hupper, hexpand⟩ := (hsame _ _ _ _ htwo hthree).1 rfl
  exact ⟨htwo, hthree, hupper, hexpand, by decide⟩

end Instruction

end Machine32
