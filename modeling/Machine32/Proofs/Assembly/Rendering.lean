import Machine32.Isa.Text
import Machine32.Proofs.Assembly.Spacing
import Machine32.Proofs.Assembly.Feeding

/-!
# Text that the assembler reads back

An instruction is written as a mnemonic with operands. Its text is one of the ways
to write this statement (`written_text`), so that reading it gives the statement
back (`Line.parse_text`); and whatever the names of a table stand for, the operands
have the values that the instruction has (`mapM_resolve`). So a code section takes
the text in as the instruction (`Assembler.feed_text`).

The lines that define names are read back likewise: `Line.parse_directive`,
`Line.parse_assignment`.
-/

namespace Machine32

/-! ## Numbers -/

theorem Word.ofNumber_toSigned (w : Word) : Word.ofNumber (Word.toSigned w) = .ok w := by
  have hlt := w.toNat_lt
  rw [Word.ofNumber_eq_ok_iff, Word.Fits, Word.toSigned_eq]
  refine ⟨?_, (Word.ofInt_eq_iff.2 ?_).symm⟩
  all_goals split <;> omega

theorem Word.ofNumber_toNat (w : Word) : Word.ofNumber w.toNat = .ok w := by
  have hlt := w.toNat_lt
  refine Word.ofNumber_eq_ok_iff.2 ⟨⟨by omega, by omega⟩, (Word.ofInt_eq_iff.2 ?_).symm⟩
  omega

namespace Token

theorem fits64_toSigned (w : Word) : Fits64 (Word.toSigned w) := by
  have hlt := w.toNat_lt
  rw [Word.toSigned_eq, Fits64]
  split <;> omega

/-- The text of an address is a spelling of it. -/
theorem spells_address (a : Address) : Spells (.hex a.toNat) (Address.text a).toList := by
  have hvalue := Numeral.value_hexDigits .upper 4 a.toNat
  have hne := Numeral.hexDigits_leftpad_ne_nil .upper 4 a.toNat
  have hlt := a.toNat_lt
  simp only [Address.text, Numeral.hex, String.toList_append, String.toList_ofList]
  conv in Token.hex _ => rw [← hvalue]
  refine .hex (.inl rfl) hne (fun d hd => Numeral.isHexDigit_of_mem_hexDigits hd) ?_
  rw [hvalue, Fits64]
  omega

/-- Words with commas in between are a row of tokens. -/
theorem spaced_intercalate {ts : List Token} {ws : List (List Char)}
    (h : List.Forall₂ Spells ts ws) (hne : ts ≠ []) :
    Spaced ts ([',', ' '].intercalate ws) := by
  induction h with
  | nil => exact absurd rfl hne
  | @cons t w ts ws hw h ih =>
    cases h with
    | nil =>
      rw [List.intercalate_singleton]
      exact hw.spaced
    | cons hw' h =>
      rw [List.intercalate_cons_cons]
      exact .cons (.word hw) (by decide) (.inl (List.cons_ne_nil _ _))
        (ih (List.cons_ne_nil _ _))

end Token

/-! ## Statements -/

/-- What an instruction has for an operand. -/
inductive Argument where
  | register (r : Register)
  | immediate (w : Word)
  | address (a : Address)

namespace Argument

/-- The text of an operand. -/
def text : Argument → String
  | register r => r.name
  | immediate w => Numeral.signed (Word.toSigned w)
  | address a => Address.text a

/-- The token that the text of an operand is. -/
def token : Argument → Token
  | register r => .identifier r.name
  | immediate w => .number (Word.toSigned w)
  | address a => .hex a.toNat

/-- The operand that the text of an operand is. -/
def operand : Argument → Operand
  | register r => .symbol r.name
  | immediate w => .number (Word.toSigned w)
  | address a => .number a.toNat

/-- The value of an operand. -/
def value : Argument → Value
  | register r => .register r
  | immediate w => .word w
  | address a => .word a

theorem spells (x : Argument) : x.token.Spells x.text.toList := by
  cases x with
  | register r => exact Token.spells_name (by cases r <;> decide)
  | immediate w => exact Token.spells_signed (Token.fits64_toSigned w)
  | address a => exact Token.spells_address a

theorem hasTokens (x : Argument) : x.operand.HasTokens [x.token] := by
  cases x with
  | register r => exact .symbol
  | immediate w => exact .number
  | address a => exact .hex

theorem haveTokens (xs : List Argument) :
    Operand.HaveTokens (xs.map operand) (xs.map token) := by
  induction xs with
  | nil => exact Operand.haveTokens_nil
  | cons x xs ih => exact ih.cons x.hasTokens

/-- An operand has its value whatever the names of a table stand for. -/
theorem resolve_operand (x : Argument) (t : SymbolTable) : t.resolve x.operand = .ok x.value := by
  cases x with
  | register r =>
    have hr : Register.ofName? r.name = some r := by cases r <;> decide
    simp only [operand, SymbolTable.resolve, SymbolTable.resolveName, hr, value]
  | immediate w => rw [operand, SymbolTable.resolve, Word.ofNumber_toSigned]; rfl
  | address a => rw [operand, SymbolTable.resolve, Word.ofNumber_toNat]; rfl

end Argument

namespace Opcode

/-- A mnemonic is read as the first of the forms that share it. -/
theorem ofMnemonic?_mnemonic (op : Opcode) :
    ofMnemonic? op.mnemonic = some (if op = .movImm then .mov else op) := by
  cases op with
  | alu op | unary op | jump op => cases op <;> decide
  | _ => decide

theorem isName_mnemonic (op : Opcode) : IsName op.mnemonic.toList := by
  cases op with
  | alu op | unary op | jump op => cases op <;> decide
  | _ => decide

end Opcode

namespace Instruction

/-- The operands of an instruction. -/
def arguments : Instruction → List Argument
  | mov dst src => [.register dst, .register src]
  | movImm dst imm => [.register dst, .immediate imm]
  | load reg address => [.register reg, .address address]
  | store address reg => [.address address, .register reg]
  | alu _ dst src₁ src₂ => [.register dst, .register src₁, .register src₂]
  | unary _ reg => [.register reg]
  | jump _ address => [.address address]
  | ret => []

theorem operandTexts_eq (i : Instruction) : i.operandTexts = i.arguments.map Argument.text := by
  cases i <;> rfl

/-- A mnemonic and the values of the operands make the instruction up. -/
theorem ofStatement_arguments (i : Instruction) :
    ofStatement i.opcode.mnemonic (i.arguments.map Argument.value) = .ok i := by
  rw [ofStatement, Opcode.ofMnemonic?_mnemonic]
  cases i <;> rfl

/-- The operands of an instruction have their values whatever the names of a table
    stand for. -/
theorem mapM_resolve (i : Instruction) (t : SymbolTable) :
    (i.arguments.map Argument.operand).mapM t.resolve = .ok (i.arguments.map Argument.value) := by
  rw [Except.mapM_eq_ok_iff, List.forall₂_map_left_iff, List.forall₂_map_right_iff,
    List.forall₂_same]
  exact fun x _ => x.resolve_operand t

/-- The text of an instruction is a way to write its statement. -/
theorem written_text (i : Instruction) :
    (Line.statement i.opcode.mnemonic (i.arguments.map Argument.operand)).Written i.text := by
  have hname := Token.spells_name i.opcode.isName_mnemonic
  refine Line.written_of_spaced (.statement (Argument.haveTokens i.arguments)) ?_
  rw [text, operandTexts_eq]
  -- There is nothing behind the mnemonic if there are no operands.
  cases i.arguments with
  | nil => exact hname.spaced
  | cons x xs =>
    have hwords : List.Forall₂ Token.Spells ((x :: xs).map Argument.token)
        (((x :: xs).map Argument.text).map String.toList) := by
      rw [List.map_map, List.forall₂_map_left_iff, List.forall₂_map_right_iff, List.forall₂_same]
      exact fun x _ => x.spells
    change Token.Spaced _
      (i.opcode.mnemonic ++ " " ++ ", ".intercalate ((x :: xs).map Argument.text)).toList
    rw [String.toList_append, String.toList_append, String.toList_intercalate]
    exact .cons (.word hname) (by decide) (.inl (List.cons_ne_nil _ _))
      (Token.spaced_intercalate hwords (List.cons_ne_nil _ _))

end Instruction

/-- The text of an instruction is read as its statement. -/
theorem Line.parse_text (i : Instruction) :
    parse i.text = .ok (some (statement i.opcode.mnemonic (i.arguments.map Argument.operand))) :=
  parse_of_written i.written_text

/-- A directive is read back. -/
theorem Line.parse_directive {name : String} (h : IsName name.toList) :
    parse ("." ++ name) = .ok (some (directive name)) := by
  refine parse_of_written (written_of_spaced .directive ?_)
  rw [String.toList_append]
  exact (Token.spells_directive h).spaced

/-- An assignment is read back. -/
theorem Line.parse_assignment {name : String} {n : Int} (h : IsName name.toList)
    (hn : Token.Fits64 n) :
    parse (name ++ " = " ++ Numeral.signed n) = .ok (some (assignment name n)) := by
  have hblank : Token.IsGap [' '] := by decide
  refine parse_of_written (written_of_spaced .assignment ?_)
  have htext : (name ++ " = " ++ Numeral.signed n).toList =
      name.toList ++ [' '] ++ (['='] ++ [' '] ++ (Numeral.signed n).toList) := by
    simp
  rw [htext]
  exact .cons (.word (Token.spells_name h)) hblank (.inl (List.cons_ne_nil _ _))
    (.cons .equals hblank (.inl (List.cons_ne_nil _ _)) (Token.spells_signed hn).spaced)

/-- A code section takes in the text of an instruction as the instruction,
    whatever names are defined. -/
theorem Assembler.feed_text {a : Assembler} (h : a.current = .code) (i : Instruction) :
    a.feed i.text = a.emit i := by
  rw [feed, Line.parse_text]
  refine (feedParsed_statement h).trans ?_
  rw [i.mapM_resolve]
  refine Eq.trans ?_ (congrArg (Except.bind · a.emit) i.ofStatement_arguments)
  rfl

end Machine32
