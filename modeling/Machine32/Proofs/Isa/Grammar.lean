import Machine32.Proofs.Isa.Codewords

/-!
# Which bytes are instructions

Bytes begin with an instruction if the first one is an opcode, as many follow as
the opcode asks for, and its register fields hold registers (`Opcode.Begins`).
What the padding holds does not matter, and is lost when the instruction is
encoded again (`Opcode.normalized`).

* `decodeByShape` reads the register fields that the shape of an opcode has, in
  their order, and then makes up the instruction, which it is prepared to fail
  at: it never does (`decode_eq_decodeByShape`);
* `encode_of_ofFields?`: the instruction made up is what the bytes spell;
* `decode_eq_ok_iff` and `decode_eq_error_iff`: so these are the bytes that are
  decoded, and all others are refused for the first thing that is wrong.
-/

namespace Machine32

namespace Shape

/-- Where the registers of an instruction are, in the order they are read. -/
def registerFields : Shape → List Nat
  | registerMove => [1, 2]
  | registerWide | unary => [1]
  | alu => [1, 2, 3]
  | jump | ret => []

/-- Where the padding of an instruction is. -/
def padding : Shape → List Nat
  | registerMove => [3]
  | registerWide | unary => [2, 3]
  | alu => []
  | jump | ret => [1, 2, 3]

theorem lt_length_of_mem_registerFields {shape : Shape} {k : Nat}
    (h : k ∈ shape.registerFields) : k < shape.length := by
  cases shape <;> simp [registerFields] at h <;> simp only [length] <;> omega

end Shape

namespace Opcode

variable (op : Opcode) (bytes : List UInt8)

/-- The bytes begin with an instruction of the given opcode. -/
structure Begins : Prop where
  head : bytes.head? = some op.byte
  length_le : op.length ≤ bytes.length
  registers : ∀ k ∈ op.shape.registerFields, ∀ b ∈ bytes[k]?, b < 10

instance : Decidable (op.Begins bytes) :=
  have (k : Nat) : Decidable (∀ b ∈ bytes[k]?, b < 10) := Option.decidableForallMem _
  decidable_of_iff (_ ∧ _ ∧ _) ⟨fun h => ⟨h.1, h.2.1, h.2.2⟩, fun h => ⟨h.1, h.2, h.3⟩⟩

/-- The bytes of an instruction of the given opcode at the front of `bytes`, its
    padding cleared. -/
def normalized : List UInt8 :=
  (bytes.take op.length).mapIdx fun k b => if k ∈ op.shape.padding then 0 else b

end Opcode

/-- What is wrong with bytes that begin with no instruction, the first thing
    counting: that there are none, that the first one is no opcode, that bytes
    are missing, or the first register field that holds no register. -/
inductive DecodeError.Explains (bytes : List UInt8) : DecodeError → Prop
  | empty : bytes = [] → Explains bytes (.truncated 0 1 0)
  | unknownOpcode {b : UInt8} : bytes.head? = some b → (∀ op : Opcode, op.byte ≠ b) →
      Explains bytes (.unknownOpcode b)
  | truncated {op : Opcode} : bytes.head? = some op.byte → bytes.length < op.length →
      Explains bytes (.truncated op.byte op.length bytes.length)
  | invalidRegister {op : Opcode} {pre post : List Nat} {k : Nat} {b : UInt8} :
      bytes.head? = some op.byte → op.length ≤ bytes.length →
      op.shape.registerFields = pre ++ k :: post → (∀ j ∈ pre, ∀ c ∈ bytes[j]?, c < 10) →
      bytes[k]? = some b → 10 ≤ b → Explains bytes (.invalidRegister op.byte b)

theorem Register.exists_ofId?_iff {b : UInt8} : (∃ r, ofId? b = some r) ↔ b < 10 := by
  constructor
  · rintro ⟨r, hr⟩
    obtain rfl := ofId?_eq_some_iff.1 hr
    cases r <;> decide
  · intro h
    have hall : ∀ n : Fin 10, (ofId? (UInt8.ofNat n)).isSome = true := by decide
    have hb := hall ⟨b.toNat, UInt8.lt_iff_toNat_lt.1 h⟩
    rwa [UInt8.ofNat_toNat, Option.isSome_iff_exists] at hb

namespace Instruction

variable {op : Opcode} {bytes : List UInt8} {registers : List Register} {i : Instruction}

theorem decodeRegister_eq_ok_iff {op b : UInt8} {r : Register} :
    decodeRegister op b = .ok r ↔ r.id = b := by
  rw [decodeRegister, ← Register.ofId?_eq_some_iff]
  cases Register.ofId? b <;> simp

theorem exists_decodeRegister_eq_ok_iff {op b : UInt8} :
    (∃ r, decodeRegister op b = .ok r) ↔ b < 10 := by
  simp only [decodeRegister_eq_ok_iff, ← Register.ofId?_eq_some_iff, Register.exists_ofId?_iff]

theorem decodeRegister_eq_error_iff {op b : UInt8} {e : DecodeError} :
    decodeRegister op b = .error e ↔ 10 ≤ b ∧ e = .invalidRegister op b := by
  rw [← UInt8.not_lt, ← Register.exists_ofId?_iff, decodeRegister]
  cases Register.ofId? b <;> simp [eq_comm]

/-! ## Decoding by shape -/

/-- The word at the end of a long instruction. -/
def wordField (bytes : List UInt8) : Word :=
  Word.ofBytes (bytes.getD 4 0) (bytes.getD 5 0) (bytes.getD 6 0) (bytes.getD 7 0)

/-- The registers in the fields that an opcode has. -/
def decodeRegisters (op : Opcode) (bytes : List UInt8) : Except DecodeError (List Register) :=
  op.shape.registerFields.mapM fun k => decodeRegister op.byte (bytes.getD k 0)

/-- The instruction that an opcode makes up with the registers in its fields and
    the word behind them, if it does. -/
def ofFields? (op : Opcode) (registers : List Register) (word : Word) : Option Instruction :=
  match op.shape, registers with
  | .registerMove, [dst, src] => some (mov dst src)
  | .registerWide, [reg] =>
    match op with
    | .movImm => some (movImm reg word)
    | .load => some (load reg word)
    | _ => some (store word reg)
  | .alu, [src₁, src₂, dst] => alu? op dst src₁ src₂
  | .unary, [reg] => unary? op reg
  | .jump, [] => jump? op word
  | .ret, [] => some ret
  | _, _ => none

/-- The instruction at the front of `bytes`, read field by field. That an opcode
    makes up no instruction is reported as `fallback`. -/
def decodeByShape (fallback : DecodeError) (bytes : List UInt8) : Except DecodeError Instruction :=
  match bytes with
  | [] => .error (.truncated 0 1 0)
  | b :: _ =>
    match Opcode.ofByte? b with
    | none => .error (.unknownOpcode b)
    | some op =>
      if bytes.length < op.length then .error (.truncated b op.length bytes.length)
      else do
        let registers ← decodeRegisters op bytes
        match ofFields? op registers (wordField bytes) with
        | some i => .ok i
        | none => .error fallback

/-- Of four bytes and more the pattern of an opcode that fits and the fields of
    its shape are the same. -/
theorem decode_eq_decodeByShape_of_four_le (fallback : DecodeError) (op : Opcode)
    (b₁ b₂ b₃ : UInt8) (rest : List UInt8) :
    decode (op.byte :: b₁ :: b₂ :: b₃ :: rest) =
      decodeByShape fallback (op.byte :: b₁ :: b₂ :: b₃ :: rest) := by
  simp only [decode, decodeByShape, Opcode.ofByte?_byte]
  have hfour := Nat.not_lt.2 (Nat.le_add_left 4 rest.length)
  cases op with
  | ret => rfl
  | mov | alu | unary =>
    refine Eq.trans ?_ (if_neg hfour).symm
    simp only [decodeRegisters, Opcode.shape, Shape.registerFields, List.mapM_cons,
      List.mapM_nil, bind_assoc, pure_bind]
    rfl
  | movImm | load | store =>
    rcases rest with _ | ⟨b₄, _ | ⟨b₅, _ | ⟨b₆, _ | ⟨b₇, rest⟩⟩⟩⟩
    · rfl
    · rfl
    · rfl
    · rfl
    · have height := Nat.not_lt.2 (Nat.le_add_left 8 rest.length)
      refine Eq.trans ?_ (if_neg height).symm
      simp only [decodeRegisters, Opcode.shape, Shape.registerFields, List.mapM_cons,
        List.mapM_nil, bind_assoc, pure_bind]
      rfl
  | jump => rcases rest with _ | ⟨b₄, _ | ⟨b₅, _ | ⟨b₆, _ | ⟨b₇, rest⟩⟩⟩⟩ <;> rfl

/-- Decoding makes up the instruction from the fields of its shape. -/
theorem decode_eq_decodeByShape (fallback : DecodeError) (bytes : List UInt8) :
    decode bytes = decodeByShape fallback bytes := by
  cases bytes with
  | nil => rfl
  | cons b fields =>
    cases hop : Opcode.ofByte? b with
    | none => simp only [decode, decodeByShape, hop]
    | some op =>
      obtain rfl := Opcode.ofByte?_eq_some_iff.1 hop
      -- No pattern has less than four bytes, and so fewer than that are too few for any opcode.
      rcases fields with _ | ⟨b₁, _ | ⟨b₂, _ | ⟨b₃, rest⟩⟩⟩
      · simp only [decode, decodeByShape, hop]
        cases op <;> rfl
      · simp only [decode, decodeByShape, hop]
        cases op <;> rfl
      · simp only [decode, decodeByShape, hop]
        cases op <;> rfl
      · exact decode_eq_decodeByShape_of_four_le fallback op b₁ b₂ b₃ rest

theorem decodeRegisters_eq_ok_iff :
    decodeRegisters op bytes = .ok registers ↔
      List.Forall₂ (fun k r => r.id = bytes.getD k 0) op.shape.registerFields registers := by
  simp only [decodeRegisters, Except.mapM_eq_ok_iff, decodeRegister_eq_ok_iff]

theorem exists_of_four_le_length {α : Type} {as : List α} (h : 4 ≤ as.length) :
    ∃ a₀ a₁ a₂ a₃ rest, as = a₀ :: a₁ :: a₂ :: a₃ :: rest :=
  match as, h with
  | a₀ :: a₁ :: a₂ :: a₃ :: rest, _ => ⟨a₀, a₁, a₂, a₃, rest, rfl⟩

/-- What an opcode makes up with the registers in its fields is spelled by the
    bytes, but for the padding. -/
theorem encode_of_ofFields? (hhead : bytes.head? = some op.byte) (hlen : op.length ≤ bytes.length)
    (hregisters : decodeRegisters op bytes = .ok registers) :
    ∃ i, ofFields? op registers (wordField bytes) = some i ∧ i.encode = op.normalized bytes := by
  rw [decodeRegisters_eq_ok_iff] at hregisters
  have hfour : 4 ≤ bytes.length := by rcases op.length_eq with h | h <;> omega
  obtain ⟨b₀, b₁, b₂, b₃, rest, rfl⟩ := exists_of_four_le_length hfour
  obtain rfl := Option.some.inj hhead
  cases op with
  | mov =>
    obtain _ | ⟨h₁, _ | ⟨h₂, _ | _⟩⟩ := hregisters
    exact ⟨_, rfl, by simp [encode, opcode, h₁, h₂, Opcode.normalized, Opcode.length,
      Opcode.shape, Shape.length, Shape.padding]⟩
  | alu f =>
    obtain _ | ⟨h₁, _ | ⟨h₂, _ | ⟨h₃, _ | _⟩⟩⟩ := hregisters
    exact ⟨_, rfl, by simp [encode, opcode, h₁, h₂, h₃, Opcode.normalized, Opcode.length,
      Opcode.shape, Shape.length, Shape.padding]⟩
  | unary f =>
    obtain _ | ⟨h₁, _ | _⟩ := hregisters
    exact ⟨_, rfl, by simp [encode, opcode, h₁, Opcode.normalized, Opcode.length, Opcode.shape,
      Shape.length, Shape.padding]⟩
  | ret =>
    obtain _ | _ := hregisters
    exact ⟨_, rfl, by simp [encode, opcode, Opcode.normalized, Opcode.length, Opcode.shape,
      Shape.length, Shape.padding]⟩
  | movImm | load | store =>
    obtain ⟨b₄, b₅, b₆, b₇, rest, rfl⟩ :=
      exists_of_four_le_length (Nat.le_of_add_le_add_right (show 4 + 4 ≤ rest.length + 4 from hlen))
    obtain _ | ⟨h₁, _ | _⟩ := hregisters
    exact ⟨_, rfl, by simp [encode, opcode, h₁, wordField, Word.toBytes_ofBytes,
      Opcode.normalized, Opcode.length, Opcode.shape, Shape.length, Shape.padding]⟩
  | jump f =>
    obtain ⟨b₄, b₅, b₆, b₇, rest, rfl⟩ :=
      exists_of_four_le_length (Nat.le_of_add_le_add_right (show 4 + 4 ≤ rest.length + 4 from hlen))
    obtain _ | _ := hregisters
    exact ⟨_, rfl, by simp [encode, opcode, wordField, Word.toBytes_ofBytes,
      Opcode.normalized, Opcode.length, Opcode.shape, Shape.length, Shape.padding]⟩

theorem mem_getElem?_iff {k : Nat} {b : UInt8} (hk : k < bytes.length) :
    b ∈ bytes[k]? ↔ bytes.getD k 0 = b := by
  rw [List.getD_eq_getElem?_getD, List.getElem?_eq_getElem hk, Option.getD_some, Option.mem_def,
    Option.some_inj]

theorem exists_decodeRegister_field_iff {op : UInt8} {k : Nat} (hk : k < bytes.length) :
    (∃ r, decodeRegister op (bytes.getD k 0) = .ok r) ↔ ∀ b ∈ bytes[k]?, b < 10 := by
  simp only [exists_decodeRegister_eq_ok_iff, mem_getElem?_iff hk, forall_eq']

/-! ## The bytes that are decoded -/

theorem decode_nil : decode [] = .error (.truncated 0 1 0) := rfl

theorem decode_of_unknown {b : UInt8} (hhead : bytes.head? = some b)
    (hb : ∀ op : Opcode, op.byte ≠ b) : decode bytes = .error (.unknownOpcode b) := by
  obtain ⟨fields, rfl⟩ := List.head?_eq_some_iff.1 hhead
  have hnone : Opcode.ofByte? b = none :=
    Option.eq_none_iff_forall_ne_some.2 fun op h => hb op (Opcode.ofByte?_eq_some_iff.1 h)
  simp only [decode, hnone]

/-- Bytes that begin with an opcode are looked at for their number first. -/
theorem decode_of_head (fallback : DecodeError) (hhead : bytes.head? = some op.byte) :
    decode bytes =
      if bytes.length < op.length then .error (.truncated op.byte op.length bytes.length)
      else (do
        let registers ← decodeRegisters op bytes
        match ofFields? op registers (wordField bytes) with
        | some i => .ok i
        | none => .error fallback) := by
  obtain ⟨fields, rfl⟩ := List.head?_eq_some_iff.1 hhead
  rw [decode_eq_decodeByShape fallback, decodeByShape, Opcode.ofByte?_byte]

theorem decode_of_short (hhead : bytes.head? = some op.byte) (hlen : bytes.length < op.length) :
    decode bytes = .error (.truncated op.byte op.length bytes.length) := by
  rw [decode_of_head (.unknownOpcode op.byte) hhead, if_pos hlen]

theorem decode_of_invalid {e : DecodeError} (hhead : bytes.head? = some op.byte)
    (hlen : op.length ≤ bytes.length) (h : decodeRegisters op bytes = .error e) :
    decode bytes = .error e := by
  rw [decode_of_head (.unknownOpcode op.byte) hhead, if_neg (Nat.not_lt.2 hlen), h]
  rfl

theorem exists_decode_of_valid (hhead : bytes.head? = some op.byte)
    (hlen : op.length ≤ bytes.length) (h : decodeRegisters op bytes = .ok registers) :
    ∃ i, decode bytes = .ok i ∧ i.encode = op.normalized bytes := by
  obtain ⟨i, hi, hencode⟩ := encode_of_ofFields? hhead hlen h
  refine ⟨i, ?_, hencode⟩
  rw [decode_of_head (.unknownOpcode op.byte) hhead, if_neg (Nat.not_lt.2 hlen), h]
  simp only [bind, Except.bind, hi]

theorem decodeRegisters_eq_error_iff {e : DecodeError} (hlen : op.length ≤ bytes.length) :
    decodeRegisters op bytes = .error e ↔
      ∃ pre k post b, op.shape.registerFields = pre ++ k :: post ∧
        (∀ j ∈ pre, ∀ c ∈ bytes[j]?, c < 10) ∧ bytes[k]? = some b ∧ 10 ≤ b ∧
        e = .invalidRegister op.byte b := by
  rw [decodeRegisters, Except.mapM_eq_error_iff]
  have hlt {k : Nat} (hk : k ∈ op.shape.registerFields) : k < bytes.length :=
    Nat.lt_of_lt_of_le (Shape.lt_length_of_mem_registerFields hk) hlen
  constructor
  · rintro ⟨pre, k, post, heq, hpre, hk⟩
    have hmem : ∀ j ∈ pre ++ k :: post, j < bytes.length := fun j hj => hlt (heq ▸ hj)
    obtain ⟨hinvalid, rfl⟩ := decodeRegister_eq_error_iff.1 hk
    refine ⟨pre, k, post, _, heq, fun j hj => ?_, ?_, hinvalid, rfl⟩
    · exact (exists_decodeRegister_field_iff (hmem j (List.mem_append_left _ hj))).1 (hpre j hj)
    · exact (mem_getElem?_iff (hmem k (by simp))).2 rfl
  · rintro ⟨pre, k, post, b, heq, hpre, hk, hinvalid, rfl⟩
    have hmem : ∀ j ∈ pre ++ k :: post, j < bytes.length := fun j hj => hlt (heq ▸ hj)
    refine ⟨pre, k, post, heq, fun j hj => ?_, ?_⟩
    · exact (exists_decodeRegister_field_iff (hmem j (List.mem_append_left _ hj))).2 (hpre j hj)
    · rw [(mem_getElem?_iff (hmem k (by simp))).1 hk]
      exact decodeRegister_eq_error_iff.2 ⟨hinvalid, rfl⟩

theorem exists_decodeRegisters_eq_ok_iff (hlen : op.length ≤ bytes.length) :
    (∃ registers, decodeRegisters op bytes = .ok registers) ↔
      ∀ k ∈ op.shape.registerFields, ∀ b ∈ bytes[k]?, b < 10 := by
  rw [decodeRegisters, Except.exists_mapM_eq_ok_iff]
  refine forall₂_congr fun k hk => exists_decodeRegister_field_iff ?_
  exact Nat.lt_of_lt_of_le (Shape.lt_length_of_mem_registerFields hk) hlen

/-- Bytes that begin with an instruction are decoded to it. -/
theorem exists_decode_of_begins (h : op.Begins bytes) :
    ∃ i, decode bytes = .ok i ∧ i.encode = op.normalized bytes := by
  obtain ⟨registers, hregisters⟩ := (exists_decodeRegisters_eq_ok_iff h.length_le).2 h.registers
  exact exists_decode_of_valid h.head h.length_le hregisters

/-- What explains that bytes begin with no instruction is what they are refused
    for. -/
theorem decode_of_explains {e : DecodeError} (h : e.Explains bytes) : decode bytes = .error e := by
  cases h with
  | empty h => rw [h, decode_nil]
  | unknownOpcode hhead hb => exact decode_of_unknown hhead hb
  | truncated hhead hlen => exact decode_of_short hhead hlen
  | invalidRegister hhead hlen hfields hpre hk hb =>
    exact decode_of_invalid hhead hlen
      ((decodeRegisters_eq_error_iff hlen).2 ⟨_, _, _, _, hfields, hpre, hk, hb, rfl⟩)

/-- Bytes begin with an instruction, or it is explained why they do not. -/
theorem begins_or_explains (bytes : List UInt8) :
    (∃ op : Opcode, op.Begins bytes) ∨ ∃ e : DecodeError, e.Explains bytes := by
  cases hhead : bytes.head? with
  | none => exact .inr ⟨_, .empty (List.head?_eq_none_iff.1 hhead)⟩
  | some b =>
    by_cases hop : ∃ op : Opcode, op.byte = b
    · obtain ⟨op, rfl⟩ := hop
      rcases Nat.lt_or_ge bytes.length op.length with hlen | hlen
      · exact .inr ⟨_, .truncated hhead hlen⟩
      · cases hregisters : decodeRegisters op bytes with
        | ok registers =>
          have hvalid := (exists_decodeRegisters_eq_ok_iff hlen).1 ⟨registers, hregisters⟩
          exact .inl ⟨op, hhead, hlen, hvalid⟩
        | error e =>
          obtain ⟨pre, k, post, b, hfields, hpre, hk, hb, -⟩ :=
            (decodeRegisters_eq_error_iff hlen).1 hregisters
          exact .inr ⟨_, .invalidRegister hhead hlen hfields hpre hk hb⟩
    · exact .inr ⟨_, .unknownOpcode hhead (not_exists.1 hop)⟩

/-- An instruction is decoded from the bytes that begin with it, but for the
    padding. -/
theorem decode_eq_ok_iff :
    decode bytes = .ok i ↔ ∃ op : Opcode, op.Begins bytes ∧ i.encode = op.normalized bytes := by
  constructor
  · intro h
    rcases begins_or_explains bytes with ⟨op, hop⟩ | ⟨e, he⟩
    · obtain ⟨j, hj, hencode⟩ := exists_decode_of_begins hop
      obtain rfl := Except.ok.inj (h.symm.trans hj)
      exact ⟨op, hop, hencode⟩
    · cases h.symm.trans (decode_of_explains he)
  · rintro ⟨op, hop, hencode⟩
    obtain ⟨j, hj, hencode'⟩ := exists_decode_of_begins hop
    rwa [encode_injective (hencode.trans hencode'.symm)]

/-- All other bytes are refused, and it is told why. -/
theorem decode_eq_error_iff {e : DecodeError} : decode bytes = .error e ↔ e.Explains bytes := by
  refine ⟨fun h => ?_, decode_of_explains⟩
  rcases begins_or_explains bytes with ⟨op, hop⟩ | ⟨e', he'⟩
  · obtain ⟨j, hj, -⟩ := exists_decode_of_begins hop
    cases h.symm.trans hj
  · obtain rfl := Except.error.inj (h.symm.trans (decode_of_explains he'))
    exact he'

theorem isSome_alu?_iff {dst src₁ src₂ : Register} :
    (alu? op dst src₁ src₂).isSome ↔ op.shape = .alu := by
  cases op <;> simp [alu?, Opcode.shape]

theorem isSome_unary?_iff {reg : Register} : (unary? op reg).isSome ↔ op.shape = .unary := by
  cases op <;> simp [unary?, Opcode.shape]

theorem isSome_jump?_iff {address : Address} : (jump? op address).isSome ↔ op.shape = .jump := by
  cases op <;> simp [jump?, Opcode.shape]

/-- Bytes are decoded if they begin with an instruction, and then to the one that
    is encoded as these bytes with the padding cleared. They are refused if it is
    explained why they do not begin with one, and for that. An opcode always
    makes up an instruction with the fields of its shape, so that nothing is
    ever reported about it. -/
theorem decode_grammar (bytes : List UInt8) :
    ((∃ i, decode bytes = .ok i) ↔ ∃ op : Opcode, op.Begins bytes) ∧
      (∀ i, decode bytes = .ok i ↔
        ∃ op : Opcode, op.Begins bytes ∧ i.encode = op.normalized bytes) ∧
      (∀ e : DecodeError, decode bytes = .error e ↔ e.Explains bytes) ∧
      (∀ fallback, decodeByShape fallback bytes = decode bytes) ∧
      (∀ op dst src₁ src₂, (alu? op dst src₁ src₂).isSome ↔ op.shape = .alu) ∧
      (∀ op reg, (unary? op reg).isSome ↔ op.shape = .unary) ∧
      ∀ op address, (jump? op address).isSome ↔ op.shape = .jump := by
  refine ⟨⟨?_, ?_⟩, fun _ => decode_eq_ok_iff, fun _ => decode_eq_error_iff,
    fun fallback => (decode_eq_decodeByShape fallback bytes).symm,
    fun _ _ _ _ => isSome_alu?_iff, fun _ _ => isSome_unary?_iff, fun _ _ => isSome_jump?_iff⟩
  · rintro ⟨i, hi⟩
    obtain ⟨op, hop, -⟩ := decode_eq_ok_iff.1 hi
    exact ⟨op, hop⟩
  · rintro ⟨op, hop⟩
    obtain ⟨i, hi, -⟩ := exists_decode_of_begins hop
    exact ⟨i, hi⟩

/-- An instruction with something in its padding and something behind it, and
    one with two fields that hold no register. -/
theorem decode_grammar_sample :
    decode [0x02, 3, 0xAA, 0xBB, 1, 2, 3, 4, 9] = .ok (movImm .edx 0x04030201) ∧
      (movImm .edx 0x04030201).encode = [0x02, 3, 0, 0, 1, 2, 3, 4] ∧
      decode [0x10, 1, 10, 11] = .error (.invalidRegister 0x10 10) :=
  ⟨((decode_grammar _).2.1 _).2 ⟨.movImm, by decide, by decide +kernel⟩, by decide,
    ((decode_grammar _).2.2.1 _).2
      (@DecodeError.Explains.invalidRegister _ (.alu .add) [1] [3] 2 10 rfl (by decide) rfl
        (by simp) rfl (by decide))⟩

end Instruction

end Machine32
