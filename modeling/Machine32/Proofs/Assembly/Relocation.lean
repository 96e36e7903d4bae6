import Machine32.Proofs.Assembly.Placement
import Machine32.Proofs.Assembly.Emission

/-!
# Moving the data segment

What becomes of a program when its text is assembled for a memory with larger
segments. The data segment then begins further on, and nothing moves with it but
the addresses of constants, in the table of names and where the text asks for
them as `&name`:

* `Assembler.Moved`: how the states of the assembler for the two memories differ
  after the same lines. A line that is accepted for the one is accepted for the
  other, too, and puts the same instruction behind the code, up to the word of an
  `&name` (`Moved.step`, `Source.moved`);
* `Source.AddressAt` is where the words of these operands are in the code;
* `assemble_relocates`: a program for the one memory is a program for the other,
  with the same bytes everywhere else (`Source.Relocates`).
-/

namespace Machine32

/-- The constant whose word is `δ` further on. -/
def Constant.moved (δ : Word) (c : Constant) : Constant :=
  { c with address := c.address + δ }

/-! ## The word of an instruction -/

/-- The value with its word changed, if it is one. -/
def Value.mapWord (f : Word → Word) : Value → Value
  | register r => register r
  | word w => word (f w)

/-- The name of which an operand is the address, if it is one. -/
def Operand.addressOf? : Operand → Option String
  | addressOf name => some name
  | _ => none

/-- The value of an operand, with its word changed if the operand is an address. -/
def Operand.moved (f : Word → Word) (o : Operand) (v : Value) : Value :=
  v.mapWord (if o.addressOf? = none then id else f)

theorem Operand.moved_of_addressOf?_eq_none {o : Operand} (h : o.addressOf? = none)
    (f : Word → Word) (v : Value) : o.moved f v = v := by
  rw [moved, if_pos h]
  cases v <;> rfl

/-- An address is no register. -/
theorem SymbolTable.addressOf?_of_resolve {t : SymbolTable} {o : Operand} {v : Value}
    (h : t.resolve o = .ok v) (r : Register) (hr : v = .register r) : o.addressOf? = none := by
  subst hr
  cases o with
  | number | symbol => rfl
  | addressOf name =>
    rw [resolve] at h
    split at h
    · cases h
    · cases h

namespace Instruction

/-- The word that an instruction has for an operand. -/
def word? : Instruction → Option Word
  | movImm _ w | load _ w | store w _ | jump _ w => some w
  | _ => none

/-- The instruction with its word changed, if it has one. -/
def mapWord (f : Word → Word) : Instruction → Instruction
  | movImm dst imm => movImm dst (f imm)
  | load reg address => load reg (f address)
  | store address reg => store (f address) reg
  | jump op address => jump op (f address)
  | i => i

/-- The place of the word in the bytes of an instruction. -/
def wordOffset : Nat := 4

variable {i : Instruction} {w : Word} {f : Word → Word}

@[simp] theorem length_mapWord (f : Word → Word) (i : Instruction) :
    (i.mapWord f).length = i.length := by
  cases i <;> rfl

theorem mapWord_id (i : Instruction) : i.mapWord id = i := by
  cases i <;> rfl

theorem mapWord_of_word?_eq_none (h : i.word? = none) : i.mapWord f = i := by
  cases i <;> first | rfl | exact nomatch h

/-- The word is behind the bytes of the opcode and the register. -/
theorem encode_eq_append (h : i.word? = some w) :
    ∃ front : List UInt8, front.length = wordOffset ∧ i.encode = front ++ Word.toBytes w ∧
      ∀ f, (i.mapWord f).encode = front ++ Word.toBytes (f w) := by
  refine ⟨i.encode.take wordOffset, ?_⟩
  cases i <;> cases h <;> exact ⟨rfl, rfl, fun _ => rfl⟩

theorem getElem?_encode_mapWord (f : Word → Word) (i : Instruction) {k : Nat}
    (hk : k < wordOffset ∨ wordOffset + Word.size ≤ k) :
    (i.mapWord f).encode[k]? = i.encode[k]? := by
  cases hw : i.word? with
  | none => rw [mapWord_of_word?_eq_none hw]
  | some w =>
    obtain ⟨front, hfront, hencode, hmap⟩ := encode_eq_append hw
    rw [hencode, hmap]
    rcases hk with hk | hk
    · rw [List.getElem?_append_left (hfront ▸ hk), List.getElem?_append_left (hfront ▸ hk)]
    · rw [List.getElem?_eq_none, List.getElem?_eq_none] <;>
        rwa [List.length_append, Word.length_toBytes, hfront]

variable {opcode : Opcode} {mnemonic : String} {operands : List Operand} {values : List Value}

/-- No opcode takes two words, so that a word among the operands is the one of
    the instruction. -/
theorem word?_of_ofOperands? (h : ofOperands? opcode values = some i) (hw : .word w ∈ values) :
    i.word? = some w := by
  unfold ofOperands? at h
  split at h
  case h_10 => exact nomatch h
  all_goals
    obtain rfl := Option.some.inj h
    simp_all [word?]

/-- If the address among the operands changes, then so does the word of the
    instruction. -/
theorem ofOperands?_moved (h : ofOperands? opcode values = some i)
    (hv : List.Forall₂ (fun o v => ∀ r, v = .register r → o.addressOf? = none) operands values)
    (f : Word → Word) :
    ofOperands? opcode (List.zipWith (Operand.moved f) operands values) =
      some (i.mapWord (if operands.filterMap Operand.addressOf? = [] then id else f)) := by
  unfold ofOperands? at h
  split at h
  case h_10 => exact nomatch h
  all_goals
    obtain rfl := Option.some.inj h
    simp only [List.forall₂_cons_right_iff, List.forall₂_nil_right_iff] at hv
  -- By the number of operands.
  case h_9 =>
    obtain rfl := hv
    rfl
  case h_7 | h_8 =>
    obtain ⟨o, _, ho, rfl, rfl⟩ := hv
    simp_all [ofOperands?, Operand.moved, Value.mapWord, mapWord]
  case h_1 | h_2 | h_3 | h_4 | h_5 =>
    obtain ⟨o, _, ho, ⟨o', _, ho', rfl, rfl⟩, rfl⟩ := hv
    simp_all [ofOperands?, Operand.moved, Value.mapWord, mapWord]
  case h_6 =>
    obtain ⟨o, _, ho, ⟨o', _, ho', ⟨o'', _, ho'', rfl, rfl⟩, rfl⟩, rfl⟩ := hv
    simp_all [ofOperands?, Operand.moved, Value.mapWord, mapWord]

theorem ofStatement_moved (h : ofStatement mnemonic values = .ok i)
    (hv : List.Forall₂ (fun o v => ∀ r, v = .register r → o.addressOf? = none) operands values)
    (f : Word → Word) :
    ofStatement mnemonic (List.zipWith (Operand.moved f) operands values) =
      .ok (i.mapWord (if operands.filterMap Operand.addressOf? = [] then id else f)) := by
  obtain ⟨opcode, hopcode, hi⟩ := ofStatement_eq_ok_iff.1 h
  exact ofStatement_eq_ok_iff.2 ⟨opcode, hopcode, ofOperands?_moved hi hv f⟩

end Instruction

/-! ## Lines with addresses -/

namespace Source

/-- The names of which a line asks for the address. -/
def addresses : Option Line → List String
  | some (.statement _ operands) => operands.filterMap Operand.addressOf?
  | _ => []

theorem mem_addresses_iff {line : Option Line} {name : String} :
    name ∈ addresses line ↔ ∃ mnemonic operands,
      line = some (.statement mnemonic operands) ∧ .addressOf name ∈ operands := by
  have haddress (o : Operand) : o.addressOf? = some name ↔ o = .addressOf name := by
    cases o <;> simp [Operand.addressOf?]
  constructor
  · intro h
    unfold addresses at h
    split at h
    · next mnemonic operands =>
      obtain ⟨o, ho, hname⟩ := List.mem_filterMap.1 h
      exact ⟨mnemonic, operands, rfl, (haddress o).1 hname ▸ ho⟩
    · exact absurd h List.not_mem_nil
  · rintro ⟨mnemonic, operands, rfl, hmem⟩
    exact List.mem_filterMap.2 ⟨_, hmem, rfl⟩

/-- The instruction of a line, with its word `δ` further on if it is an address. -/
def movedOn (δ : Word) (line : Option Line) (c : Option Instruction) : Option Instruction :=
  c.map (Instruction.mapWord (if addresses line = [] then id else (· + δ)))

/-- The instructions of the lines, with the addresses in them `δ` further on. -/
def moved (δ : Word) (lines : List (Option Line)) (code : List (Option Instruction)) :
    List (Option Instruction) :=
  List.zipWith (movedOn δ) lines code

/-- The word of an operand `&name` is at `n` in the code. -/
def AddressAt (lines : List (Option Line)) (code : List (Option Instruction)) (name : String)
    (n : Nat) : Prop :=
  ∃ m line, lines[m]? = some line ∧ name ∈ addresses line ∧
    n = address code m + Instruction.wordOffset

end Source

/-! ## The assembler in the two memories -/

namespace Assembler

/-- The assembler is after the same lines, in a memory in which the data segment
    begins `δ` further on and none of the first two segments is smaller. -/
structure Moved (δ : Word) (a a' : Assembler) : Prop where
  programSize : a'.layout.programSize = a.layout.programSize + δ
  programSize_le : a.layout.programSize ≤ a'.layout.programSize
  dataSize_le : a.layout.dataSize ≤ a'.layout.dataSize
  current : a'.current = a.current
  labels : a'.symbols.labels = a.symbols.labels
  constants (name : String) :
    a'.symbols.constants.get? name = (a.symbols.constants.get? name).map (.moved δ)
  codeSize : a'.codeSize = a.codeSize
  data : a'.data = a.data

variable {a a' b : Assembler} {δ : Word}

theorem moved_initial {l l' : Layout} (hprogram : l.programSize ≤ l'.programSize)
    (hdata : l.dataSize ≤ l'.dataSize) :
    Moved (l'.programSize - l.programSize) (initial l) (initial l') where
  programSize := by
    change l'.programSize = l.programSize + (l'.programSize - l.programSize)
    rw [UInt32.add_comm, UInt32.sub_add_cancel]
  programSize_le := hprogram
  dataSize_le := hdata
  current := rfl
  labels := rfl
  constants _ := rfl
  codeSize := rfl
  data := rfl

namespace Moved

theorem programPointer (h : Moved δ a a') : a'.programPointer = a.programPointer :=
  congrArg UInt32.ofNat h.codeSize

theorem dataSize (h : Moved δ a a') : a'.dataSize = a.dataSize :=
  congrArg (fun data : Array Word => data.size * Word.size) h.data

theorem dataPointer (h : Moved δ a a') : a'.dataPointer = a.dataPointer + δ := by
  rw [Assembler.dataPointer, Assembler.dataPointer, h.programSize, h.dataSize, UInt32.add_assoc,
    UInt32.add_assoc, UInt32.add_comm δ]

theorem toNat_programSize (h : Moved δ a a') :
    a'.layout.programSize.toNat = a.layout.programSize.toNat + δ.toNat := by
  have hle := UInt32.le_iff_toNat_le.1 h.programSize_le
  have hlt := δ.toNat_lt
  have hlt' := a.layout.programSize.toNat_lt
  rw [h.programSize, UInt32.toNat_add] at hle ⊢
  omega

/-- An address is the only operand that has another value. -/
theorem resolve (h : Moved δ a a') {o : Operand} {v : Value} (hv : a.symbols.resolve o = .ok v) :
    a'.symbols.resolve o = .ok (o.moved (· + δ) v) := by
  cases o with
  | number n => rwa [Operand.moved_of_addressOf?_eq_none rfl]
  | symbol name =>
    rw [Operand.moved_of_addressOf?_eq_none rfl, ← hv]
    simp only [SymbolTable.resolve, SymbolTable.resolveName, h.labels, h.constants]
    cases a.symbols.constants.get? name <;> rfl
  | addressOf name =>
    simp only [SymbolTable.resolve, h.constants] at hv ⊢
    cases hc : a.symbols.constants.get? name with
    | none => simp [hc] at hv
    | some c =>
      simp only [hc, Except.ok.injEq] at hv
      obtain rfl := hv
      rfl

theorem forall₂_resolve (h : Moved δ a a') {os : List Operand} {vs : List Value}
    (hv : List.Forall₂ (fun o v => a.symbols.resolve o = .ok v) os vs) :
    List.Forall₂ (fun o v => a'.symbols.resolve o = .ok v) os
      (List.zipWith (Operand.moved (· + δ)) os vs) := by
  induction hv with
  | nil => exact .nil
  | cons ho _ ih => exact .cons (h.resolve ho) ih

end Moved

/-- What a line puts behind the code in the one memory and in the other. -/
theorem Moved.step {line : Line} (h : Moved δ a a') (hs : a.Step line b) :
    ∃ b' c, a'.Step line b' ∧ Moved δ b b' ∧ b.code.toList = a.code.toList ++ c.toList ∧
      b'.code.toList = a'.code.toList ++ (Source.movedOn δ (some line) c).toList := by
  cases hs with
  | data hn =>
    exact ⟨_, none, .data hn, { h with current := rfl }, (List.append_nil _).symm,
      (List.append_nil _).symm⟩
  | @label name label hl hr hf =>
    refine ⟨_, none, .label hl hr (h.labels ▸ hf), { h with current := rfl, labels := ?_ },
      (List.append_nil _).symm, (List.append_nil _).symm⟩
    rw [h.labels, h.programPointer]
  | @constant name value hc hv hs hr hf =>
    have hroom := UInt32.le_iff_toNat_le.1 h.dataSize_le
    refine ⟨_, none, .constant (h.current.trans hc) hv ?_ hr ?_,
      { h with constants := ?_, data := ?_, codeSize := ?_ },
      (List.append_nil _).symm, (List.append_nil _).symm⟩
    · rw [h.dataSize]
      exact Nat.le_trans hs hroom
    · rw [h.constants, hf]
      rfl
    · -- The new constant is at the data pointer, which is `δ` further on.
      intro other
      simp only [NameTable.get?_insert, h.constants, h.dataPointer]
      split <;> rfl
    · exact h.codeSize
    · rw [h.data]
  | @statement mnemonic os vs i hc hv hi hs =>
    have hroom := UInt32.le_iff_toNat_le.1 h.programSize_le
    have hi' := Instruction.ofStatement_moved hi
      (hv.imp fun _ _ => SymbolTable.addressOf?_of_resolve) (· + δ)
    refine ⟨{ a' with code := a'.code.push _ }, some i,
      .statement (h.current.trans hc) (h.forall₂_resolve hv) hi' ?_,
      { h with codeSize := ?_ }, Array.toList_push, Array.toList_push⟩
    · rw [Instruction.length_mapWord, h.codeSize]
      exact Nat.le_trans hs hroom
    · refine (codeSize_of_push rfl).trans (.trans ?_ (codeSize_of_push rfl).symm)
      rw [Instruction.length_mapWord, h.codeSize]

end Assembler

namespace Source

variable {l l' : Layout} {lines : List (Option Line)} {code : List (Option Instruction)}
  {x : Option Line} {c : Option Instruction} {a b : Assembler} {p : Program} {δ : Word}
  {name : String}

/-! ## The code of the lines -/

theorem moved_concat (h : code.length = lines.length) :
    moved δ (lines ++ [x]) (code ++ [c]) = moved δ lines code ++ [movedOn δ x c] :=
  List.zipWith_append h.symm

theorem length_moved (h : code.length = lines.length) :
    (moved δ lines code).length = code.length := by
  rw [moved, List.length_zipWith, h, Nat.min_self]

/-- The instruction that a line adds is the one that it puts behind the code. -/
theorem Reads.concat_eq (ha : Reads lines code a) (hb : Reads (lines ++ [x]) (code ++ [c]) b)
    {d : Option Instruction} (hd : b.code.toList = a.code.toList ++ d.toList) : c = d := by
  rw [hb.code_eq, ha.code_eq, List.filterMap_append] at hd
  have heq : [c].filterMap id = d.toList := List.append_cancel_left hd
  cases c <;> cases d <;> simp_all

/-- The lines that are accepted for the one memory are accepted for the other. -/
theorem exists_moved_of_feeds (hprogram : l.programSize ≤ l'.programSize)
    (hdata : l.dataSize ≤ l'.dataSize) (h : (Assembler.initial l).Feeds lines a) :
    ∃ code a', (Assembler.initial l').Feeds lines a' ∧
      Assembler.Moved (l'.programSize - l.programSize) a a' ∧ Reads lines code a ∧
      Reads lines (moved (l'.programSize - l.programSize) lines code) a' := by
  refine h.invariant (P := fun lines a => ∃ code a', (Assembler.initial l').Feeds lines a' ∧
    Assembler.Moved _ a a' ∧ Reads lines code a ∧ Reads lines (moved _ lines code) a')
    ⟨[], _, .nil _, Assembler.moved_initial hprogram hdata, reads_initial l, reads_initial l'⟩ ?_ ?_
  · rintro before a ⟨code, a', hf, hm, ha, ha'⟩
    refine ⟨code ++ [none], a', Assembler.feeds_append_iff.2 ⟨a', hf, .blank (.nil a')⟩, hm,
      ha.blank, ?_⟩
    rw [moved_concat ha.length_code]
    exact ha'.blank
  · rintro before a line b ⟨code, a', hf, hm, ha, ha'⟩ hs
    obtain ⟨b', c, hs', hm', hc, hc'⟩ := hm.step hs
    -- What the line adds to the two descriptions is what it puts behind the code.
    obtain ⟨d, hb⟩ := ha.step hs
    obtain ⟨d', hb'⟩ := ha'.step hs'
    obtain rfl := ha.concat_eq hb hc
    obtain rfl := ha'.concat_eq hb' hc'
    refine ⟨code ++ [d], b', Assembler.feeds_append_iff.2 ⟨a', hf, .line hs' (.nil b')⟩, hm',
      hb, ?_⟩
    rw [moved_concat ha.length_code]
    exact hb'

/-- The bytes of the code: the entry call and the instructions of the lines. -/
def image (entry : Address) (code : List (Option Instruction)) : List UInt8 :=
  (.jump .call entry :: code.filterMap id).flatMap Instruction.encode

theorem image_append (entry : Address) (code code' : List (Option Instruction)) :
    image entry (code ++ code') =
      image entry code ++ (code'.filterMap id).flatMap Instruction.encode := by
  rw [image, image, List.filterMap_append, ← List.cons_append, List.flatMap_append]

theorem length_image_take (entry : Address) (code : List (Option Instruction)) (n : Nat) :
    (image entry (code.take n)).length = address code n :=
  Instruction.length_flatMap_encode _

/-- The address of a line is where its instruction begins. -/
theorem drop_image (entry : Address) (code : List (Option Instruction)) (n : Nat) :
    (image entry code).drop (address code n) =
      ((code.drop n).filterMap id).flatMap Instruction.encode := by
  conv => lhs; rw [← List.take_append_drop n code, image_append]
  rw [List.take_append_drop]
  exact List.drop_left' (length_image_take entry code n)

theorem drop_image_of_word? {entry : Address} {n : Nat} {i : Instruction} {w : Word}
    (hi : code[n]? = some (some i)) (hw : i.word? = some w) :
    ((image entry code).drop (address code n + Instruction.wordOffset)).take Word.size =
      Word.toBytes w := by
  obtain ⟨hn, hi⟩ := List.getElem?_eq_some_iff.1 hi
  obtain ⟨front, hfront, hencode, -⟩ := Instruction.encode_eq_append hw
  rw [← List.drop_drop, drop_image, List.drop_eq_getElem_cons hn, hi,
    List.filterMap_cons_some (Eq.refl (id (some i))), List.flatMap_cons, hencode,
    List.append_assoc, List.drop_left' hfront]
  exact List.take_left' (Word.length_toBytes w)

theorem totalLength_moved (h : code.length = lines.length) :
    Instruction.totalLength ((moved δ lines code).filterMap id) =
      Instruction.totalLength (code.filterMap id) := by
  induction lines generalizing code with
  | nil =>
    obtain rfl := List.length_eq_zero_iff.1 h
    rfl
  | cons x lines ih =>
    obtain ⟨c, code, rfl⟩ := List.exists_cons_of_length_eq_add_one h
    have ih := ih (Nat.succ.inj h)
    cases c with
    | none => exact ih
    | some i => exact congrArg₂ (· + ·) (Instruction.length_mapWord _ i) ih

/-- No instruction is at another address. -/
theorem address_moved (h : code.length = lines.length) (n : Nat) :
    address (moved δ lines code) n = address code n := by
  have htake : (code.take n).length = (lines.take n).length := by
    rw [List.length_take, List.length_take, h]
  rw [address, address, moved, List.take_zipWith]
  exact congrArg _ (totalLength_moved htake)

theorem length_image (entry : Address) (h : code.length = lines.length) :
    (image entry code).length = address code lines.length := by
  rw [← length_image_take entry, ← h, List.take_length]

theorem getElem?_movedOn {k : Nat}
    (hk : addresses x ≠ [] → k < Instruction.wordOffset ∨ Instruction.wordOffset + Word.size ≤ k) :
    (([movedOn δ x c].filterMap id).flatMap Instruction.encode)[k]? =
      (([c].filterMap id).flatMap Instruction.encode)[k]? := by
  cases c with
  | none => rfl
  | some i =>
    change (List.flatMap Instruction.encode [i.mapWord _])[k]? =
      (List.flatMap Instruction.encode [i])[k]?
    rw [List.flatMap_singleton, List.flatMap_singleton]
    split
    · rw [Instruction.mapWord_id]
    · next h => exact Instruction.getElem?_encode_mapWord _ i (hk h)

theorem addressAt_concat (h : code.length = lines.length) {n : Nat} :
    AddressAt (lines ++ [x]) (code ++ [c]) name n ↔ AddressAt lines code name n ∨
      (name ∈ addresses x ∧ n = address code lines.length + Instruction.wordOffset) := by
  have hlast : address (code ++ [c]) lines.length = address code lines.length :=
    address_concat (Nat.le_of_eq h.symm)
  have hearlier {m : Nat} {line : Option Line} (hline : lines[m]? = some line) :
      address (code ++ [c]) m = address code m :=
    address_concat (h ▸ Nat.le_of_lt (List.getElem?_eq_some_iff.1 hline).1)
  simp only [AddressAt, getElem?_concat_eq_some_iff]
  constructor
  · rintro ⟨m, line, hline | ⟨rfl, rfl⟩, hname, rfl⟩
    · exact .inl ⟨m, line, hline, hname, by rw [hearlier hline]⟩
    · exact .inr ⟨hname, by rw [hlast]⟩
  · rintro (⟨m, line, hline, hname, rfl⟩ | ⟨hname, rfl⟩)
    · exact ⟨m, line, .inl hline, hname, by rw [hearlier hline]⟩
    · exact ⟨_, x, .inr ⟨rfl, rfl⟩, hname, by rw [hlast]⟩

/-- All bytes but those of the addresses stay as they are. -/
theorem getElem?_image_moved (entry : Address) (h : code.length = lines.length) {k : Nat}
    (hk : ∀ name n, AddressAt lines code name n → k < n ∨ n + Word.size ≤ k) :
    (image entry (moved δ lines code))[k]? = (image entry code)[k]? := by
  -- By induction on the lines, of which the last one is the last in the code.
  induction lines using List.reverseRecOn generalizing code with
  | nil =>
    obtain rfl := List.length_eq_zero_iff.1 h
    rfl
  | append_singleton lines x ih =>
    obtain ⟨code, c, rfl⟩ : ∃ code' c, code = code' ++ [c] := by
      rcases List.eq_nil_or_concat' code with rfl | hcode
      · simp at h
      · exact hcode
    have hlen : code.length = lines.length := by simpa using h
    have hlength := length_image entry hlen
    have hlength' : (image entry (moved δ lines code)).length = address code lines.length := by
      rw [length_image entry ((length_moved hlen).trans hlen), address_moved hlen]
    rw [moved_concat hlen, image_append, image_append]
    by_cases hbefore : k < address code lines.length
    · rw [List.getElem?_append_left (hlength' ▸ hbefore),
        List.getElem?_append_left (hlength ▸ hbefore)]
      exact ih hlen fun name n hn => hk name n ((addressAt_concat hlen).2 (.inl hn))
    · have hbehind := Nat.not_lt.1 hbefore
      rw [List.getElem?_append_right (hlength' ▸ hbehind),
        List.getElem?_append_right (hlength ▸ hbehind), hlength, hlength']
      refine getElem?_movedOn fun hx => ?_
      obtain ⟨name, hname⟩ := List.exists_mem_of_ne_nil _ hx
      have hx := hk name _ ((addressAt_concat hlen).2 (.inr ⟨hname, rfl⟩))
      omega

/-! ## Programs for the two memories -/

/-- The word of an operand `&name` is the address of the constant `name`. -/
theorem Describes.word_eq (h : Describes l lines code p) {n : Nat}
    (hn : AddressAt lines code name n) : ∃ c, p.constants.get? name = some c ∧
      (p.code.drop n).take Word.size = Word.toBytes c.address := by
  obtain ⟨m, line, hline, hname, rfl⟩ := hn
  obtain ⟨mnemonic, operands, rfl, hmem⟩ := mem_addresses_iff.1 hname
  have hm : m < code.length := h.length_code ▸ (List.getElem?_eq_some_iff.1 hline).1
  have hcode := List.getElem?_eq_getElem hm
  have hassembles := h.assembles hline hcode
  generalize code[m] = d at hcode hassembles
  obtain _ | _ | _ | ⟨hvalues, hi⟩ := hassembles
  obtain ⟨v, hv, hdenotes⟩ := hvalues.exists_mem hmem
  obtain _ | _ | _ | _ | ⟨-, hconstant, haddress⟩ := hdenotes
  obtain ⟨c, hc, haddress', -⟩ := h.constant hconstant
  obtain rfl := UInt32.toNat_inj.1 (haddress.trans haddress'.symm)
  obtain ⟨opcode, -, hi⟩ := Instruction.ofStatement_eq_ok_iff.1 hi
  refine ⟨c, hc, ?_⟩
  rw [h.code_eq]
  exact drop_image_of_word? hcode (Instruction.word?_of_ofOperands? hi hv)

/-- The program `p'` is `p` with the data segment `δ` further on, where `words` tells
    which words of the code are the addresses of which constants. -/
structure Relocates (δ : Word) (words : String → Nat → Prop) (p p' : Program) : Prop where
  data : p'.data = p.data
  entryPoint : p'.entryPoint = p.entryPoint
  labels : p'.labels = p.labels
  constants (name : String) :
    p'.constants.get? name = (p.constants.get? name).map (.moved δ)
  /-- No address wraps around. -/
  toNat_address {name : String} {c : Constant} : p.constants.get? name = some c →
    (c.address + δ).toNat = c.address.toNat + δ.toNat
  length_code : p'.code.length = p.code.length
  word {name : String} {n : Nat} : words name n → ∃ c, p.constants.get? name = some c ∧
    (p.code.drop n).take Word.size = Word.toBytes c.address ∧
    (p'.code.drop n).take Word.size = Word.toBytes (c.address + δ)
  byte {k : Nat} : (∀ name n, words name n → k < n ∨ n + Word.size ≤ k) →
    p'.code[k]? = p.code[k]?

/-- Nothing is different if the data segment is where it was. -/
theorem Relocates.eq {words : String → Nat → Prop} {p' : Program}
    (h : Relocates 0 words p p') : p' = p := by
  have hconstants : p'.constants = p.constants := NameTable.ext_get? fun name => by
    rw [h.constants]
    cases p.constants.get? name with
    | none => rfl
    | some c => rw [Option.map_some, Constant.moved, UInt32.add_zero]
  have hcode : p'.code = p.code := List.ext_getElem? fun k => by
    by_cases hk : ∀ name n, words name n → k < n ∨ n + Word.size ≤ k
    · exact h.byte hk
    · -- A byte of an address, which is the same in both programs.
      push Not at hk
      obtain ⟨name, n, hn, hle, hlt⟩ := hk
      obtain ⟨c, -, hword, hword'⟩ := h.word hn
      rw [UInt32.add_zero, ← hword] at hword'
      have heq := congrArg (·[k - n]?) hword'
      simp only [List.getElem?_take_of_lt (Nat.sub_lt_left_of_lt_add hle hlt), List.getElem?_drop,
        Nat.add_sub_cancel' hle] at heq
      exact heq
  cases p
  cases p'
  rw [Program.mk.injEq]
  exact ⟨hcode, h.data, h.entryPoint, h.labels, hconstants⟩

theorem toNat_address_of_moved {a' : Assembler} (hm : Assembler.Moved δ a a')
    (ha : Reads lines code a) (ha' : Reads lines (moved δ lines code) a') {c : Constant}
    (hc : a.symbols.constants.get? name = some c) :
    (c.address + δ).toNat = c.address.toNat + δ.toNat := by
  have hc' : a'.symbols.constants.get? name = some (c.moved δ) := by rw [hm.constants, hc]; rfl
  obtain ⟨m, value, hmem, haddress, -⟩ := ha.constants_iff.1 hc
  obtain ⟨m', value', hmem', haddress', -⟩ := ha'.constants_iff.1 hc'
  obtain rfl := ha.constant_once hmem hmem'
  rw [dataAddress] at haddress haddress'
  rw [hm.toNat_programSize] at haddress'
  change (c.address + δ).toNat = _ at haddress'
  omega

theorem exists_relocates_of_finish {a' : Assembler} (hm : Assembler.Moved δ a a')
    (ha : Reads lines code a) (ha' : Reads lines (moved δ lines code) a')
    (hp : a.finish = .ok p) :
    ∃ p', a'.finish = .ok p' ∧ Relocates δ (AddressAt lines code) p p' := by
  have hdescribes := ha.finish hp
  obtain ⟨entry, hentry, rfl⟩ := Assembler.finish_eq_ok_iff.1 hp
  have hp' : a'.finish = .ok (a'.program entry) :=
    Assembler.finish_eq_ok_iff.2 ⟨entry, hm.labels ▸ hentry, rfl⟩
  have hdescribes' := ha'.finish hp'
  have hlen := ha.length_code
  refine ⟨_, hp', ?_⟩
  constructor
  case data =>
    rw [Assembler.program, hm.data]
    rfl
  case entryPoint => rfl
  case labels => exact hm.labels
  case constants => exact hm.constants
  case toNat_address => exact toNat_address_of_moved hm ha ha'
  case length_code =>
    rw [Assembler.length_code_program, Assembler.length_code_program, hm.codeSize]
  case word =>
    intro name n hn
    have hn' : AddressAt lines (moved δ lines code) name n := by
      obtain ⟨m, line, hline, hname, rfl⟩ := hn
      exact ⟨m, line, hline, hname, by rw [address_moved hlen]⟩
    obtain ⟨c, hc, hword⟩ := hdescribes.word_eq hn
    obtain ⟨c', hc', hword'⟩ := hdescribes'.word_eq hn'
    have hmoved := (hm.constants name).symm.trans hc'
    rw [show a.symbols.constants.get? name = some c from hc] at hmoved
    obtain rfl := Option.some.inj hmoved
    exact ⟨c, hc, hword, hword'⟩
  case byte =>
    intro k hk
    rw [hdescribes.code_eq, hdescribes'.code_eq]
    exact getElem?_image_moved entry hlen hk

/-- A text that is a program for one memory is a program for every other one in
    which neither the program segment nor the data segment is smaller, whatever the
    stack. The two programs are the same but for the addresses of constants, which
    are further on by what the program segment is larger. -/
theorem assemble_relocates {source : String} (hprogram : l.programSize ≤ l'.programSize)
    (hdata : l.dataSize ≤ l'.dataSize) (h : assemble l source = .ok p) :
    ∃ p' lines code, assemble l' source = .ok p' ∧
      Assembler.Parses (textLines source) lines ∧ Describes l lines code p ∧
      Relocates (l'.programSize - l.programSize) (AddressAt lines code) p p' ∧
      (l'.programSize = l.programSize → p' = p) := by
  obtain ⟨lines, a, hparses, hfeeds, hp⟩ := assemble_eq_ok_iff.1 h
  obtain ⟨code, a', hfeeds', hm, ha, ha'⟩ := exists_moved_of_feeds hprogram hdata hfeeds
  obtain ⟨p', hp', hrelocates⟩ := exists_relocates_of_finish hm ha ha' hp
  have hl : a.layout = l := hfeeds.layout
  refine ⟨p', lines, code, assemble_eq_ok_iff.2 ⟨lines, a', hparses, hfeeds', hp'⟩, hparses,
    hl ▸ ha.finish hp, hrelocates, fun hsize => ?_⟩
  rw [hsize, UInt32.sub_self] at hrelocates
  exact hrelocates.eq

/-- A memory with more room than the one of the sample text. -/
def roomyLayout : Layout where
  programSize := 48
  dataSize := 8
  stackSize := 16
  aligned := by decide
  nonempty := by decide
  total_lt := by decide

/-- The sample text stores to the address of `f`. -/
theorem assemble_relocates_sample :
    assemble sampleLayout sampleText = .ok sampleProgram ∧
      ∃ p' lines code, assemble roomyLayout sampleText = .ok p' ∧
        Assembler.Parses (textLines sampleText) lines ∧
        Describes sampleLayout lines code sampleProgram ∧
        Relocates (roomyLayout.programSize - sampleLayout.programSize) (AddressAt lines code)
          sampleProgram p' ∧
        (roomyLayout.programSize = sampleLayout.programSize → p' = sampleProgram) :=
  ⟨by decide +kernel, assemble_relocates (by decide) (by decide) (by decide +kernel)⟩

end Source

end Machine32
