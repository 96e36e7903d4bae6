import Machine32.Proofs.Assembly.Names

/-!
# Where instructions are put

The assembler puts an instruction at the address that its program pointer has
before the line of the instruction (`Emits`). These addresses, and that of the
entry call, are the addresses at which the instructions are located in the code
(`emitted_iff`), and all labels stand for one of them or for the end of the code
(`Regular.target_of_label`).
-/

namespace Machine32

namespace Instruction

/-- What makes an instruction up from its mnemonic and operands. -/
theorem ofStatement_eq_ok_iff {mnemonic : String} {values : List Value} {i : Instruction} :
    ofStatement mnemonic values = .ok i ↔
      ∃ opcode, Opcode.ofMnemonic? mnemonic = some opcode ∧ ofOperands? opcode values = some i := by
  rw [ofStatement]
  cases Opcode.ofMnemonic? mnemonic with
  | none => simp
  | some opcode => cases h : ofOperands? opcode values <;> simp [h]

/-- The operand of a jump is a word. -/
theorem word_of_ofOperands? {opcode : Opcode} {v : Value} {op : JumpOp} {x : Address}
    (h : ofOperands? opcode [v] = some (jump op x)) : v = .word x := by
  cases opcode <;> cases v <;> simp [ofOperands?] at h
  exact congrArg Value.word h.2

end Instruction

namespace Assembler

variable {a b c : Assembler} {l : Layout} {line : Line} {lines : List (Option Line)}

/-! ## Lines in a text -/

/-- There is one state after an accepted line. -/
theorem Step.unique (hb : a.Step line b) (hc : a.Step line c) : b = c :=
  Except.ok.inj ((feedParsed_eq_ok_iff.2 hb).symm.trans (feedParsed_eq_ok_iff.2 hc))

theorem Feeds.unique (hb : a.Feeds lines b) (hc : a.Feeds lines c) : b = c := by
  induction hb with
  | nil =>
    cases hc
    rfl
  | blank _ ih =>
    cases hc with
    | blank hc => exact ih hc
  | line hs _ ih =>
    cases hc with
    | line hs' hc => exact ih (hs.unique hs' ▸ hc)

theorem feeds_append_iff {lines' : List (Option Line)} :
    a.Feeds (lines ++ lines') c ↔ ∃ b, a.Feeds lines b ∧ b.Feeds lines' c := by
  induction lines generalizing a with
  | nil =>
    constructor
    · exact fun h => ⟨a, .nil a, h⟩
    · rintro ⟨_, ⟨⟩, h⟩
      exact h
  | cons x lines ih =>
    constructor
    · rintro (_ | h | ⟨hs, h⟩)
      · obtain ⟨b, hb, hc⟩ := ih.1 h
        exact ⟨b, .blank hb, hc⟩
      · obtain ⟨b, hb, hc⟩ := ih.1 h
        exact ⟨b, .line hs hb, hc⟩
    · rintro ⟨b, _ | hb | ⟨hs, hb⟩, hc⟩
      · exact .blank (ih.2 ⟨b, hb, hc⟩)
      · exact .line hs (ih.2 ⟨b, hb, hc⟩)

/-- A line is an instruction or leaves the code as it is. -/
theorem Step.code_eq (h : a.Step line b) : b.code = a.code ∨ ∃ i, b.code = a.code.push i := by
  cases h with
  | data | label | constant => exact .inl rfl
  | statement => exact .inr ⟨_, rfl⟩

/-- The code only grows. -/
theorem Feeds.code_eq (h : a.Feeds lines b) : ∃ is, b.code.toList = a.code.toList ++ is := by
  induction h with
  | nil => exact ⟨[], (List.append_nil _).symm⟩
  | blank _ ih => exact ih
  | line hs _ ih =>
    obtain ⟨is, his⟩ := ih
    rcases hs.code_eq with heq | ⟨i, heq⟩
    · exact ⟨is, by rw [his, heq]⟩
    · exact ⟨i :: is, by rw [his, heq, Array.toList_push, List.append_assoc]; rfl⟩

/-- A label stays bound. -/
theorem Step.get?_label (h : a.Step line b) {name : String} {x : Address}
    (hx : a.symbols.labels.get? name = some x) : b.symbols.labels.get? name = some x := by
  cases h with
  | data | constant | statement => exact hx
  | @label _ label _ _ hnone =>
    have hne : name ≠ label := by
      rintro rfl
      exact nomatch hnone.symm.trans hx
    exact (NameTable.get?_insert_of_ne hne _).trans hx

theorem Feeds.get?_label (h : a.Feeds lines b) {name : String} {x : Address}
    (hx : a.symbols.labels.get? name = some x) : b.symbols.labels.get? name = some x := by
  induction h with
  | nil => exact hx
  | blank _ ih => exact ih hx
  | line hs _ ih => exact ih (hs.get?_label hx)

/-! ## Emitted instructions -/

/-- The assembler comes from the state `a` to the state `b` on a line of the
    text `lines`. -/
def StepsOn (l : Layout) (lines : List (Option Line)) (line : Line) (a b : Assembler) : Prop :=
  ∃ before after, lines = before ++ some line :: after ∧ (initial l).Feeds before a ∧ a.Step line b

/-- The assembler puts the instruction `i` at the address `x`, which is its
    program pointer there. -/
def Emits (l : Layout) (lines : List (Option Line)) (x : Address) (i : Instruction) : Prop :=
  ∃ line a b, StepsOn l lines line a b ∧ b.code = a.code.push i ∧ x = a.programPointer

theorem Emits.append {x : Address} {i : Instruction} (h : Emits l lines x i)
    (lines' : List (Option Line)) : Emits l (lines ++ lines') x i := by
  obtain ⟨line, a, b, ⟨before, after, rfl, ha⟩, hi⟩ := h
  exact ⟨line, a, b, ⟨before, after ++ lines', by rw [List.append_assoc]; rfl, ha⟩, hi⟩

theorem bounded_of_feeds (h : (initial l).Feeds lines a) : a.Bounded :=
  h.invariant (P := fun _ a => a.Bounded) (bounded_initial l) (fun _ _ h => h)
    fun _ _ _ _ h hs => hs.bounded h

/-- What the rest of a text leaves of the state on a line of it. -/
theorem StepsOn.feeds (h : StepsOn l lines line a b) (hc : (initial l).Feeds lines c) :
    a.Bounded ∧ ∃ after, b.Feeds after c := by
  obtain ⟨before, after, rfl, ha, hs⟩ := h
  obtain ⟨a', ha', hrest⟩ := feeds_append_iff.1 hc
  obtain rfl := ha.unique ha'
  rcases hrest with _ | _ | ⟨hs', hrest⟩
  exact ⟨bounded_of_feeds ha, after, hs.unique hs' ▸ hrest⟩

/-- The instructions that are put somewhere are those located there in the
    code. -/
theorem emits_iff (h : (initial l).Feeds lines c) {x : Address} {i : Instruction} :
    Emits l lines x i ↔ (x.toNat, i) ∈ Instruction.located entryLength c.code.toList := by
  constructor
  · -- The instructions behind it do not move it.
    rintro ⟨line, a, b, hs, hi, rfl⟩
    obtain ⟨ha, after, hrest⟩ := hs.feeds h
    obtain ⟨is, his⟩ := hrest.code_eq
    rw [hi, Array.toList_push, List.append_assoc] at his
    refine Instruction.mem_located_iff.2 ⟨_, is, his, ?_⟩
    rw [ha.toNat_programPointer, codeSize_eq_totalLength]
  · -- By induction on the lines, of which only the last one may put it there.
    intro hmem
    refine (h.invariant (P := fun lines c => (initial l).Feeds lines c ∧ ∀ x i,
      (x.toNat, i) ∈ Instruction.located entryLength c.code.toList → Emits l lines x i)
      ⟨.nil _, fun _ _ hmem => absurd hmem List.not_mem_nil⟩ ?_ ?_).2 x i hmem
    · intro before a ⟨ha, hemits⟩
      refine ⟨feeds_append_iff.2 ⟨a, ha, .blank (.nil a)⟩, fun x i hmem => ?_⟩
      exact (hemits x i hmem).append [none]
    · intro before a line b ⟨ha, hemits⟩ hs
      refine ⟨feeds_append_iff.2 ⟨a, ha, .line hs (.nil b)⟩, fun x i hmem => ?_⟩
      rcases hs.code_eq with heq | ⟨j, heq⟩
      · rw [heq] at hmem
        exact (hemits x i hmem).append [some line]
      rw [heq, Array.toList_push, Instruction.located_append] at hmem
      rcases List.mem_append.1 hmem with hmem | hmem
      · exact (hemits x i hmem).append [some line]
      -- The instruction of this line.
      obtain ⟨hx, rfl⟩ := Prod.mk.inj (List.mem_singleton.1 hmem)
      refine ⟨line, a, b, ⟨before, [], rfl, ha, hs⟩, heq, UInt32.toNat_inj.1 ?_⟩
      rw [hx, (bounded_of_feeds ha).toNat_programPointer, codeSize_eq_totalLength]

/-- The instruction `i` of an assembled program is at the address `x`: the entry
    call at the start, all others where the assembler puts them. -/
def Emitted (l : Layout) (lines : List (Option Line)) (p : Program) (x : Address)
    (i : Instruction) : Prop :=
  (x = 0 ∧ i = .jump .call p.entryPoint) ∨ Emits l lines x i

/-- The instructions of a program, in the order of its code. -/
def instructions (a : Assembler) (entry : Address) : List Instruction :=
  .jump .call entry :: a.code.toList

/-- The instructions of an assembled program are at their places in its code. -/
theorem emitted_iff (h : (initial l).Feeds lines a) {entry x : Address} {i : Instruction} :
    Emitted l lines (a.program entry) x i ↔
      (x.toNat, i) ∈ Instruction.located 0 (a.instructions entry) := by
  rw [Emitted, emits_iff h, instructions, Instruction.located, List.mem_cons, Prod.mk.injEq]
  refine or_congr_left (and_congr_left fun _ => ?_)
  exact UInt32.toNat_inj.symm

/-- The address `x` is that of an instruction of an assembled program, or the
    end of its code. -/
def Target (l : Layout) (lines : List (Option Line)) (p : Program) (x : Address) : Prop :=
  (∃ i, Emitted l lines p x i) ∨ x.toNat = p.code.length

theorem target_iff (h : (initial l).Feeds lines a) {entry x : Address} :
    Target l lines (a.program entry) x ↔
      Instruction.Boundary 0 (a.instructions entry) x.toNat := by
  have hlength : (a.program entry).code.length =
      0 + Instruction.totalLength (a.instructions entry) :=
    (Instruction.length_flatMap_encode _).trans (Nat.zero_add _).symm
  rw [Target, hlength]
  exact or_congr_left (exists_congr fun i => emitted_iff h)

/-- What a label stands for is the address of an instruction, or the end of the
    code. -/
theorem Regular.target_of_label (h : (initial l).Feeds lines a) (ha : a.Regular) {name : String}
    {x : Address} (hx : a.symbols.labels.get? name = some x) (entry : Address) :
    Target l lines (a.program entry) x := by
  rw [target_iff h]
  obtain ⟨pre, post, heq, hpre⟩ := Instruction.boundary_iff.1 (ha.boundary hx)
  refine Instruction.boundary_iff.2 ⟨.jump .call entry :: pre, post, ?_, ?_⟩
  · rw [instructions, heq]
    rfl
  · rw [hpre, Instruction.totalLength_cons, Nat.zero_add]
    rfl

/-- A jump of which the operand is the name of a label goes to the address that
    the label stands for. -/
theorem Step.label_of_jump {mnemonic name : String} {op : JumpOp} {x : Address}
    (h : a.Step (.statement mnemonic [.symbol name]) b) (hcode : b.code = a.code.push (.jump op x))
    (hconstant : a.symbols.constants.get? name = none) :
    a.symbols.labels.get? name = some x := by
  obtain _ | _ | _ | ⟨_, hvalues, hi, _⟩ := h
  obtain ⟨rfl, -⟩ := Array.push_eq_push.1 hcode
  obtain _ | ⟨hv, ⟨⟩⟩ := hvalues
  obtain ⟨opcode, -, hoperands⟩ := Instruction.ofStatement_eq_ok_iff.1 hi
  obtain rfl := Instruction.word_of_ofOperands? hoperands
  simp only [SymbolTable.resolve, SymbolTable.resolveName, hconstant] at hv
  split at hv
  · exact nomatch hv
  split at hv
  · next y hy =>
    obtain rfl := Value.word.inj (Except.ok.inj hv)
    exact hy
  · exact nomatch hv

end Assembler

end Machine32
