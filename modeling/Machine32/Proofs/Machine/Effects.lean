import Machine32.Machine.Execute
import Machine32.Proofs.Result
import Machine32.Proofs.Memory.Accesses

/-!
# What an instruction does

What an instruction that is executed leaves behind, one part of the state at a
time: the memory, the stack pointer and the instruction pointer. Where it
matters an instruction is of one of three kinds:

* it pushes a word (`Instruction.pushed?`), and then goes somewhere;
* it pops a word (`Instruction.pops`), which `Instruction.popped` goes on with;
* it leaves the stack alone.

It writes one word to memory (`Instruction.written?`), or reads one
(`Instruction.readAt?`), or does nothing there. It sets one register at most
(`Instruction.sets?`), and goes on from the instruction pointer that it leaves, if it
does not jump or return. `Instruction.after` puts this together, and
`State.execute_eq_after` says that it is all that an instruction does. What fails is one
of three things, after which memory is as before (`State.execute_eq_error_iff`).
-/

namespace Machine32

theorem Register.ne_of_mem_general {r : Register} (h : r ∈ general) : r ≠ .ip ∧ r ≠ .zf := by
  cases r <;> revert h <;> decide

namespace Registers

/-- The registers `s` with `r` set to the word `w` by an instruction with the opcode
    `op`, which may set the zero flag, too. -/
def settle (s : Registers) (op : Opcode) (r : Register) (w : Word) : Registers :=
  if op.setsZeroFlag then { s.write r w with zeroFlag := w == 0 } else s.write r w

variable {s : Registers} {op : Opcode} {r q : Register} {w : Word}

theorem read_settle (hq : q ≠ .zf) : (s.settle op r w).read q = (s.write r w).read q := by
  rw [settle]
  split
  · cases q with
    | zf => exact absurd rfl hq
    | _ => rfl
  · rfl

end Registers

namespace Instruction

/-- The register that an instruction sets. -/
def destination? : Instruction → Option Register
  | mov dst _ | movImm dst _ | load dst _ | alu _ dst _ _ | unary .not dst | unary .pop dst =>
    some dst
  | store .. | unary .push _ | jump .. | ret => none

/-- The word that an instruction pushes in the state `s`. -/
def pushed? (s : State) : Instruction → Option Word
  | unary .push reg => some (s.read reg)
  | jump op _ => if op.taken s.registers.zeroFlag then some s.registers.ip else none
  | _ => none

/-- Whether an instruction pops a word. -/
def pops : Instruction → Bool
  | unary .pop _ | ret => true
  | _ => false

/-- Where an instruction goes that pushes a word. -/
def continuation (s : State) : Instruction → Address
  | jump _ address => address
  | i => s.registers.ip + UInt32.ofNat i.length

/-- How an instruction that pops the word `w` goes on in the state `s`. -/
def popped (w : Word) (s : State) : Instruction → State
  | ret => s.goto (w + UInt32.ofNat Shape.jump.length)
  | unary op reg => (s.write reg w).advance (unary op reg).length
  | _ => s

/-- The word that an instruction writes to memory in the state `s`, with its
    address. -/
def written? (s : State) (i : Instruction) : Option (Address × Word) :=
  match i with
  | store address reg => some (address, s.read reg)
  | i => (i.pushed? s).map fun w => (s.registers.esp - 4, w)

/-- The address of the word that an instruction reads from memory in the state
    `s`. -/
def readAt? (s : State) : Instruction → Option Address
  | load _ address => some address
  | unary .pop _ | ret => some s.registers.esp
  | _ => none

/-- The memory after an instruction executed in the state `s`. -/
def memoryAfter (s : State) (i : Instruction) : Memory :=
  match i.written? s, i.readAt? s with
  | some (a, w), _ => s.memory.writeWord a w
  | none, some a => (s.memory.readWord a).2
  | none, none => s.memory

/-- The register that an instruction sets in the state `s`, and the word that it sets it
    to. -/
def sets? (s : State) : Instruction → Option (Register × Word)
  | mov dst src => some (dst, s.read src)
  | movImm dst imm => some (dst, imm)
  | load dst address => some (dst, s.memory.peekWord address)
  | alu op dst src₁ src₂ => (op.eval? (s.read src₁) (s.read src₂)).map fun w => (dst, w)
  | unary .not dst => some (dst, ~~~(s.read dst))
  | unary .pop dst => some (dst, s.memory.peekWord s.registers.esp)
  | store .. | unary .push _ | jump .. | ret => none

/-- The stack pointer when an instruction executed in the state `s` has pushed or
    popped. -/
def espAfter (s : State) (i : Instruction) : Word :=
  if (i.pushed? s).isSome then s.registers.esp - 4
  else if i.pops then s.registers.esp + 4
  else s.registers.esp

/-- The registers when an instruction executed in the state `s` has set its
    destination. -/
def settled (s : State) (i : Instruction) : Registers :=
  let registers := s.registers.write .esp (i.espAfter s)
  match i.sets? s with
  | some (r, w) => registers.settle i.opcode r w
  | none => registers

/-- Where an instruction executed in the state `s` goes. -/
def nextAddress (s : State) (i : Instruction) : Address :=
  match i with
  | jump op a =>
    if op.taken s.registers.zeroFlag then a else s.registers.ip + UInt32.ofNat i.length
  | ret => s.memory.peekWord s.registers.esp + UInt32.ofNat Shape.jump.length
  | i => (i.settled s).ip + UInt32.ofNat i.length

/-- The registers after an instruction executed in the state `s`. -/
def registersAfter (s : State) (i : Instruction) : Registers :=
  (i.settled s).write .ip (i.nextAddress s)

/-- The state after an instruction executed in the state `s`, which is not counted yet. -/
def after (s : State) (i : Instruction) : State where
  registers := i.registersAfter s
  memory := i.memoryAfter s
  cycles := s.cycles

/-- The address of the word that an instruction writes to memory or reads from it
    in the state `s`. -/
def accessed? (s : State) (i : Instruction) : Option Address :=
  ((i.written? s).map (·.1)).or (i.readAt? s)

/-- The instruction stores to none of the addresses from `start` up to `stop`. -/
def StoresOutside (start stop : Nat) : Instruction → Prop
  | store address _ => ∀ i < Word.size,
    ¬(start ≤ (address + UInt32.ofNat i).toNat ∧ (address + UInt32.ofNat i).toNat < stop)
  | _ => True

instance (start stop : Nat) (i : Instruction) : Decidable (i.StoresOutside start stop) :=
  match i with
  | store .. => inferInstanceAs (Decidable (∀ _ < _, _))
  | mov .. | movImm .. | load .. | alu .. | unary .. | jump .. | ret =>
    inferInstanceAs (Decidable True)

variable {s : State} {op : JumpOp} {a : Address} {w : Word}

theorem pops_cases {i : Instruction} (h : i.pops = true) :
    i = .ret ∨ ∃ reg, i = .unary .pop reg := by
  cases i with
  | ret => exact .inl rfl
  | unary op reg =>
    cases op with
    | pop => exact .inr ⟨reg, rfl⟩
    | not | push => exact nomatch h
  | _ => exact nomatch h

theorem pushed?_of_pops {i : Instruction} (h : i.pops = true) : i.pushed? s = none := by
  rcases pops_cases h with rfl | ⟨reg, rfl⟩ <;> rfl

theorem pushed?_jump_eq_some_iff :
    (jump op a).pushed? s = some w ↔
      op.taken s.registers.zeroFlag = true ∧ w = s.registers.ip := by
  rw [pushed?, ite_eq_iff']
  by_cases h : op.taken s.registers.zeroFlag = true <;> simp [h, eq_comm]

theorem pushed?_jump_eq_none_iff :
    (jump op a).pushed? s = none ↔ ¬op.taken s.registers.zeroFlag = true := by
  rw [pushed?, ite_eq_right_iff]
  exact forall_congr' fun _ => ⟨fun h => (nomatch h), False.elim⟩

theorem pushed?_cases {i : Instruction} (h : i.pushed? s = some w) :
    (∃ reg, i = .unary .push reg ∧ w = s.read reg) ∨
      ∃ op a, i = .jump op a ∧ op.taken s.registers.zeroFlag = true ∧ w = s.registers.ip := by
  cases i with
  | unary op reg =>
    cases op with
    | push => exact .inl ⟨reg, rfl, (Option.some.inj h).symm⟩
    | not | pop => exact nomatch h
  | jump op a =>
    obtain ⟨htaken, hw⟩ := pushed?_jump_eq_some_iff.1 h
    exact .inr ⟨op, a, rfl, htaken, hw⟩
  | _ => exact nomatch h

theorem destination?_of_sets? {i : Instruction} {r : Register} (h : i.sets? s = some (r, w)) :
    i.destination? = some r := by
  cases i with
  | alu op dst src₁ src₂ =>
    obtain ⟨v, -, heq⟩ := Option.map_eq_some_iff.1 h
    exact congrArg (some ·.1) heq
  | unary op reg =>
    cases op with
    | push => exact nomatch h
    | not | pop => exact congrArg (·.map Prod.fst) h
  | mov | movImm | load => exact congrArg (·.map Prod.fst) h
  | store | jump | ret => exact nomatch h

/-- An instruction leaves the registers alone that it does not set. -/
theorem read_settled_of_ne {i : Instruction} {r : Register} (hr : r ≠ .zf)
    (h : i.destination? ≠ some r) :
    (i.settled s).read r = (s.registers.write .esp (i.espAfter s)).read r := by
  cases hsets : i.sets? s with
  | none =>
    rw [settled, hsets]
  | some x =>
    have hne : r ≠ x.1 := fun heq => h (heq ▸ destination?_of_sets? hsets)
    rw [settled, hsets]
    exact (Registers.read_settle hr).trans (Registers.read_write_of_ne _ hne _)

/-- An instruction leaves a general register as the stack does, if it does not set it. -/
theorem read_registersAfter_of_ne {i : Instruction} {r : Register} (hr : r ∈ Register.general)
    (h : i.destination? ≠ some r) :
    (i.registersAfter s).read r = (s.registers.write .esp (i.espAfter s)).read r := by
  obtain ⟨hip, hzf⟩ := Register.ne_of_mem_general hr
  exact (Registers.read_write_of_ne _ hip _).trans (read_settled_of_ne hzf h)

theorem memoryAfter_of_written? {i : Instruction} (h : i.written? s = some (a, w)) :
    i.memoryAfter s = s.memory.writeWord a w := by
  rw [memoryAfter, h]

theorem memoryAfter_of_readAt? {i : Instruction} (hw : i.written? s = none)
    (h : i.readAt? s = some a) : i.memoryAfter s = (s.memory.readWord a).2 := by
  rw [memoryAfter, hw, h]

theorem registersAfter_of_pushed? {i : Instruction} (h : i.pushed? s = some w) :
    i.registersAfter s =
      (s.registers.write .esp (s.registers.esp - 4)).write .ip (i.continuation s) := by
  have hesp : i.espAfter s = s.registers.esp - 4 := if_pos (by rw [h, Option.isSome_some])
  rcases pushed?_cases h with ⟨reg, rfl, -⟩ | ⟨op, a, rfl, htaken, -⟩
  · rfl
  · rw [registersAfter, settled, hesp, nextAddress, if_pos htaken]
    rfl

end Instruction

/-- Only a division has no result, and only by zero. -/
theorem AluOp.eval?_eq_none_iff {op : AluOp} {a b : Word} :
    op.eval? a b = none ↔ op = .div ∧ b = 0 := by
  cases op <;> simp [eval?]

namespace State

variable {s t : State} {i : Instruction} {r : Register} {w : Word} {stop : Stop}

/-! ## Parts of the state -/

@[simp] theorem write_memory (s : State) (r : Register) (w : Word) :
    (s.write r w).memory = s.memory := rfl

@[simp] theorem store_memory (s : State) (a : Address) (w : Word) :
    (s.store a w).memory = s.memory.writeWord a w := by
  rw [store]

@[simp] theorem store_registers (s : State) (a : Address) (w : Word) :
    (s.store a w).registers = s.registers := by
  rw [store]

@[simp] theorem load_memory (s : State) (a : Address) :
    (s.load a).2.memory = (s.memory.readWord a).2 := by
  rw [load]

@[simp] theorem load_registers (s : State) (a : Address) :
    (s.load a).2.registers = s.registers := by
  rw [load]

theorem load_eq (s : State) (a : Address) :
    s.load a = (s.memory.peekWord a, { s with memory := (s.memory.readWord a).2 }) :=
  Prod.ext (s.memory.readWord_fst a) (by rw [load])

theorem writeResult_eq (s : State) (op : AluOp) (r : Register) (w : Word) :
    s.writeResult op r w = { s with registers := s.registers.settle (.alu op) r w } := by
  rw [writeResult, Registers.settle]
  change ite (op.setsZeroFlag = true) _ _ = { s with registers := ite (op.setsZeroFlag = true) _ _ }
  split <;> rfl

@[simp] theorem write_esp (s : State) (w : Word) : (s.write .esp w).registers.esp = w := rfl

theorem read_write_of_ne {r q : Register} (h : q ≠ r) (w : Word) :
    (s.write r w).read q = s.read q :=
  s.registers.read_write_of_ne h w

/-! ## Pushing and popping -/

theorem push_eq_ok_iff :
    s.push w = .ok t ↔ s.stack.start.toNat + Word.size ≤ s.registers.esp.toNat ∧
      t = (s.write .esp (s.registers.esp - 4)).store (s.registers.esp - 4) w := by
  simp only [push]
  split
  · next h => simp [Nat.not_le.2 h]
  · next h => simp [Nat.not_lt.1 h, eq_comm]

/-- A pushed word is in the stack segment, right below the stack pointer. -/
theorem push_address (h : s.push w = .ok t) :
    s.stack.start.toNat ≤ (s.registers.esp - 4).toNat ∧
      (s.registers.esp - 4).toNat + Word.size = s.registers.esp.toNat := by
  obtain ⟨hroom, -⟩ := push_eq_ok_iff.1 h
  rw [Word.size] at hroom ⊢
  have hsp : (s.registers.esp - 4).toNat = s.registers.esp.toNat - 4 := by
    refine UInt32.toNat_sub_of_le _ _ (UInt32.le_iff_toNat_le.2 ?_)
    exact Nat.le_trans (Nat.le_add_left ..) hroom
  omega

theorem push_stack (h : s.push w = .ok t) : t.stack = s.stack := by
  obtain ⟨-, rfl⟩ := push_eq_ok_iff.1 h
  rw [stack, stack, store_memory, Memory.writeWord_layout, write_memory]

theorem push_eq_error_iff :
    s.push w = .error stop ↔ s.registers.esp.toNat < s.stack.start.toNat + Word.size ∧
      stop = ⟨.stackOverflow (s.registers.esp - 4), s.write .esp (s.registers.esp - 4)⟩ := by
  simp only [push]
  split
  · next h => simp [h, eq_comm]
  · next h => simp [h]

theorem pop_eq_ok_iff :
    s.pop = .ok (w, t) ↔ s.registers.esp < s.stack.stop ∧
      w = s.memory.peekWord s.registers.esp ∧
      t = (s.load s.registers.esp).2.write .esp (s.registers.esp + 4) := by
  simp only [pop]
  split
  · next h => simp [UInt32.not_lt.2 h]
  · next h => simp [UInt32.not_le.1 h, load, eq_comm]

theorem pop_eq_error_iff :
    s.pop = .error stop ↔ s.stack.stop ≤ s.registers.esp ∧
      stop = ⟨.stackUnderflow s.registers.esp, s⟩ := by
  simp only [pop]
  split
  · next h => simp [h, eq_comm]
  · next h => simp [h]

/-- An instruction that pushes does nothing else but go somewhere. -/
theorem execute_of_pushed? (h : i.pushed? s = some w) :
    s.execute i = (·.goto (i.continuation s)) <$> s.push w := by
  have hpush : ∀ t, s.push w = .ok t → t.registers.ip = s.registers.ip := by
    intro t ht
    obtain ⟨-, rfl⟩ := push_eq_ok_iff.1 ht
    rfl
  rcases Instruction.pushed?_cases h with ⟨reg, rfl, rfl⟩ | ⟨op, a, rfl, htaken, rfl⟩
  · rw [execute]
    cases hp : s.push (s.read reg) with
    | error => rfl
    | ok t =>
      change Except.ok (t.goto (t.registers.ip + _)) = Except.ok (t.goto (s.registers.ip + _))
      rw [hpush t hp]
  · rw [execute, if_pos htaken]
    rfl

/-- An instruction that pops goes on with what it popped. -/
theorem execute_of_pops (h : i.pops = true) :
    s.execute i = (fun x => i.popped x.1 x.2) <$> s.pop := by
  rcases Instruction.pops_cases h with rfl | ⟨reg, rfl⟩ <;> rfl

theorem push_of_execute (hpush : i.pushed? s = some w) (h : s.execute i = .ok t) :
    ∃ u, s.push w = .ok u := by
  rw [execute_of_pushed? hpush] at h
  obtain ⟨u, hu, -⟩ := Except.map_eq_ok_iff.1 h
  exact ⟨u, hu⟩

theorem pop_of_execute (hpop : i.pops = true) (h : s.execute i = .ok t) :
    ∃ w u, s.pop = .ok (w, u) := by
  rw [execute_of_pops hpop] at h
  obtain ⟨⟨w, u⟩, hu, -⟩ := Except.map_eq_ok_iff.1 h
  exact ⟨w, u, hu⟩

/-- What an instruction does that leaves the stack alone. -/
theorem execute_of_plain (hpush : i.pushed? s = none) (hpop : i.pops = false)
    (h : s.execute i = .ok t) : t = i.after s := by
  cases i with
  | mov | movImm =>
    obtain rfl := Except.ok.inj h
    rfl
  | load dst address =>
    rw [execute, load_eq] at h
    obtain rfl := Except.ok.inj h
    rw [Instruction.after, Instruction.memoryAfter_of_readAt? rfl rfl]
    generalize (s.memory.readWord address).2 = memory
    rfl
  | store address reg =>
    obtain rfl := Except.ok.inj h
    rw [Instruction.after, Instruction.memoryAfter_of_written? rfl, store]
    generalize s.memory.writeWord address (s.read reg) = memory
    rfl
  | alu op dst src₁ src₂ =>
    simp only [execute] at h
    split at h
    · exact nomatch h
    · next w hw =>
      obtain rfl := Except.ok.inj h
      have hsets : (Instruction.alu op dst src₁ src₂).sets? s = some (dst, w) := by
        rw [Instruction.sets?, hw]
        rfl
      simp only [Instruction.after, Instruction.registersAfter, Instruction.nextAddress,
        Instruction.settled, hsets, writeResult_eq]
      rfl
  | unary op reg =>
    cases op with
    | not =>
      obtain rfl := Except.ok.inj h
      rfl
    | push => exact nomatch hpush
    | pop => exact nomatch hpop
  | jump op address =>
    have htaken := Instruction.pushed?_jump_eq_none_iff.1 hpush
    rw [execute, if_neg htaken] at h
    obtain rfl := Except.ok.inj h
    simp only [Instruction.after, Instruction.registersAfter, Instruction.settled,
      Instruction.espAfter, Instruction.nextAddress, Instruction.memoryAfter,
      Instruction.written?, hpush, if_neg htaken]
    rfl
  | ret => exact nomatch hpop

/-- An instruction pushes a word and goes somewhere, pops a word and goes on with
    it, or leaves the stack alone. -/
theorem execute_cases (h : s.execute i = .ok t) :
    (∃ w u, i.pushed? s = some w ∧ s.push w = .ok u ∧ t = u.goto (i.continuation s)) ∨
      (∃ w u, i.pops = true ∧ s.pop = .ok (w, u) ∧ t = i.popped w u) ∨
      (i.pushed? s = none ∧ i.pops = false) := by
  rcases hpush : i.pushed? s with _ | w
  · by_cases hpop : i.pops = true
    · rw [execute_of_pops hpop] at h
      obtain ⟨⟨w, u⟩, hu, rfl⟩ := Except.map_eq_ok_iff.1 h
      exact .inr (.inl ⟨w, u, hpop, hu, rfl⟩)
    · exact .inr (.inr ⟨rfl, Bool.eq_false_iff.2 hpop⟩)
  · rw [execute_of_pushed? hpush] at h
    obtain ⟨u, hu, rfl⟩ := Except.map_eq_ok_iff.1 h
    exact .inl ⟨w, u, rfl, hu, rfl⟩

theorem written?_of_pushed? (h : i.pushed? s = some w) :
    i.written? s = some (s.registers.esp - 4, w) := by
  cases i with
  | store => exact nomatch h
  | _ => exact congrArg (Option.map _) h

theorem written?_of_pops (h : i.pops = true) : i.written? s = none := by
  rw [Instruction.written?, Instruction.pushed?_of_pops h, Option.map_none]
  rintro a reg rfl
  exact nomatch h

theorem readAt?_of_pops (h : i.pops = true) : i.readAt? s = some s.registers.esp := by
  rcases Instruction.pops_cases h with rfl | ⟨reg, rfl⟩ <;> rfl

/-- What writes to memory is a store or a push. -/
theorem written?_cases {a : Address} (h : i.written? s = some (a, w)) :
    (∃ reg, i = .store a reg) ∨ (i.pushed? s = some w ∧ a = s.registers.esp - 4) := by
  unfold Instruction.written? at h
  split at h
  · next address reg =>
    obtain ⟨rfl, -⟩ := Prod.mk.inj (Option.some.inj h)
    exact .inl ⟨reg, rfl⟩
  · obtain ⟨v, hv, heq⟩ := Option.map_eq_some_iff.1 h
    obtain ⟨rfl, rfl⟩ := Prod.mk.inj heq
    exact .inr ⟨hv, rfl⟩

/-- What accesses memory is a load, a store, a push or a pop. -/
theorem accessed?_cases {a : Address} (h : i.accessed? s = some a) :
    (∃ reg, i = .load reg a ∨ i = .store a reg) ∨
      (∃ w, i.pushed? s = some w ∧ a = s.registers.esp - 4) ∨
      (i.pops = true ∧ a = s.registers.esp) := by
  rcases Option.or_eq_some_iff.1 h with hwritten | ⟨-, hread⟩
  · obtain ⟨⟨b, w⟩, hw, rfl⟩ := Option.map_eq_some_iff.1 hwritten
    rcases written?_cases hw with ⟨reg, rfl⟩ | ⟨hpush, rfl⟩
    · exact .inl ⟨reg, .inr rfl⟩
    · exact .inr (.inl ⟨w, hpush, rfl⟩)
  · cases i with
    | load reg b =>
      obtain rfl := Option.some.inj hread
      exact .inl ⟨reg, .inl rfl⟩
    | unary op reg =>
      cases op with
      | pop => exact .inr (.inr ⟨rfl, (Option.some.inj hread).symm⟩)
      | not | push => exact nomatch hread
    | ret => exact .inr (.inr ⟨rfl, (Option.some.inj hread).symm⟩)
    | _ => exact nomatch hread

theorem popped_memory (h : i.pops = true) (w : Word) (s : State) :
    (i.popped w s).memory = s.memory := by
  rcases Instruction.pops_cases h with rfl | ⟨reg, rfl⟩ <;> rfl

theorem popped_esp (h : i.pops = true) (hd : i.destination? ≠ some .esp) (w : Word) (s : State) :
    (i.popped w s).registers.esp = s.registers.esp := by
  rcases Instruction.pops_cases h with rfl | ⟨reg, rfl⟩
  · rfl
  · have hne : Register.esp ≠ reg := fun heq => hd (congrArg some heq.symm)
    exact read_write_of_ne hne w

theorem popped_registers (w : Word) (h : s.registers = t.registers) :
    (i.popped w s).registers = (i.popped w t).registers := by
  cases i <;> simp only [Instruction.popped, advance, goto, write, h]

/-- What an instruction does that is executed. -/
theorem execute_eq_after (h : s.execute i = .ok t) : t = i.after s := by
  rcases execute_cases h with ⟨w, u, hpush, hu, rfl⟩ | ⟨w, u, hpop, hu, rfl⟩ | ⟨hpush, hpop⟩
  · obtain ⟨-, rfl⟩ := push_eq_ok_iff.1 hu
    rw [Instruction.after, Instruction.registersAfter_of_pushed? hpush,
      Instruction.memoryAfter_of_written? (written?_of_pushed? hpush), store, write_memory]
    generalize s.memory.writeWord (s.registers.esp - 4) w = memory
    rfl
  · obtain ⟨-, rfl, rfl⟩ := pop_eq_ok_iff.1 hu
    rw [Instruction.after, load_eq,
      Instruction.memoryAfter_of_readAt? (written?_of_pops hpop) (readAt?_of_pops hpop)]
    generalize (s.memory.readWord s.registers.esp).2 = memory
    rcases Instruction.pops_cases hpop with rfl | ⟨reg, rfl⟩ <;> rfl
  · exact execute_of_plain hpush hpop h

theorem execute_registers_eq (h : s.execute i = .ok t) : t.registers = i.registersAfter s :=
  congrArg State.registers (execute_eq_after h)

/-- A register is set by every instruction that is executed and that has it as its
    destination. -/
theorem exists_sets?_of_execute (h : s.execute i = .ok t) (hd : i.destination? = some r) :
    ∃ w, i.sets? s = some (r, w) := by
  obtain ⟨x, hx⟩ : ∃ x, i.sets? s = some x := by
    cases i with
    | alu op dst src₁ src₂ =>
      cases hw : op.eval? (s.read src₁) (s.read src₂) with
      | none => simp [execute, hw] at h
      | some w => exact ⟨(dst, w), by rw [Instruction.sets?, hw, Option.map_some]⟩
    | unary op reg =>
      cases op with
      | push => exact nomatch hd
      | not | pop => exact ⟨_, rfl⟩
    | mov | movImm | load => exact ⟨_, rfl⟩
    | store | jump | ret => exact nomatch hd
  have hr : some x.1 = some r := (Instruction.destination?_of_sets? hx).symm.trans hd
  exact ⟨x.2, by rw [hx, ← Option.some.inj hr]⟩

/-- A general register has the word afterwards that an instruction sets it to. -/
theorem read_of_sets? (h : s.execute i = .ok t) (hsets : i.sets? s = some (r, w))
    (hr : r ∈ Register.general) : t.read r = w := by
  obtain ⟨hip, hzf⟩ := Register.ne_of_mem_general hr
  rw [read, execute_registers_eq h, Instruction.registersAfter,
    Registers.read_write_of_ne _ hip, Instruction.settled, hsets]
  exact (Registers.read_settle hzf).trans (Registers.read_write_self _ hzf _)

/-- What an instruction does to memory: it writes or reads one word at most. -/
theorem execute_memory_eq (h : s.execute i = .ok t) : t.memory = i.memoryAfter s :=
  congrArg State.memory (execute_eq_after h)

/-- Executing an instruction does not count it yet. -/
theorem execute_cycles (h : s.execute i = .ok t) : t.cycles = s.cycles := by
  rw [execute_eq_after h, Instruction.after]

/-- Where the stack pointer is after an instruction that does not set it. -/
theorem esp_of_execute (hd : i.destination? ≠ some .esp) (h : s.execute i = .ok t) :
    t.registers.esp = i.espAfter s := by
  rw [execute_registers_eq h]
  exact Instruction.read_registersAfter_of_ne (by decide) hd

theorem execute_esp (hpush : i.pushed? s = none) (hpop : i.pops = false)
    (hd : i.destination? ≠ some .esp) (h : s.execute i = .ok t) :
    t.registers.esp = s.registers.esp := by
  rw [esp_of_execute hd h, Instruction.espAfter, hpush, hpop]
  rfl

/-- Where an instruction goes that does not set the instruction pointer. -/
theorem execute_ip (hd : i.destination? ≠ some .ip) (h : s.execute i = .ok t) :
    (∃ op a, i = .jump op a ∧ op.taken s.registers.zeroFlag = true ∧ t.registers.ip = a) ∨
      (i = .ret ∧ t.registers.ip = s.memory.peekWord s.registers.esp +
        UInt32.ofNat Shape.jump.length) ∨
      t.registers.ip = s.registers.ip + UInt32.ofNat i.length := by
  have hip : t.registers.ip = i.nextAddress s :=
    congrArg Registers.ip (execute_registers_eq h)
  have hsettled : (i.settled s).ip = s.registers.ip :=
    Instruction.read_settled_of_ne (r := .ip) (by decide) hd
  cases i with
  | jump op a =>
    rw [Instruction.nextAddress] at hip
    split at hip
    · next htaken => exact .inl ⟨op, a, rfl, htaken, hip⟩
    · exact .inr (.inr hip)
  | ret => exact .inr (.inl ⟨rfl, hip⟩)
  | _ => exact .inr (.inr (hip.trans (congrArg (· + _) hsettled)))

/-- An instruction that leaves the stack alone is executed, unless it divides by
    zero. -/
theorem execute_eq_error_iff_of_plain (hpush : i.pushed? s = none) (hpop : i.pops = false) :
    s.execute i = .error stop ↔ ∃ dst src₁ src₂, i = .alu .div dst src₁ src₂ ∧
      s.read src₂ = 0 ∧ stop = ⟨.divisionByZero s.registers.ip, s⟩ := by
  cases i with
  | alu op dst src₁ src₂ =>
    simp only [execute]
    split
    · next h =>
      obtain ⟨rfl, hzero⟩ := AluOp.eval?_eq_none_iff.1 h
      simp [hzero, eq_comm]
    · next w h =>
      refine ⟨fun heq => (nomatch heq), ?_⟩
      rintro ⟨_, _, _, ⟨⟩, hzero, -⟩
      exact nomatch (AluOp.eval?_eq_none_iff.2 ⟨rfl, hzero⟩).symm.trans h
  | unary op reg =>
    cases op with
    | not => simp [execute]
    | push => exact nomatch hpush
    | pop => exact nomatch hpop
  | jump op a =>
    rw [execute, if_neg (Instruction.pushed?_jump_eq_none_iff.1 hpush)]
    simp
  | ret => exact nomatch hpop
  | _ => simp [execute]

/-- What keeps an instruction from being executed, and the state it leaves then. -/
theorem execute_eq_error_iff :
    s.execute i = .error stop ↔
      (∃ w, i.pushed? s = some w ∧
        s.registers.esp.toNat < s.stack.start.toNat + Word.size ∧
        stop = ⟨.stackOverflow (s.registers.esp - 4), s.write .esp (s.registers.esp - 4)⟩) ∨
      (i.pops = true ∧ s.stack.stop ≤ s.registers.esp ∧
        stop = ⟨.stackUnderflow s.registers.esp, s⟩) ∨
      ∃ dst src₁ src₂, i = .alu .div dst src₁ src₂ ∧ s.read src₂ = 0 ∧
        stop = ⟨.divisionByZero s.registers.ip, s⟩ := by
  cases hpush : i.pushed? s with
  | some w =>
    have hpop : i.pops ≠ true := fun h => nomatch (Instruction.pushed?_of_pops h).symm.trans hpush
    have hdiv : ∀ dst src₁ src₂, i ≠ .alu .div dst src₁ src₂ := by
      rintro _ _ _ rfl
      exact nomatch hpush
    rw [execute_of_pushed? hpush, Except.map_eq_error_iff, push_eq_error_iff]
    simp [hpop, hdiv]
  | none =>
    cases hpop : i.pops with
    | true =>
      have hdiv : ∀ dst src₁ src₂, i ≠ .alu .div dst src₁ src₂ := by
        rintro _ _ _ rfl
        exact nomatch hpop
      rw [execute_of_pops hpop, Except.map_eq_error_iff, pop_eq_error_iff]
      simp [hdiv]
    | false =>
      rw [execute_eq_error_iff_of_plain hpush hpop]
      simp

theorem execute_error_cases (h : s.execute i = .error stop) :
    stop = ⟨.stackOverflow (s.registers.esp - 4), s.write .esp (s.registers.esp - 4)⟩ ∨
      stop = ⟨.stackUnderflow s.registers.esp, s⟩ ∨ stop = ⟨.divisionByZero s.registers.ip, s⟩ := by
  rcases execute_eq_error_iff.1 h with ⟨_, -, -, rfl⟩ | ⟨-, -, rfl⟩ | ⟨_, _, _, -, -, rfl⟩
  · exact .inl rfl
  · exact .inr (.inl rfl)
  · exact .inr (.inr rfl)

/-- An instruction that is not executed leaves memory as it is. -/
theorem execute_error_memory (h : s.execute i = .error stop) : stop.state.memory = s.memory := by
  rcases execute_error_cases h with rfl | rfl | rfl <;> rfl

/-- The traps that keep an instruction from being executed. -/
theorem execute_trap (h : s.execute i = .error stop) :
    (∃ sp, stop.trap = .stackOverflow sp) ∨ (∃ sp, stop.trap = .stackUnderflow sp) ∨
      ∃ ip, stop.trap = .divisionByZero ip := by
  rcases execute_error_cases h with rfl | rfl | rfl
  · exact .inl ⟨_, rfl⟩
  · exact .inr (.inl ⟨_, rfl⟩)
  · exact .inr (.inr ⟨_, rfl⟩)

/-- What an instruction changes in memory: the bytes of a word that it writes. -/
theorem execute_memory (h : s.execute i = .ok t) :
    t.memory.layout = s.memory.layout ∧ t.memory.programEnd = s.memory.programEnd ∧
      t.memory.bytes = match i.written? s with
        | some (a, w) => (s.memory.writeWord a w).bytes
        | none => s.memory.bytes := by
  rw [execute_memory_eq h, Instruction.memoryAfter]
  cases i.written? s with
  | some x => exact ⟨Memory.writeWord_layout .., Memory.writeWord_programEnd .., rfl⟩
  | none =>
    cases i.readAt? s with
    | some a =>
      exact ⟨Memory.readWord_layout .., Memory.readWord_programEnd .., Memory.readWord_bytes ..⟩
    | none => exact ⟨rfl, rfl, rfl⟩

/-- The faults of an instruction are the bytes outside of memory of the word that
    it accesses. -/
theorem execute_faults (h : s.execute i = .ok t) :
    t.memory.faults = s.memory.faults + (i.accessed? s).elim 0 s.memory.strays := by
  rw [execute_memory_eq h, Instruction.memoryAfter, Instruction.accessed?]
  cases i.written? s with
  | some x => exact s.memory.faults_writeWord x.1 x.2
  | none =>
    cases i.readAt? s with
    | some a =>
      simp only [Memory.readWord_eq]
      rfl
    | none => rfl

/-- A byte that an instruction does not write stays as it is. -/
theorem execute_byte? (h : s.execute i = .ok t) {b : Address}
    (hb : ∀ a w, i.written? s = some (a, w) → ¬Word.Covers a b) :
    t.memory.byte? b = s.memory.byte? b := by
  obtain ⟨-, -, hbytes⟩ := execute_memory h
  rw [Memory.byte?, hbytes]
  split
  · next a w heq => exact Memory.byte?_writeWord_of_not_covers (hb a w heq) w
  · rfl

theorem execute_peekByte (h : s.execute i = .ok t) {b : Address}
    (hb : ∀ a w, i.written? s = some (a, w) → ¬Word.Covers a b) :
    t.memory.peekByte b = s.memory.peekByte b := by
  rw [Memory.peekByte, execute_byte? h hb, Memory.peekByte]

end State

end Machine32
