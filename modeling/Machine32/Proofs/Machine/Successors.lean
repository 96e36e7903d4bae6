import Machine32.Proofs.Machine.Effects

/-!
# Where an instruction goes on, and what it pushes

A jump that is taken goes to its target, a return goes behind the jump that pushed the
word that it pops, and every other instruction goes ahead by its length, from the
instruction pointer that it leaves. What an instruction sets or pushes depends on the
registers before it: so the stack pointer is pushed as it was, and what is popped into it
stays.

* `State.GoesOn` is the law of the instruction pointer;
* `State.Stacks` says which word is pushed, and that nothing is if no word is;
* `execute_successor`: both hold of every instruction that is executed.
-/

namespace Machine32

namespace Instruction

/-- The instruction is a jump that is taken in the state `s`. -/
structure Jumps (s : State) (i : Instruction) : Prop where
  jump : i.opcode.isJump = true
  zero : i.opcode = .jump .jz → s.registers.zeroFlag = true
  notZero : i.opcode = .jump .jnz → s.registers.zeroFlag = false

variable {s : State} {i : Instruction} {r : Register} {w : Word}

theorem jumps_iff :
    i.Jumps s ↔ ∃ op a, i = .jump op a ∧ op.taken s.registers.zeroFlag = true := by
  constructor
  · rintro ⟨hjump, hzero, hnotZero⟩
    cases i with
    | jump op a =>
      refine ⟨op, a, rfl, ?_⟩
      cases op with
      | jmp | call => rfl
      | jz => exact hzero rfl
      | jnz => rw [JumpOp.taken, hnotZero rfl, Bool.not_false]
    | _ => exact nomatch hjump
  · rintro ⟨op, a, rfl, htaken⟩
    refine ⟨rfl, ?_, ?_⟩
    · rintro ⟨⟩
      exact htaken
    · rintro ⟨⟩
      rwa [JumpOp.taken, Bool.not_eq_true'] at htaken

/-- What pushes a word is a jump that is taken, or a `PUSH`. -/
theorem pushed?_eq_none_iff :
    i.pushed? s = none ↔ ¬i.Jumps s ∧ ∀ reg, i ≠ .unary .push reg := by
  rw [jumps_iff]
  constructor
  · intro h
    constructor
    · rintro ⟨op, a, rfl, htaken⟩
      exact pushed?_jump_eq_none_iff.1 h htaken
    · rintro reg rfl
      exact nomatch h
  · rintro ⟨hjumps, hpush⟩
    cases h : i.pushed? s with
    | none => rfl
    | some w =>
      rcases pushed?_cases h with ⟨reg, heq, -⟩ | ⟨op, a, heq, htaken, -⟩
      · exact absurd heq (hpush reg)
      · exact absurd ⟨op, a, heq, htaken⟩ hjumps

/-- An instruction that sets a register goes ahead from the instruction pointer. -/
theorem nextAddress_of_sets? (h : i.sets? s = some (r, w)) :
    i.nextAddress s = (i.settled s).ip + UInt32.ofNat i.length := by
  cases i with
  | jump | ret => exact nomatch h
  | _ => rfl

theorem settled_ip_of_sets? (h : i.sets? s = some (.ip, w)) : (i.settled s).ip = w := by
  rw [settled, h]
  exact (Registers.read_settle (q := .ip) (by decide)).trans
    (Registers.read_write_self _ (r := .ip) (by decide) _)

end Instruction

namespace State

/-- An instruction `i` executed in the state `s` goes on in the state `t` where it
    should. -/
structure GoesOn (s : State) (i : Instruction) (t : State) : Prop where
  jump : i.Jumps s → i.target? = some t.registers.ip
  ret : i = .ret → t.registers.ip = s.memory.peekWord s.registers.esp + 8
  written : i.destination? = some .ip → ∃ w, i.sets? s = some (.ip, w) ∧
    t.registers.ip = w + UInt32.ofNat i.opcode.length
  ahead : ¬i.Jumps s → i ≠ .ret → i.destination? ≠ some .ip →
    t.registers.ip = s.registers.ip + UInt32.ofNat i.opcode.length

/-- The word `w` has been pushed from the state `s` to the state `t`. -/
structure Pushes (s : State) (w : Word) (t : State) : Prop where
  room : s.stack.start.toNat + Word.size ≤ s.registers.esp.toNat
  esp : t.registers.esp = s.registers.esp - 4
  memory : t.memory = s.memory.writeWord (s.registers.esp - 4) w

/-- An instruction `i` executed in the state `s` has pushed nothing in the state `t`: only
    a `STORE` has written to memory, and the stack pointer is where the instruction sets
    it, or else a word higher if it pops, or as before. -/
structure PushesNothing (s : State) (i : Instruction) (t : State) : Prop where
  bytes : (∀ a reg, i ≠ .store a reg) → t.memory.bytes = s.memory.bytes
  store : ∀ a reg, i = .store a reg → t.memory = s.memory.writeWord a (s.read reg)
  set : ∀ w, i.sets? s = some (.esp, w) → t.registers.esp = w
  popped : i.destination? ≠ some .esp → i.pops = true → t.registers.esp = s.registers.esp + 4
  kept : i.destination? ≠ some .esp → i.pops = false → t.registers.esp = s.registers.esp

/-- An instruction `i` executed in the state `s` has pushed the word that it should in
    the state `t`: its own address for a jump that is taken, and what was in the register
    for a `PUSH`. -/
structure Stacks (s : State) (i : Instruction) (t : State) : Prop where
  jump : i.Jumps s → s.Pushes s.registers.ip t
  push : ∀ reg, i = .unary .push reg → s.Pushes (s.read reg) t
  nothing : ¬i.Jumps s → (∀ reg, i ≠ .unary .push reg) → s.PushesNothing i t

variable {s t : State} {i : Instruction} {w : Word}

theorem ip_of_execute (h : s.execute i = .ok t) : t.registers.ip = i.nextAddress s :=
  congrArg Registers.ip (execute_registers_eq h)

theorem goesOn_of_execute (h : s.execute i = .ok t) : s.GoesOn i t where
  jump hjumps := by
    obtain ⟨op, a, rfl, htaken⟩ := Instruction.jumps_iff.1 hjumps
    rw [ip_of_execute h, Instruction.nextAddress, if_pos htaken, Instruction.target?]
  ret := by
    rintro rfl
    exact ip_of_execute h
  written hd := by
    obtain ⟨w, hw⟩ := exists_sets?_of_execute h hd
    refine ⟨w, hw, ?_⟩
    rw [ip_of_execute h, Instruction.nextAddress_of_sets? hw, Instruction.settled_ip_of_sets? hw,
      Instruction.length]
  ahead hjumps hret hd := by
    rcases execute_ip hd h with ⟨op, a, heq, htaken, -⟩ | ⟨heq, -⟩ | hip
    · exact absurd (Instruction.jumps_iff.2 ⟨op, a, heq, htaken⟩) hjumps
    · exact absurd heq hret
    · exact hip

theorem pushes_of_execute (hpush : i.pushed? s = some w) (h : s.execute i = .ok t) :
    s.Pushes w t := by
  have hregisters := execute_registers_eq h
  have hmemory := execute_memory_eq h
  rw [Instruction.registersAfter_of_pushed? hpush] at hregisters
  rw [Instruction.memoryAfter_of_written? (written?_of_pushed? hpush)] at hmemory
  obtain ⟨u, hu⟩ := push_of_execute hpush h
  exact ⟨(push_eq_ok_iff.1 hu).1, congrArg Registers.esp hregisters, hmemory⟩

theorem pushesNothing_of_execute (hpush : i.pushed? s = none) (h : s.execute i = .ok t) :
    s.PushesNothing i t := by
  refine ⟨fun hstore => ?_, ?_, fun w hw => read_of_sets? h hw (by decide), ?_, ?_⟩
  · have hwritten : i.written? s = none := by
      cases hw : i.written? s with
      | none => rfl
      | some x =>
        rcases written?_cases hw with ⟨reg, heq⟩ | ⟨hsome, -⟩
        · exact absurd heq (hstore x.1 reg)
        · exact nomatch hpush.symm.trans hsome
    rw [(execute_memory h).2.2, hwritten]
  · rintro a reg rfl
    exact (execute_memory_eq h).trans (Instruction.memoryAfter_of_written? rfl)
  · intro hd hpop
    rw [esp_of_execute hd h, Instruction.espAfter, hpush, hpop]
    rfl
  · exact fun hd hpop => execute_esp hpush hpop hd h

theorem stacks_of_execute (h : s.execute i = .ok t) : s.Stacks i t where
  jump hjumps := by
    obtain ⟨op, a, rfl, htaken⟩ := Instruction.jumps_iff.1 hjumps
    exact pushes_of_execute (Instruction.pushed?_jump_eq_some_iff.2 ⟨htaken, rfl⟩) h
  push := by
    rintro reg rfl
    exact pushes_of_execute rfl h
  nothing hjumps hpush :=
    pushesNothing_of_execute (Instruction.pushed?_eq_none_iff.2 ⟨hjumps, hpush⟩) h

/-- Where an instruction that is executed goes on, and what it pushes. -/
theorem execute_successor (h : s.execute i = .ok t) : s.GoesOn i t ∧ s.Stacks i t :=
  ⟨goesOn_of_execute h, stacks_of_execute h⟩

/-- A jump on zero that is taken, and a `PUSH ESP`. -/
theorem execute_successor_sample :
    let s := (State.initial default).write .zf 1
    (∃ t, s.execute (.jump .jz 0x20) = .ok t ∧
      s.GoesOn (.jump .jz 0x20) t ∧ s.Stacks (.jump .jz 0x20) t) ∧
      ∃ t, s.execute (.unary .push .esp) = .ok t ∧
        s.GoesOn (.unary .push .esp) t ∧ s.Stacks (.unary .push .esp) t :=
  ⟨⟨_, rfl, execute_successor rfl⟩, ⟨_, rfl, execute_successor rfl⟩⟩

end State

end Machine32
