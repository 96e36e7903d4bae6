import Machine32.Proofs.Isa.Grammar
import Machine32.Proofs.Memory.Loading
import Machine32.Proofs.Machine.Failure

/-!
# Fetching instructions

A machine in its program always finds the bytes of an instruction: the program
ends in its segment, and behind that come a word of data and a word of stack at
least, as many bytes as the longest instruction has.

* `Trap.Arises` says which trap keeps a state from its next step;
* `State.length_window`: memory does not end within an instruction;
* `State.exists_step_error_iff`: so a step in the program fails if one of these
  traps arises, and that is never about missing bytes;
* `State.step_faults`: fetching an instruction is no access to memory that counts, and so
  the faults of a run are those of the instructions that it executes (`Run.faults_eq`).
-/

namespace Machine32

/-- The trap keeps the state `s` from its next step. Either the instruction there
    finds no room on the stack for a word, or no word on it, or divides by zero;
    or there is none, as the byte at the instruction pointer is no opcode, or one
    of the register fields behind it, and none before that one, holds no
    register. -/
inductive Trap.Arises (s : State) : Trap → Prop
  | stackOverflow {i : Instruction} {w : Word} : s.fetch = .ok i → i.pushed? s = some w →
      s.registers.esp.toNat < s.stack.start.toNat + Word.size →
      Arises s (.stackOverflow (s.registers.esp - 4))
  | stackUnderflow {i : Instruction} : s.fetch = .ok i → i.pops = true →
      s.stack.stop ≤ s.registers.esp → Arises s (.stackUnderflow s.registers.esp)
  | divisionByZero {dst src₁ src₂ : Register} : s.fetch = .ok (.alu .div dst src₁ src₂) →
      s.read src₂ = 0 → Arises s (.divisionByZero s.registers.ip)
  | invalidOpcode {b : UInt8} : s.memory.byte? s.registers.ip = some b →
      (∀ op : Opcode, op.byte ≠ b) → Arises s (.invalidOpcode s.registers.ip b)
  | invalidRegister {op : Opcode} {pre post : List Nat} {k : Nat} {id : UInt8} :
      s.memory.byte? s.registers.ip = some op.byte →
      op.shape.registerFields = pre ++ k :: post →
      (∀ j ∈ pre, ∀ b ∈ s.memory.byte? (s.registers.ip + UInt32.ofNat j), b < 10) →
      s.memory.byte? (s.registers.ip + UInt32.ofNat k) = some id → 10 ≤ id →
      Arises s (.invalidRegister s.registers.ip id)

/-- That memory ends within an instruction is not among these traps. -/
theorem Trap.Arises.ne_undecodable {s : State} {trap : Trap} (h : trap.Arises s) (ip : Address)
    (e : DecodeError) : trap ≠ .undecodable ip e := by
  cases h <;> exact nofun

theorem Opcode.length_le_maxLength (op : Opcode) : op.length ≤ Instruction.maxLength := by
  rcases op.length_eq with h | h <;> simp [h, Instruction.maxLength]

namespace State

variable {s t : State} {i : Instruction} {trap : Trap} {stop : Stop} {k : Nat}

/-- The bytes that the instruction at the instruction pointer is decoded from. -/
def window (s : State) : List UInt8 :=
  s.memory.window s.registers.ip Instruction.maxLength

/-! ## The bytes of an instruction -/

theorem ip_add_maxLength_le (h : s.running = true) :
    s.registers.ip.toNat + Instruction.maxLength ≤ s.memory.bytes.size :=
  Memory.add_maxLength_le (of_decide_eq_true h)

/-- As long as a machine runs, there are as many bytes as the longest instruction has. -/
theorem length_window (h : s.running = true) : s.window.length = Instruction.maxLength :=
  Memory.length_window (ip_add_maxLength_le h)

theorem getElem?_window (h : s.running = true) (hk : k < Instruction.maxLength) :
    s.window[k]? = s.memory.byte? (s.registers.ip + UInt32.ofNat k) := by
  have hle := ip_add_maxLength_le h
  have hsize := s.memory.size_bytes
  have htotal := s.memory.layout.total.toNat_lt
  rw [window, Memory.getElem?_window hk, Memory.byte?, toNat_add_ofNat (by omega)]

theorem head?_window (h : s.running = true) : s.window.head? = s.memory.byte? s.registers.ip := by
  have hfirst : s.registers.ip + UInt32.ofNat 0 = s.registers.ip := UInt32.add_zero _
  rw [List.head?_eq_getElem?, getElem?_window h (by decide), hfirst]

/-- The register fields of an instruction are among these bytes. -/
theorem getElem?_window_of_mem {op : Opcode} (h : s.running = true)
    (hk : k ∈ op.shape.registerFields) :
    s.window[k]? = s.memory.byte? (s.registers.ip + UInt32.ofNat k) :=
  getElem?_window h (Nat.lt_of_lt_of_le (Shape.lt_length_of_mem_registerFields hk)
    op.length_le_maxLength)

/-! ## The traps of a step -/

/-- What explains that these bytes are not decoded is a trap that arises. -/
theorem arises_of_explains (h : s.running = true) {e : DecodeError} (he : e.Explains s.window) :
    (Trap.ofDecodeError s.registers.ip e).Arises s := by
  have hlength := length_window h
  cases he with
  | empty hnil =>
    rw [hnil] at hlength
    exact nomatch hlength
  | unknownOpcode hhead hb => exact .invalidOpcode (head?_window h ▸ hhead) hb
  | @truncated op _ hlt =>
    rw [hlength] at hlt
    exact absurd op.length_le_maxLength (Nat.not_le.2 hlt)
  | @invalidRegister op pre post k b hhead _ hfields hpre hk hb =>
    have hbyte (j : Nat) (hj : j ∈ pre ++ k :: post) := getElem?_window_of_mem h (hfields ▸ hj)
    refine .invalidRegister (head?_window h ▸ hhead) hfields (fun j hj => ?_) ?_ hb
    · rw [← hbyte j (List.mem_append_left _ hj)]
      exact hpre j hj
    · rwa [← hbyte k (List.mem_append_right _ List.mem_cons_self)]

theorem arises_of_fetch (h : s.running = true) (hf : s.fetch = .error trap) : trap.Arises s := by
  obtain ⟨e, he, rfl⟩ := fetch_eq_error_iff.1 hf
  exact arises_of_explains h (Instruction.decode_eq_error_iff.1 he)

theorem arises_of_execute (hf : s.fetch = .ok i) (h : s.execute i = .error stop) :
    stop.trap.Arises s := by
  rcases execute_eq_error_iff.1 h with
    ⟨w, hpush, hroom, rfl⟩ | ⟨hpops, hroom, rfl⟩ | ⟨dst, src₁, src₂, rfl, hzero, rfl⟩
  · exact .stackOverflow hf hpush hroom
  · exact .stackUnderflow hf hpops hroom
  · exact .divisionByZero hf hzero

theorem fetch_of_explains {e : DecodeError} (he : e.Explains s.window) :
    s.fetch = .error (.ofDecodeError s.registers.ip e) :=
  fetch_eq_error_iff.2 ⟨e, Instruction.decode_of_explains he, rfl⟩

/-- A trap that arises is that of the step. -/
theorem step_of_arises (h : s.running = true) (ha : trap.Arises s) :
    ∃ t, s.step = .error ⟨trap, t⟩ := by
  cases ha with
  | stackOverflow hf hpush hroom =>
    have he := execute_eq_error_iff.2 (.inl ⟨_, hpush, hroom, rfl⟩)
    exact ⟨_, (step_eq_error_iff hf).2 he⟩
  | stackUnderflow hf hpops hroom =>
    have he := execute_eq_error_iff.2 (.inr (.inl ⟨hpops, hroom, rfl⟩))
    exact ⟨_, (step_eq_error_iff hf).2 he⟩
  | @divisionByZero dst src₁ src₂ hf hzero =>
    have he := execute_eq_error_iff.2 (.inr (.inr ⟨dst, src₁, src₂, rfl, hzero, rfl⟩))
    exact ⟨_, (step_eq_error_iff hf).2 he⟩
  | invalidOpcode hbyte hb =>
    have he := DecodeError.Explains.unknownOpcode ((head?_window h).trans hbyte) hb
    exact ⟨s, step_error_iff.2 (.inl ⟨_, fetch_of_explains he, rfl⟩)⟩
  | @invalidRegister op pre post k id hhead hfields hpre hk hid =>
    have hbyte (j : Nat) (hj : j ∈ pre ++ k :: post) := getElem?_window_of_mem h (hfields ▸ hj)
    have he : (DecodeError.invalidRegister op.byte id).Explains s.window := by
      refine .invalidRegister ((head?_window h).trans hhead) ?_ hfields (fun j hj => ?_) ?_ hid
      · rw [length_window h]
        exact op.length_le_maxLength
      · rw [hbyte j (List.mem_append_left _ hj)]
        exact hpre j hj
      · rwa [hbyte k (List.mem_append_right _ List.mem_cons_self)]
    exact ⟨s, step_error_iff.2 (.inl ⟨_, fetch_of_explains he, rfl⟩)⟩

/-- A step in the program fails with the traps that arise. -/
theorem exists_step_error_iff (h : s.running = true) :
    (∃ t, s.step = .error ⟨trap, t⟩) ↔ trap.Arises s := by
  refine ⟨?_, step_of_arises h⟩
  rintro ⟨t, ht⟩
  rcases step_error_iff.1 ht with ⟨trap', hf, heq⟩ | ⟨i, hf, he⟩
  · obtain rfl := congrArg Stop.trap heq
    exact arises_of_fetch h hf
  · exact arises_of_execute hf he

/-- The faults of a step are those of the instruction that is executed. -/
theorem step_faults (h : s.step = .ok (i, t)) :
    t.memory.faults = s.memory.faults + (i.accessed? s).elim 0 s.memory.strays := by
  obtain ⟨-, u, hu, rfl⟩ := step_eq_ok_iff.1 h
  have hfaults := execute_faults hu
  exact hfaults

end State

/-- The number of bytes outside of memory that the instruction accesses. -/
def Event.strays (e : Event) : Nat :=
  (e.instruction.accessed? e.state).elim 0 e.state.memory.strays

/-- The number of bytes outside of memory that instructions access one after the other. -/
def Event.totalStrays (es : List Event) : Nat :=
  es.foldl (fun n e => n + e.strays) 0

/-- The faults of a run are those of its steps. -/
theorem Run.faults_eq {s t : State} {es : List Event} (h : Run s es t) :
    t.memory.faults = s.memory.faults + Event.totalStrays es := by
  refine h.invariant (P := fun es t => t.memory.faults = _ + Event.totalStrays es) rfl ?_
  intro es t i u ih hu
  rw [State.step_faults hu, ih, Event.totalStrays, Event.totalStrays, List.foldl_append,
    List.foldl_cons, List.foldl_nil, Nat.add_assoc, Event.strays]

namespace Machine

/-- A machine fails to take a step if it is in its program and a trap arises. -/
theorem exists_step_error_iff {m : Machine} {trap : Trap} :
    (∃ m', m.step = .error (trap, m')) ↔ m.state.running = true ∧ trap.Arises m.state := by
  constructor
  · rintro ⟨m', hstep⟩
    obtain ⟨hr, hs, -⟩ := step_eq_error_iff.1 hstep
    exact ⟨hr, (State.exists_step_error_iff hr).1 ⟨_, hs⟩⟩
  · rintro ⟨hr, harises⟩
    obtain ⟨t, ht⟩ := (State.exists_step_error_iff hr).2 harises
    exact ⟨{ m with state := t }, step_eq_error_iff.2 ⟨hr, ht, rfl⟩⟩

end Machine

/-- A machine in its program finds as many bytes at its instruction pointer as the
    longest instruction has, whatever has been written there. So what keeps it from
    a step is one of the traps that arise from what is there, and never that bytes
    are missing; and the same holds of what a run fails with. Fetching counts no
    fault: those of a step are what its instruction reads or writes outside of
    memory, and none if it fails. -/
theorem running_fetches_whole :
    (∀ s : State, s.running = true → s.window.length = Instruction.maxLength ∧
      ∀ k < Instruction.maxLength,
        s.window[k]? = s.memory.byte? (s.registers.ip + UInt32.ofNat k)) ∧
      (∀ (m : Machine) (trap : Trap), (∃ m', m.step = .error (trap, m')) ↔
        m.state.running = true ∧ trap.Arises m.state) ∧
      (∀ (m m' : Machine) (trap : Trap), m.Returns (m', .error trap) →
        ∃ es m'', m.Run es m'' ∧ m''.step = .error (trap, m') ∧ trap.Arises m''.state) ∧
      (∀ (s : State) (trap : Trap), trap.Arises s → ∀ ip e, trap ≠ .undecodable ip e) ∧
      (∀ (s t : State) (i : Instruction), s.step = .ok (i, t) →
        t.memory.faults = s.memory.faults + (i.accessed? s).elim 0 s.memory.strays) ∧
      ∀ (s : State) (stop : Stop), s.step = .error stop →
        stop.state.memory.faults = s.memory.faults := by
  refine ⟨fun s h => ⟨State.length_window h, fun k hk => State.getElem?_window h hk⟩,
    fun m trap => Machine.exists_step_error_iff, fun m m' trap h => ?_,
    fun s trap h => h.ne_undecodable, fun s t i h => State.step_faults h,
    fun s stop h => congrArg Memory.faults (State.step_error_memory h)⟩
  obtain ⟨es, m'', hrun, hstep⟩ := h.exists_step_error
  exact ⟨es, m'', hrun, hstep, (Machine.exists_step_error_iff.1 ⟨m', hstep⟩).2⟩

/-- A program that fills its segment with one instruction, which sets the
    instruction pointer to the last byte of the instruction itself. -/
def jumpToLastByte : Program where
  code := (Instruction.movImm .ip 0xFFFFFFFF).encode
  data := []
  entryPoint := 0
  labels := .empty
  constants := .empty

/-- In the smallest memory the bytes from the last one of the program on are just
    as many as an instruction may have, but do not begin with an opcode. -/
theorem running_fetches_whole_sample :
    ∃ m es t, (Machine.boot .least none).loadProgram jumpToLastByte = .ok m ∧
      Run m.state es t ∧ t.registers.ip = 7 ∧ t.memory.programEnd = 8 ∧ t.memory.size = 16 ∧
      t.window.length = 8 ∧
      (∃ m', { m with state := t }.step = .error (.invalidOpcode 7 0xFF, m')) ∧
      ∃ m' es' m'', m.Returns (m', .error (.invalidOpcode 7 0xFF)) ∧ m.Run es' m'' ∧
        (Trap.invalidOpcode 7 0xFF).Arises m''.state := by
  have hcheck : (((Machine.boot .least none).loadProgram
      jumpToLastByte).toOption.any fun m => (m.state.steps 1).toOption.any fun x =>
        decide (x.2.running = true ∧ x.2.registers.ip = 7 ∧ x.2.memory.programEnd = 8 ∧
          x.2.memory.size = 16 ∧ x.2.memory.byte? 7 = some 0xFF) &&
        (m.run 2).any fun y => decide (y.2 = .error (.invalidOpcode 7 0xFF))) = true := by
    decide +kernel
  obtain ⟨m, hload, hcheck⟩ := Except.any_toOption_iff.1 hcheck
  obtain ⟨⟨es, t⟩, hsteps, hcheck⟩ := Except.any_toOption_iff.1 hcheck
  obtain ⟨ht, hcheck⟩ := Bool.and_eq_true_iff.1 hcheck
  obtain ⟨hr, hip, hend, hsize, hbyte⟩ := of_decide_eq_true ht
  obtain ⟨⟨m', _⟩, hrun, hcheck⟩ := (Option.any_eq_true ..).1 hcheck
  obtain rfl := of_decide_eq_true hcheck
  obtain ⟨hwhole, hfails, hreturns, -⟩ := running_fetches_whole
  have hnone (op : Opcode) : op.byte ≠ 0xFF := fun h => nomatch Opcode.ofByte?_eq_some_iff.2 h
  have harises : (Trap.invalidOpcode 7 0xFF).Arises t :=
    hip ▸ .invalidOpcode (hip ▸ hbyte) hnone
  obtain ⟨es', m'', htaken, -, harises'⟩ := hreturns m m' _ ⟨2, hrun⟩
  exact ⟨m, es, t, hload, .of_steps hsteps, hip, hend, hsize, (hwhole t hr).1,
    (hfails { m with state := t } _).2 ⟨hr, harises⟩, m', es', m'', ⟨2, hrun⟩, htaken, harises'⟩

end Machine32
