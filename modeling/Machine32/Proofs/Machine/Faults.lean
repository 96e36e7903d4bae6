import Machine32.Proofs.Machine.Fetching
import Machine32.Proofs.Machine.Stack

/-!
# What the faults count

An instruction accesses one word of memory at most (`Event.base?`). The bytes of these
words that are outside of memory are the faults of a run, and nothing else is counted.

* `Machine.Returns.faults_eq`: what is reported of the faults of a run;
* `State.Whole`: an instruction that does not set the stack pointer keeps it at a whole
  number of words from the end of memory, so that pushes and pops are no faults;
* `faults_count_strays`: the faults of every run of a machine that has been loaded.
-/

namespace Machine32

/-! ## The words that are accessed -/

/-- The bytes at the address that a `LOAD` or a `STORE` names are among the first `size`. -/
def Instruction.NamesInside (size : Word) : Instruction → Prop
  | load _ a | store a _ => ∀ k < Word.size, a + UInt32.ofNat k < size
  | _ => True

instance (size : Word) (i : Instruction) : Decidable (i.NamesInside size) :=
  match i with
  | .load .. | .store .. => inferInstanceAs (Decidable (∀ _ < _, _))
  | .mov .. | .movImm .. | .alu .. | .unary .. | .jump .. | .ret =>
    inferInstanceAs (Decidable True)

namespace Event

/-- The address of the word of memory that the instruction accesses. -/
def base? (e : Event) : Option Address :=
  match e.instruction with
  | .load _ a | .store a _ => some a
  | .unary .push _ => some (e.state.registers.esp - 4)
  | .jump op _ =>
    if op.taken e.state.registers.zeroFlag then some (e.state.registers.esp - 4) else none
  | .unary .pop _ | .ret => some e.state.registers.esp
  | .mov .. | .movImm .. | .alu .. | .unary .not _ => none

/-- The instruction names addresses in memory only, and does not set the stack pointer. -/
structure StaysInside (e : Event) : Prop where
  names : e.instruction.NamesInside e.state.memory.size
  destination : e.instruction.destination? ≠ some .esp

instance (e : Event) : Decidable e.StaysInside :=
  decidable_of_iff (_ ∧ _) ⟨fun h => ⟨h.1, h.2⟩, fun h => ⟨h.names, h.destination⟩⟩

theorem accessed?_eq (e : Event) : e.instruction.accessed? e.state = e.base? := by
  obtain ⟨s, i⟩ := e
  cases i with
  | unary op reg => cases op <;> rfl
  | jump op a =>
    by_cases htaken : op.taken s.registers.zeroFlag = true
    · simp [Instruction.accessed?, Instruction.written?, Instruction.pushed?,
        Instruction.readAt?, base?, htaken]
    · simp [Instruction.accessed?, Instruction.written?, Instruction.pushed?,
        Instruction.readAt?, base?, htaken]
  | _ => rfl

theorem strays_eq (e : Event) : e.strays = e.base?.elim 0 e.state.memory.strays := by
  rw [strays, accessed?_eq]

end Event

/-! ## Words inside of memory -/

namespace State

variable {s t : State} {i : Instruction}

/-- There is a whole number of words from the stack pointer up to the end of memory. -/
def Whole (s : State) : Prop :=
  ∃ n, s.registers.esp.toNat + Word.size * n = s.stack.stop.toNat

theorem whole_initial (memory : Memory) : (State.initial memory).Whole :=
  ⟨0, rfl⟩

/-- Where there is a byte on the stack, there is a word. -/
theorem Whole.add_size_le (hs : s.Whole) (hlt : s.registers.esp < s.stack.stop) :
    s.registers.esp.toNat + Word.size ≤ s.stack.stop.toNat := by
  obtain ⟨n, hn⟩ := hs
  rw [UInt32.lt_iff_toNat_lt] at hlt
  rw [Word.size] at hn ⊢
  omega

theorem Whole.execute (hs : s.Whole) (hd : i.destination? ≠ some .esp)
    (h : s.execute i = .ok t) : t.Whole := by
  have hstack : t.stack = s.stack := by rw [stack, (execute_memory h).1, stack]
  have hesp := esp_of_execute hd h
  rw [Whole, hstack]
  cases hpush : i.pushed? s with
  | some w =>
    obtain ⟨u, hu⟩ := push_of_execute hpush h
    obtain ⟨-, hsp⟩ := push_address hu
    obtain ⟨n, hn⟩ := hs
    rw [Instruction.espAfter, hpush, Option.isSome_some, if_pos rfl] at hesp
    refine ⟨n + 1, ?_⟩
    rw [hesp, Nat.mul_succ]
    omega
  | none =>
    cases hpop : i.pops with
    | true =>
      obtain ⟨w, u, hu⟩ := pop_of_execute hpop h
      have hle := hs.add_size_le (pop_eq_ok_iff.1 hu).1
      have hlt := s.stack.stop.toNat_lt
      obtain ⟨n, hn⟩ := hs
      rw [Instruction.espAfter, hpush, hpop] at hesp
      rw [Word.size] at hn hle ⊢
      have hsp : (s.registers.esp + 4).toNat = s.registers.esp.toNat + 4 :=
        toNat_add_ofNat (i := 4) (by omega)
      refine ⟨n - 1, ?_⟩
      rw [hesp]
      change (s.registers.esp + 4).toNat + _ = _
      omega
    | false =>
      rw [execute_esp hpush hpop hd h]
      exact hs

/-- What is pushed and popped is in memory. -/
theorem Whole.strays_eq_zero (hs : s.Whole) (hi : Event.StaysInside ⟨s, i⟩)
    (h : s.execute i = .ok t) : Event.strays ⟨s, i⟩ = 0 := by
  rw [Event.strays]
  cases ha : i.accessed? s with
  | none => rfl
  | some a =>
    change s.memory.strays a = 0
    rcases accessed?_cases ha with ⟨reg, hreg⟩ | ⟨w, hpush, rfl⟩ | ⟨hpop, rfl⟩
    · refine Memory.strays_eq_zero_iff.2 ?_
      rcases hreg with rfl | rfl <;> exact hi.names
    · obtain ⟨u, hu⟩ := push_of_execute hpush h
      obtain ⟨-, hsp⟩ := push_address hu
      obtain ⟨n, hn⟩ := hs
      refine Memory.strays_of_le ?_
      rw [size_bytes]
      omega
    · obtain ⟨w, u, hu⟩ := pop_of_execute hpop h
      refine Memory.strays_of_le ?_
      rw [size_bytes]
      exact hs.add_size_le (pop_eq_ok_iff.1 hu).1

end State

/-- A run counts nothing whose instructions stay inside of memory, if it begins with a
    whole number of words on the stack. -/
theorem Run.faults_of_staysInside {s t : State} {es : List Event} (h : Run s es t) (hs : s.Whole)
    (hes : ∀ e ∈ es, e.StaysInside) : t.memory.faults = s.memory.faults := by
  refine (h.invariant_of_forall hes
    (P := fun _ t => t.Whole ∧ t.memory.faults = s.memory.faults) ⟨hs, rfl⟩ ?_).2
  rintro _ t i u ⟨hwhole, hfaults⟩ hi hu
  obtain ⟨-, v, hv, rfl⟩ := State.step_eq_ok_iff.1 hu
  have hcounted : v.memory.faults = t.memory.faults + Event.strays ⟨t, i⟩ :=
    State.execute_faults hv
  rw [hwhole.strays_eq_zero hi hv, hfaults] at hcounted
  have hwhole' : v.Whole := hwhole.execute hi.destination hv
  exact ⟨hwhole', hcounted⟩

namespace Machine

variable {m m' : Machine} {p : Program} {source : String} {r : RunResult} {trap : Trap}

theorem faults_of_loadProgram (h : m.loadProgram p = .ok m') : m'.state.memory.faults = 0 := by
  obtain ⟨memory, hmemory, rfl⟩ := loadProgram_eq_ok_iff.1 h
  obtain ⟨-, rfl⟩ := Memory.load_eq_ok_iff.1 hmemory
  exact Memory.sealProgram_faults ..

/-- Nothing is counted when a machine is loaded. -/
theorem faults_of_loadSource (h : m.loadSource source = .ok m') :
    m'.state.memory.faults = 0 := by
  rw [loadSource] at h
  split at h
  · exact nomatch h
  · exact faults_of_loadProgram h

theorem whole_of_loadProgram (h : m.loadProgram p = .ok m') : m'.state.Whole := by
  obtain ⟨memory, -, rfl⟩ := loadProgram_eq_ok_iff.1 h
  exact State.whole_initial memory

/-- The faults that are reported of a run are those of the instructions that the
    machine executed, and those from before. -/
theorem Returns.faults_eq (h : m.Returns (m', .ok r)) :
    ∃ es, m.Run es m' ∧
      r.memoryFaults = m.state.memory.faults + Event.totalStrays es := by
  obtain ⟨es, m'', hstops, hreports⟩ := h.exists_stopsAfter
  obtain ⟨rfl, -, -, hfaults, -⟩ := hreports.report r rfl
  exact ⟨es, hstops.run, hfaults.trans (run_iff.1 hstops.run).1.faults_eq⟩

/-- A step that fails counts nothing. -/
theorem faults_of_step_error (h : m.step = .error (trap, m')) :
    m'.state.memory.faults = m.state.memory.faults :=
  congrArg Memory.faults (State.step_error_memory (step_eq_error_iff.1 h).2.1)

end Machine

/-- The faults of a machine that has been loaded are, after every run, the bytes outside of
    memory of the words that the executed instructions accessed. A step that fails adds
    none, so the same holds of what a run reports and of what it leaves when it fails. If
    no `LOAD` or `STORE` names an address outside of memory and no instruction sets the
    stack pointer, there are no faults. -/
theorem faults_count_strays {m₀ m : Machine} {p : Program} (h : m₀.loadProgram p = .ok m) :
    (∀ e : Event, e.strays = e.base?.elim 0 e.state.memory.strays) ∧
    (∀ es m', m.Run es m' →
      m'.state.memory.faults = Event.totalStrays es ∧
      (∀ trap m'', m'.step = .error (trap, m'') →
        m''.state.memory.faults = m'.state.memory.faults) ∧
      ((∀ e ∈ es, e.StaysInside) → m'.state.memory.faults = 0)) ∧
    (∀ m' r, m.Returns (m', .ok r) → ∃ es, m.Run es m' ∧
      r.memoryFaults = Event.totalStrays es) ∧
    ∀ m' trap, m.Returns (m', .error trap) → ∃ es m'', m.Run es m'' ∧
      m''.step = .error (trap, m') ∧ m'.state.memory.faults = Event.totalStrays es := by
  have hzero := Machine.faults_of_loadProgram h
  have hcount es m' (hrun : m.Run es m') : m'.state.memory.faults = Event.totalStrays es := by
    rw [(Machine.run_iff.1 hrun).1.faults_eq, hzero, Nat.zero_add]
  refine ⟨Event.strays_eq, fun es m' hrun => ⟨hcount es m' hrun,
    fun _ _ => Machine.faults_of_step_error, fun hes => ?_⟩, fun m' r hreturns => ?_,
    fun m' trap hreturns => ?_⟩
  · have hwhole := Machine.whole_of_loadProgram h
    exact ((Machine.run_iff.1 hrun).1.faults_of_staysInside hwhole hes).trans hzero
  · obtain ⟨es, hrun, hfaults⟩ := hreturns.faults_eq
    rw [hzero, Nat.zero_add] at hfaults
    exact ⟨es, hrun, hfaults⟩
  · obtain ⟨es, m'', hrun, hstep⟩ := hreturns.exists_step_error
    exact ⟨es, m'', hrun, hstep, (Machine.faults_of_step_error hstep).trans (hcount es m'' hrun)⟩

/-- A program that reads a word from the end of the address space. -/
def readAtLastAddresses : Program where
  code := (Instruction.load .eax 0xFFFFFFFE).encode
  data := []
  entryPoint := 0
  labels := .empty
  constants := .empty

/-- A program that pushes a word and pops it. -/
def pushAndPop : Program where
  code := (Instruction.unary .push .eax).encode ++ (Instruction.unary .pop .ebx).encode
  data := []
  entryPoint := 0
  labels := .empty
  constants := .empty

/-- The upper half of the word that is read is at the start of memory, and the word that is
    pushed fills the stack segment. -/
theorem faults_count_strays_sample :
    (∃ m es m' r, (Machine.boot .least none).loadProgram readAtLastAddresses = .ok m ∧
      m.Returns (m', .ok r) ∧ m.Run es m' ∧ r.memoryFaults = 2 ∧ Event.totalStrays es = 2) ∧
      ∃ m es m', (Machine.boot .least none).loadProgram pushAndPop = .ok m ∧ m.Run es m' ∧
        es.length = 2 ∧ m'.state.memory.faults = 0 := by
  constructor
  · have hcheck : (((Machine.boot .least none).loadProgram
        readAtLastAddresses).toOption.any fun m => (m.run 1).any fun x =>
          x.2.toOption.any fun r => decide (r.memoryFaults = 2)) = true := by
      decide +kernel
    obtain ⟨m, hload, hcheck⟩ := Except.any_toOption_iff.1 hcheck
    obtain ⟨⟨m', y⟩, hrun, hcheck⟩ := (Option.any_eq_true ..).1 hcheck
    obtain ⟨r, rfl, hcheck⟩ := Except.any_toOption_iff.1 hcheck
    have hfaults := of_decide_eq_true hcheck
    obtain ⟨es, hes, hsum⟩ := (faults_count_strays hload).2.2.1 m' r ⟨1, hrun⟩
    exact ⟨m, es, m', r, hload, ⟨1, hrun⟩, hes, hfaults, hsum.symm.trans hfaults⟩
  · have hcheck : (((Machine.boot .least none).loadProgram pushAndPop).toOption.any fun m =>
        (m.state.steps 2).toOption.any fun x => decide (x.1.length = 2 ∧
          ∀ e ∈ x.1, e.state.running = true ∧ e.StaysInside)) = true := by
      decide +kernel
    obtain ⟨m, hload, hcheck⟩ := Except.any_toOption_iff.1 hcheck
    obtain ⟨⟨es, t⟩, hsteps, hcheck⟩ := Except.any_toOption_iff.1 hcheck
    obtain ⟨hlength, hes⟩ := of_decide_eq_true hcheck
    have hrun : m.Run es { m with state := t } :=
      Machine.run_iff.2 ⟨.of_steps hsteps, fun e he => (hes e he).1, rfl⟩
    obtain ⟨-, -, hzero⟩ := (faults_count_strays hload).2.1 es _ hrun
    exact ⟨m, es, _, hload, hrun, hlength, hzero fun e he => (hes e he).2⟩

end Machine32
