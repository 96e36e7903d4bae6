import Machine32.Proofs.Memory.Loading
import Machine32.Proofs.Machine.Running

/-!
# Runs that never pop

A machine whose instructions never pop, and set neither the stack pointer nor
the instruction pointer, comes to a stop. A jump that it takes uses up a word of
the stack for good, and between two such jumps it only goes ahead in its program.

* `State.budget` counts the instructions that it can still execute: the way to
  the end of the program, and as much again as the whole program for each word
  that there is room for on the stack;
* `State.execute_budget`: every instruction uses up some of it;
* `run_terminates_of_onlyPushes`: so the machine stops, whatever it stores to the
  code.
-/

namespace Machine32

/-- The number of words that `n` bytes take, the last of which they need not fill. -/
def Word.count (n : Nat) : Nat :=
  (n + (size - 1)) / size

/-- The instruction does not pop, and sets neither the stack pointer nor the
    instruction pointer. -/
structure Instruction.OnlyPushes (i : Instruction) : Prop where
  pops : i.pops = false
  esp : i.destination? ≠ some .esp
  ip : i.destination? ≠ some .ip

instance (i : Instruction) : Decidable i.OnlyPushes :=
  decidable_of_iff (_ ∧ _ ∧ _) ⟨fun h => ⟨h.1, h.2.1, h.2.2⟩, fun h => ⟨h.pops, h.esp, h.ip⟩⟩

namespace State

variable {s t : State} {i : Instruction}

/-- The number of words that there is room for on the stack. -/
def room (s : State) : Nat :=
  (s.registers.esp.toNat - s.stack.start.toNat) / Word.size

/-- The number of words from the instruction pointer to the end of the program. -/
def ahead (s : State) : Nat :=
  Word.count (s.memory.programEnd.toNat - s.registers.ip.toNat)

/-- The number of instructions that the machine can execute at most before it
    stops, if none of them pops. -/
def budget (s : State) : Nat :=
  s.room * Word.count s.memory.programEnd.toNat + s.ahead

theorem ahead_le (s : State) : s.ahead ≤ Word.count s.memory.programEnd.toNat := by
  simp only [ahead, Word.count, Word.size]
  omega

theorem ahead_pos (h : s.running = true) : 0 < s.ahead := by
  rw [running, decide_eq_true_iff, UInt32.lt_iff_toNat_lt] at h
  simp only [ahead, Word.count, Word.size]
  omega

/-- A push takes one of the words that there is room for. -/
theorem room_of_push {w : Word} (h : s.push w = .ok t) : t.room + 1 = s.room := by
  obtain ⟨hstart, hsp⟩ := push_address h
  have hstack := push_stack h
  obtain ⟨-, rfl⟩ := push_eq_ok_iff.1 h
  rw [room, room, hstack, store_registers, write_esp]
  rw [Word.size] at hsp ⊢
  omega

/-- An instruction that does not pop takes room on the stack if it pushes, and
    leaves it otherwise. -/
theorem execute_room (hi : i.OnlyPushes) (h : s.execute i = .ok t) :
    (∃ w, i.pushed? s = some w ∧ t.room + 1 = s.room) ∨ i.pushed? s = none ∧ t.room = s.room := by
  rcases execute_cases h with ⟨w, u, hpush, hu, rfl⟩ | ⟨w, u, hpop, -⟩ | ⟨hpush, hpop⟩
  · exact .inl ⟨w, hpush, (room_of_push hu : u.room + 1 = s.room)⟩
  · exact nomatch hi.pops.symm.trans hpop
  · obtain ⟨hl, -, -⟩ := execute_memory h
    refine .inr ⟨hpush, ?_⟩
    rw [room, room, stack, stack, hl, execute_esp hpush hpop hi.esp h]

/-- Going ahead by an instruction in the program does not wrap around. -/
theorem ahead_of_ip (hr : s.running = true) (hend : t.memory.programEnd = s.memory.programEnd)
    (hip : t.registers.ip = s.registers.ip + UInt32.ofNat i.length) : t.ahead + 1 ≤ s.ahead := by
  rw [running, decide_eq_true_iff, UInt32.lt_iff_toNat_lt] at hr
  have hle := UInt32.le_iff_toNat_le.1 s.memory.programEnd_le
  obtain ⟨-, hdata, hstack⟩ := s.memory.layout.nonempty
  obtain ⟨-, haligned, haligned'⟩ := s.memory.layout.aligned
  have htotal := s.memory.layout.total_lt
  have hlength := i.length_eq
  rw [Word.size] at haligned haligned'
  have hto : t.registers.ip.toNat = s.registers.ip.toNat + i.length := by
    rw [hip, toNat_add_ofNat (by omega)]
  simp only [ahead, Word.count, Word.size, hend, hto]
  omega

/-- Every instruction uses up some of the budget. -/
theorem execute_budget (hr : s.running = true) (hi : i.OnlyPushes) (h : s.execute i = .ok t) :
    t.budget < s.budget := by
  obtain ⟨-, hend, -⟩ := execute_memory h
  rw [budget, budget, hend]
  rcases execute_room hi h with ⟨w, -, hroom⟩ | ⟨hpush, hroom⟩
  · -- The word that is pushed pays for the whole program.
    have hahead := t.ahead_le
    have hpos := ahead_pos hr
    rw [hend] at hahead
    rw [← hroom, Nat.succ_mul]
    omega
  · rcases execute_ip hi.ip h with ⟨op, a, rfl, htaken, -⟩ | ⟨rfl, -⟩ | hip
    · exact absurd htaken (Instruction.pushed?_jump_eq_none_iff.1 hpush)
    · exact nomatch hi.pops
    · have hahead := ahead_of_ip hr hend hip
      rw [hroom]
      omega

/-- A machine that is switched on can go through its program once, and once more
    for each word of the stack segment. -/
theorem budget_initial (memory : Memory) :
    (State.initial memory).budget = (memory.layout.stackSize.toNat / Word.size + 1) *
      Word.count memory.programEnd.toNat := by
  have hroom : (State.initial memory).room = memory.layout.stackSize.toNat / Word.size := by
    change (memory.layout.total.toNat - memory.layout.stackStart.toNat) / Word.size = _
    rw [Layout.toNat_total, Layout.toNat_stackStart, Nat.add_sub_cancel_left]
  rw [budget, hroom, Nat.succ_mul]
  rfl

end State

namespace Machine

variable {m m' : Machine} {es : List Event}

/-- What a run has executed is taken from the budget of the machine. -/
theorem Run.length_add_budget_le (h : m.Run es m') (hes : ∀ e ∈ es, e.instruction.OnlyPushes) :
    es.length + m'.state.budget ≤ m.state.budget := by
  induction h with
  | nil => exact Nat.le_of_eq (Nat.zero_add _)
  | @snoc es m' m'' i _ hs ih =>
    obtain ⟨hes, hlast⟩ := List.forall_mem_append.1 hes
    obtain ⟨hr, hs, -⟩ := step_eq_ok_some_iff.1 hs
    obtain ⟨-, u, hu, heq⟩ := State.step_eq_ok_iff.1 hs
    have hle := ih hes
    have hlt : u.budget < m'.state.budget :=
      State.execute_budget hr (hlast _ List.mem_cons_self) hu
    have hu : m''.state.budget = u.budget := by
      rw [heq]
      rfl
    rw [List.length_append, List.length_singleton]
    omega

/-- A machine none of whose instructions pops stops. -/
theorem exists_stopsAfter_of_onlyPushes
    (h : ∀ es m', m.Run es m' → ∀ e ∈ es, e.instruction.OnlyPushes) :
    ∃ es m', m.StopsAfter es m' := by
  refine exists_stopsAfter_of_length_lt m.state.budget fun es m' hrun hgoes => ?_
  have hle := hrun.length_add_budget_le (h es m' hrun)
  -- A machine that goes on has some of the budget left.
  have hpos := State.ahead_pos (halted?_eq_none_iff.1 (step_of_not_stops hgoes).1).1
  have hahead : m'.state.ahead ≤ m'.state.budget := Nat.le_add_left ..
  omega

/-- A loaded machine whose instructions do not pop, and set neither the stack
    pointer nor the instruction pointer, executes so many of them at most, and
    so its run without a limit returns, at the end of the program or with a
    trap. -/
theorem run_terminates_of_onlyPushes {m₀ m : Machine} {p : Program}
    (hload : m₀.loadProgram p = .ok m) :
    (∀ es m', m.Run es m' → (∀ e ∈ es, e.instruction.OnlyPushes) →
      es.length ≤ (m₀.layout.stackSize.toNat / Word.size + 1) *
        Word.count m.state.memory.programEnd.toNat) ∧
      (m.maxCycles = none → (∀ es m', m.Run es m' → ∀ e ∈ es, e.instruction.OnlyPushes) →
        ∃ m' result, m.Returns (m', result) ∧
          ∀ report, result = .ok report → report.haltReason = .endOfProgram) := by
  obtain ⟨memory, hmemory, rfl⟩ := loadProgram_eq_ok_iff.1 hload
  refine ⟨fun es m' hrun hes => ?_, fun hmax hes => ?_⟩
  · have hle := hrun.length_add_budget_le hes
    have hlayout : memory.layout = m₀.layout := by rw [Memory.load_layout hmemory, Memory.zero]
    rw [State.budget_initial, hlayout] at hle
    exact Nat.le_trans (Nat.le_add_right ..) hle
  · obtain ⟨es, m', hstops⟩ := exists_stopsAfter_of_onlyPushes hes
    obtain ⟨⟨m'', result⟩, hresult, hreports⟩ := hstops.stops.exists_returns
    refine ⟨m'', result, (returns_iff_of_stopsAfter hstops).2 hresult, fun report hok => ?_⟩
    cases hreason : report.haltReason with
    | endOfProgram => rfl
    | cycleLimit =>
      obtain ⟨-, limit, hlimit, -⟩ := hreports.cycleLimit_iff.1 ⟨report, hok, hreason⟩
      exact nomatch (hstops.run.cycles_eq.1.trans hmax).symm.trans hlimit

/-- A program that would jump back forever, but stores over the jump first. -/
def overwritingProgram : Program where
  code := [0x33, 0, 0, 0, 8, 0, 0, 0, 0x04, 0, 0, 0, 16, 0, 0, 0, 0x30, 0, 0, 0, 8, 0, 0, 0]
  data := []
  entryPoint := 8
  labels := .empty
  constants := .empty

/-- It executes two instructions, and may execute no more than eighteen. -/
theorem run_terminates_of_onlyPushes_sample :
    ∃ m es m', (boot Source.sampleLayout none).loadProgram overwritingProgram = .ok m ∧
      m.Run es m' ∧ es.length = 2 ∧ (∀ e ∈ es, e.instruction.OnlyPushes) ∧ es.length ≤ 18 ∧
      ∃ m'' result, m.Returns (m'', result) ∧
        ∀ report, result = .ok report → report.haltReason = .endOfProgram := by
  have hcheck : (((boot Source.sampleLayout none).loadProgram
      overwritingProgram).toOption.any fun m => decide (m.maxCycles = none ∧
        m.state.memory.programEnd = 24 ∧ (m.state.steps 3).toOption = none ∧
        ∀ n : Fin 3, (m.state.steps n).toOption.any fun x =>
          decide (x.1.length = n.val ∧ (∀ e ∈ x.1, e.state.running = true) ∧
            ∀ e ∈ x.1, e.instruction.OnlyPushes))) = true := by
    decide +kernel
  obtain ⟨m, hload, hcheck⟩ := Except.any_toOption_iff.1 hcheck
  obtain ⟨hmax, hend, hfails, hsteps⟩ := of_decide_eq_true hcheck
  -- The third step fails, so the instructions of every run are those of the check.
  have hpushes : ∀ es m', m.Run es m' → ∀ e ∈ es, e.instruction.OnlyPushes := by
    intro es m' hrun
    have hrun := (run_iff.1 hrun).1
    have hlt : es.length < 3 := by
      refine Nat.lt_of_not_le fun hle => ?_
      obtain ⟨_, hx⟩ := hrun.exists_steps_of_le hle
      rw [hx] at hfails
      exact nomatch hfails
    obtain ⟨x, hx, hcheck⟩ := Except.any_toOption_iff.1 (hsteps ⟨es.length, hlt⟩)
    obtain rfl := Except.ok.inj ((Machine32.Run.iff_steps.1 hrun).symm.trans hx)
    exact (of_decide_eq_true hcheck).2.2
  obtain ⟨⟨es, s⟩, hes, hcheck⟩ := Except.any_toOption_iff.1 (hsteps 2)
  obtain ⟨hlength, hrunning, -⟩ := of_decide_eq_true hcheck
  have hrun : m.Run es { m with state := s } := run_iff.2 ⟨.of_steps hes, hrunning, rfl⟩
  obtain ⟨hle, hreturns⟩ := run_terminates_of_onlyPushes hload
  have hle := hle es _ hrun (hpushes es _ hrun)
  rw [hend] at hle
  exact ⟨m, es, _, hload, hrun, hlength, hpushes es _ hrun, hle, hreturns hmax hpushes⟩

end Machine

end Machine32
