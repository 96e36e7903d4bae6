import Machine32.Proofs.Memory.Loading
import Machine32.Proofs.Machine.Runs
import Machine32.Proofs.Assembly.Placement

/-!
# The stack as a list of words

As long as no instruction sets the stack pointer, and none stores to the words
on the stack, the stack in memory is a list of words.

* `stackWords` is the list after the instructions of a run: the words that were
  pushed and not yet popped, the last one first;
* `State.Holds` relates a state to its list, and every step preserves it
  (`Holds.execute`);
* `run_stack`: after every run the list is on the stack, and says which pushes
  and pops fail and what is popped.
-/

namespace Machine32

namespace Instruction

/-- The words on the stack after an instruction executed in the state `s`, when
    those before it are `ws`. -/
def stackAfter (s : State) (ws : List Word) (i : Instruction) : List Word :=
  match i.pushed? s with
  | some w => w :: ws
  | none => if i.pops then ws.tail else ws

end Instruction

/-- The words on the stack after the given events, the last one pushed first. -/
def stackWords (es : List Event) : List Word :=
  es.foldl (fun ws e => e.instruction.stackAfter e.state ws) []

theorem stackWords_concat (es : List Event) (s : State) (i : Instruction) :
    stackWords (es ++ [⟨s, i⟩]) = i.stackAfter s (stackWords es) :=
  List.foldl_append

/-- The instruction leaves the stack to pushes and pops: it does not set the
    stack pointer, and does not store to the words on the stack. -/
structure Event.KeepsStack (e : Event) : Prop where
  destination : e.instruction.destination? ≠ some .esp
  stores : e.instruction.StoresOutside e.state.registers.esp.toNat e.state.stack.stop.toNat

instance (e : Event) : Decidable e.KeepsStack :=
  decidable_of_iff (_ ∧ _) ⟨fun h => ⟨h.1, h.2⟩, fun h => ⟨h.destination, h.stores⟩⟩

namespace State

variable {s t : State} {i : Instruction} {ws : List Word} {w : Word}

/-- The stack of a state is a list of words. -/
structure Holds (s : State) (ws : List Word) : Prop where
  esp_eq : s.registers.esp.toNat + Word.size * ws.length = s.stack.stop.toNat
  start_le : s.stack.start ≤ s.registers.esp
  word : ∀ k w, ws[k]? = some w →
    s.memory.peekWord (s.registers.esp + UInt32.ofNat (Word.size * k)) = w

theorem toNat_stack_stop (s : State) :
    s.stack.stop.toNat = s.stack.start.toNat + s.memory.layout.stackSize.toNat := by
  rw [stack, Layout.segment, Layout.toNat_total, Layout.toNat_stackStart]

theorem size_bytes (s : State) : s.memory.bytes.size = s.stack.stop.toNat :=
  s.memory.size_bytes

theorem Holds.le_stop (h : s.Holds ws) : s.registers.esp.toNat ≤ s.stack.stop.toNat := by
  have := h.esp_eq
  omega

/-- The stack has as many words as the state says. -/
theorem Holds.depth_eq (h : s.Holds ws) : s.depth = ws.length := by
  have hesp := h.esp_eq
  have hstart := UInt32.le_iff_toNat_le.1 h.start_le
  have hle := h.le_stop
  have hsp : max s.stack.start.toNat (min s.registers.esp.toNat s.stack.stop.toNat) =
      s.registers.esp.toNat := by omega
  simp only [depth, hsp]
  rw [← hesp, Nat.add_sub_cancel_left, Nat.mul_div_cancel_left _ (by decide)]

/-- The address of a word on the stack. -/
theorem Holds.toNat_address (h : s.Holds ws) {k : Nat} (hk : k < ws.length) :
    (s.registers.esp + UInt32.ofNat (Word.size * k)).toNat =
        s.registers.esp.toNat + Word.size * k ∧
      s.registers.esp.toNat + Word.size * k + Word.size ≤ s.stack.stop.toNat := by
  have hesp := h.esp_eq
  have hlt := s.stack.stop.toNat_lt
  have hle : Word.size * k + Word.size ≤ Word.size * ws.length := Nat.mul_le_mul_left _ hk
  refine ⟨toNat_add_ofNat ?_, by omega⟩
  have : 0 < Word.size := by decide
  omega

/-- The words on the stack are the same where its bytes are. -/
theorem Holds.word_of_bytes (h : s.Holds ws) (hb : ∀ b : Address,
      s.registers.esp.toNat ≤ b.toNat → b.toNat < s.stack.stop.toNat →
        t.memory.peekByte b = s.memory.peekByte b) {k : Nat} {w : Word} (hw : ws[k]? = some w) :
    t.memory.peekWord (s.registers.esp + UInt32.ofNat (Word.size * k)) = w := by
  have hk := (List.getElem?_eq_some_iff.1 hw).1
  obtain ⟨haddr, hle⟩ := h.toNat_address hk
  have hlt := s.stack.stop.toNat_lt
  rw [← h.word k w hw]
  refine Memory.peekWord_congr fun b hcov => ?_
  obtain ⟨hge, hlt⟩ := (Word.covers_iff (by omega)).1 hcov
  exact hb b (by omega) (by omega)

theorem ofNat_mul_succ (k : Nat) :
    UInt32.ofNat (Word.size * (k + 1)) = 4 + UInt32.ofNat (Word.size * k) := by
  rw [Nat.mul_succ, UInt32.ofNat_add, UInt32.add_comm]
  rfl

/-- Pushing a word puts it in front. -/
theorem Holds.push (h : s.Holds ws) (hp : s.push w = .ok t) : t.Holds (w :: ws) := by
  obtain ⟨hstart, hsp⟩ := push_address hp
  have hstack := push_stack hp
  obtain ⟨-, rfl⟩ := push_eq_ok_iff.1 hp
  have hesp := h.esp_eq
  have hstop := s.stack.stop.toNat_lt
  refine ⟨?_, ?_, fun k v hv => ?_⟩
  · rw [hstack, store_registers, write_esp, List.length_cons, Nat.mul_succ]
    omega
  · rw [hstack, store_registers, write_esp, UInt32.le_iff_toNat_le]
    exact hstart
  rw [store_memory, store_registers, write_memory, write_esp]
  -- The new word is read back, and those above it are not overwritten.
  cases k with
  | zero =>
    obtain rfl := Option.some.inj hv
    rw [show s.registers.esp - 4 + UInt32.ofNat (Word.size * 0) = s.registers.esp - 4 from
      UInt32.add_zero _]
    refine Memory.peekWord_writeWord_self ?_ w
    rw [size_bytes]
    omega
  | succ k =>
    rw [ofNat_mul_succ, ← UInt32.add_assoc, UInt32.sub_add_cancel]
    have hword := h.word_of_bytes (t := s.store (s.registers.esp - 4) w) (fun b hge _ => ?_) hv
    · rwa [store_memory] at hword
    rw [store_memory]
    refine Memory.peekByte_writeWord_of_not_covers (fun hcov => ?_) w
    have hlt := ((Word.covers_iff (by omega)).1 hcov).2
    omega

/-- A pop takes the word in front. -/
theorem Holds.pop (h : s.Holds ws) (hp : s.pop = .ok (w, t)) :
    ws = w :: ws.tail ∧ t.Holds ws.tail := by
  obtain ⟨hlt, hw, rfl⟩ := pop_eq_ok_iff.1 hp
  have hesp := h.esp_eq
  have hstop := s.stack.stop.toNat_lt
  rw [UInt32.lt_iff_toNat_lt] at hlt
  rw [Word.size] at hesp
  -- There is a word, as the stack pointer is below the end.
  cases ws with
  | nil =>
    rw [List.length_nil] at hesp
    omega
  | cons v ws =>
    rw [List.length_cons] at hesp
    have hsp : (s.registers.esp + 4).toNat = s.registers.esp.toNat + 4 :=
      toNat_add_ofNat (i := 4) (by omega)
    have hstack : ((s.load s.registers.esp).2.write .esp (s.registers.esp + 4)).stack =
        s.stack := by
      rw [stack, stack, write_memory, load_memory, Memory.readWord_layout]
    have hv : v = w := by
      rw [hw, ← h.word 0 v rfl]
      exact congrArg _ (UInt32.add_zero _)
    rw [hv, List.tail_cons]
    refine ⟨rfl, ?_, ?_, fun k u hu => ?_⟩
    · rw [hstack, write_esp, hsp, Word.size]
      omega
    · have hstart := UInt32.le_iff_toNat_le.1 h.start_le
      rw [hstack, write_esp, UInt32.le_iff_toNat_le]
      omega
    · rw [write_memory, write_esp, UInt32.add_assoc, ← ofNat_mul_succ]
      refine h.word_of_bytes (fun b _ _ => ?_) (k := k + 1) hu
      rw [load_memory]
      exact Memory.peekByte_congr (Memory.readWord_bytes ..)

/-- A state with the same stack pointer and the same bytes on the stack has the
    same words on it. -/
theorem Holds.of_bytes (h : s.Holds ws) (hl : t.memory.layout = s.memory.layout)
    (hesp : t.registers.esp = s.registers.esp) (hb : ∀ b : Address,
      s.registers.esp.toNat ≤ b.toNat → b.toNat < s.stack.stop.toNat →
        t.memory.peekByte b = s.memory.peekByte b) : t.Holds ws := by
  have hstack : t.stack = s.stack := by rw [stack, hl, stack]
  refine ⟨?_, ?_, fun k w hw => ?_⟩
  · rw [hesp, hstack, h.esp_eq]
  · rw [hesp, hstack]
    exact h.start_le
  · rw [hesp]
    exact h.word_of_bytes hb hw

/-- What an instruction does to the stack, if it leaves it to pushes and pops. -/
theorem Holds.execute (h : s.Holds ws) (hk : Event.KeepsStack ⟨s, i⟩)
    (he : s.execute i = .ok t) : t.Holds (i.stackAfter s ws) := by
  rcases execute_cases he with ⟨w, u, hpush, hu, rfl⟩ | ⟨w, u, hpop, hu, rfl⟩ | ⟨hpush, hpop⟩
  · simp only [Instruction.stackAfter, hpush]
    exact (h.push hu).of_bytes rfl rfl fun _ _ _ => rfl
  · simp only [Instruction.stackAfter, Instruction.pushed?_of_pops hpop, hpop, if_true]
    obtain ⟨-, hu⟩ := h.pop hu
    have hmemory := popped_memory hpop w u
    refine hu.of_bytes (congrArg _ hmemory) ?_ fun _ _ _ => by rw [hmemory]
    exact popped_esp hpop hk.destination w u
  · simp only [Instruction.stackAfter, hpush, hpop, Bool.false_eq_true, if_false]
    obtain ⟨hl, -, -⟩ := execute_memory he
    have hesp := execute_esp hpush hpop hk.destination he
    refine h.of_bytes hl hesp fun b hge hlt => execute_peekByte he fun a w hw hcov => ?_
    -- Only a store writes, and that not to the stack.
    rcases written?_cases hw with ⟨reg, rfl⟩ | ⟨hsome, -⟩
    · obtain ⟨j, hj, rfl⟩ := hcov
      exact hk.stores j hj ⟨hge, hlt⟩
    · exact nomatch hpush.symm.trans hsome

/-- A push fails if there is no room for another word, and then as an
    overflow. -/
theorem Holds.push_eq_error_iff (h : s.Holds ws) {stop : Stop} :
    s.push w = .error stop ↔ ws.length = s.memory.layout.stackSize.toNat / Word.size ∧
      stop = ⟨.stackOverflow (s.registers.esp - 4), s.write .esp (s.registers.esp - 4)⟩ := by
  have hesp := h.esp_eq
  have hstart := UInt32.le_iff_toNat_le.1 h.start_le
  have hsize := s.toNat_stack_stop
  have haligned := s.memory.layout.aligned.2.2
  rw [State.push_eq_error_iff]
  refine and_congr_left fun _ => ?_
  rw [Word.size] at hesp haligned ⊢
  omega

/-- A pop fails if there is no word, and then as an underflow. -/
theorem Holds.pop_eq_error_iff (h : s.Holds ws) {stop : Stop} :
    s.pop = .error stop ↔ ws = [] ∧ stop = ⟨.stackUnderflow s.registers.esp, s⟩ := by
  have hesp := h.esp_eq
  rw [State.pop_eq_error_iff, UInt32.le_iff_toNat_le, ← List.length_eq_zero_iff]
  refine and_congr_left fun _ => ?_
  rw [Word.size] at hesp
  omega

/-- The machine in a state treats a list of words as its stack. -/
structure StackIs (s : State) (ws : List Word) : Prop extends s.Holds ws where
  depth : s.depth = ws.length
  /-- A push fails if the stack takes the whole segment. -/
  push_fails : ∀ {i w}, s.fetch = .ok i → i.pushed? s = some w → ∀ stop,
    s.step = .error stop ↔ ws.length = s.memory.layout.stackSize.toNat / Word.size ∧
      stop = ⟨.stackOverflow (s.registers.esp - 4), s.write .esp (s.registers.esp - 4)⟩
  /-- A pop fails if there is no word. -/
  pop_fails : ∀ {i}, s.fetch = .ok i → i.pops = true → ∀ stop,
    s.step = .error stop ↔ ws = [] ∧ stop = ⟨.stackUnderflow s.registers.esp, s⟩
  /-- A pop gives the word in front. -/
  popped : ∀ {i t}, i.pops = true → s.step = .ok (i, t) →
    ∃ w ws', ws = w :: ws' ∧
      t.registers = (i.popped w (s.write .esp (s.registers.esp + 4))).registers

theorem Holds.stackIs (h : s.Holds ws) : s.StackIs ws where
  toHolds := h
  depth := h.depth_eq
  push_fails := by
    intro i w hf hpush stop
    rw [step_eq_error_iff hf, execute_of_pushed? hpush, ← h.push_eq_error_iff (w := w)]
    cases s.push w <;> simp [Functor.map, Except.map]
  pop_fails := by
    intro i hf hpop stop
    rw [step_eq_error_iff hf, execute_of_pops hpop, ← h.pop_eq_error_iff]
    cases s.pop <;> simp [Functor.map, Except.map]
  popped := by
    intro i t hpop hstep
    obtain ⟨-, u, hu, rfl⟩ := step_eq_ok_iff.1 hstep
    rw [execute_of_pops hpop] at hu
    obtain ⟨⟨w, v⟩, hv, rfl⟩ := Except.map_eq_ok_iff.1 hu
    obtain ⟨-, -, rfl⟩ := pop_eq_ok_iff.1 hv
    refine ⟨w, ws.tail, (h.pop hv).1, popped_registers w ?_⟩
    rw [write, load_registers, write]

end State

/-- A machine that has just been loaded has nothing on its stack. -/
theorem State.holds_initial (memory : Memory) : (State.initial memory).Holds [] where
  esp_eq := rfl
  start_le := by
    rw [UInt32.le_iff_toNat_le]
    change memory.layout.stackStart.toNat ≤ memory.layout.total.toNat
    rw [Layout.toNat_stackStart, Layout.toNat_total]
    omega
  word _ _ h := nomatch h

/-- The stack of a machine is a list of words as long as its instructions leave
    it to pushes and pops: the words pushed and not yet popped. -/
theorem run_stack {m₀ m : Machine} {p : Program} (hload : m₀.loadProgram p = .ok m)
    {es : List Event} {s : State} (hrun : Run m.state es s) (hes : ∀ e ∈ es, e.KeepsStack) :
    s.memory.layout = m₀.layout ∧ s.StackIs (stackWords es) := by
  obtain ⟨memory, hmemory, rfl⟩ := Machine.loadProgram_eq_ok_iff.1 hload
  have hlayout := Memory.load_layout hmemory
  refine ⟨hrun.memory_eq.1.trans hlayout, State.Holds.stackIs ?_⟩
  refine hrun.invariant_of_forall (P := fun es s => s.Holds (stackWords es)) hes
    (State.holds_initial memory) ?_
  intro es t i u ht hk hstep
  obtain ⟨-, v, hv, rfl⟩ := State.step_eq_ok_iff.1 hstep
  rw [stackWords_concat]
  exact (ht.execute hk hv).of_bytes rfl rfl fun _ _ _ => rfl

/-- The sample program has called its function and filled the stack. -/
theorem run_stack_sample :
    ∃ m es s, (Machine.boot Source.sampleLayout none).loadProgram Source.sampleProgram = .ok m ∧
      Run m.state es s ∧ (∀ e ∈ es, e.KeepsStack) ∧ s.memory.layout = Source.sampleLayout ∧
      s.StackIs [28, 0] := by
  have hcheck : (((Machine.boot Source.sampleLayout none).loadProgram
      Source.sampleProgram).toOption.any fun m => (m.state.steps 4).toOption.any fun x =>
        decide ((∀ e ∈ x.1, e.KeepsStack) ∧ stackWords x.1 = [28, 0])) = true := by
    decide +kernel
  obtain ⟨m, hload, hcheck⟩ := Except.any_toOption_iff.1 hcheck
  obtain ⟨⟨es, s⟩, hsteps, hcheck⟩ := Except.any_toOption_iff.1 hcheck
  obtain ⟨hes, hwords⟩ := of_decide_eq_true hcheck
  obtain ⟨hlayout, hstack⟩ := run_stack hload (Run.of_steps hsteps) hes
  exact ⟨m, es, s, hload, Run.of_steps hsteps, hes, hlayout, hwords ▸ hstack⟩

end Machine32
