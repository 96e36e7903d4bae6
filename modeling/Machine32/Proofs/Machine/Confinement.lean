import Machine32.Proofs.Memory.Accesses
import Machine32.Proofs.Memory.Segments
import Machine32.Proofs.Machine.Failure

/-!
# Where instructions write

Only a store writes where the program wants. A push writes to the stack segment,
wherever the program has set the stack pointer: it fails if the word would begin
in front of the segment, and what is behind the segment is not in memory.

* `Instruction.MayWrite`: the addresses that an instruction may write to;
* `State.execute_changesOnly`: it changes no byte at another one, and none at all
  if it fails;
* `Storeless.changesOnly`: so a run without a store changes the stack segment only;
* `writes_confined`: its program and its data are what was loaded.
-/

namespace Machine32

/-- Memory changes at the addresses `P` only. -/
structure Memory.ChangesOnly (P : Address → Prop) (m m' : Memory) : Prop where
  layout : m'.layout = m.layout
  programEnd : m'.programEnd = m.programEnd
  byte? : ∀ b, ¬P b → m'.byte? b = m.byte? b

/-- The addresses that an instruction may write to in the state `s`: a store to
    those of its word, and what pushes to the stack. -/
def Instruction.MayWrite (s : State) (i : Instruction) (b : Address) : Prop :=
  match i with
  | .store a _ => Word.Covers a b
  | .unary .push _ => s.stack.contains b = true
  | .jump op _ => op.taken s.registers.zeroFlag = true ∧ s.stack.contains b = true
  | _ => False

/-- The state comes about from `s` by steps none of which executes a store. A
    step that fails leaves a state, too. -/
inductive Storeless (s : State) : State → Prop
  | refl : Storeless s s
  | step {t u : State} {i : Instruction} : Storeless s t → t.step = .ok (i, u) →
      i.opcode ≠ .store → Storeless s u
  | stepFails {t : State} {stop : Stop} : Storeless s t → t.step = .error stop →
      Storeless s stop.state

namespace Memory.ChangesOnly

variable {P Q : Address → Prop} {m m' m'' : Memory}

theorem refl (P : Address → Prop) (m : Memory) : ChangesOnly P m m :=
  ⟨rfl, rfl, fun _ _ => rfl⟩

theorem trans (h : ChangesOnly P m m') (h' : ChangesOnly P m' m'') : ChangesOnly P m m'' where
  layout := h'.layout.trans h.layout
  programEnd := h'.programEnd.trans h.programEnd
  byte? b hb := (h'.byte? b hb).trans (h.byte? b hb)

theorem mono (h : ChangesOnly P m m') (hPQ : ∀ b, P b → Q b) : ChangesOnly Q m m' :=
  ⟨h.layout, h.programEnd, fun b hb => h.byte? b (mt (hPQ b) hb)⟩

/-- A segment stays as it is if none of its addresses is among those. -/
theorem segmentBytes_eq {r : Region} (h : ChangesOnly P m m')
    (hr : ∀ b, (m.layout.segment r).contains b = true → ¬P b) :
    m'.segmentBytes r = m.segmentBytes r :=
  segmentBytes_congr h.layout fun b hb => h.byte? b (hr b hb)

end Memory.ChangesOnly

namespace State

variable {s t : State} {i : Instruction} {a b : Address} {w : Word}

/-- Of a pushed word that is in memory all is in the stack segment. -/
theorem stack_contains_of_push {u : State} (h : s.push w = .ok u)
    (hb : Word.Covers (s.registers.esp - 4) b) (hin : b < s.memory.size) :
    s.stack.contains b = true := by
  obtain ⟨hstart, hend⟩ := push_address h
  have hlt := s.registers.esp.toNat_lt
  rw [Word.covers_iff (by omega)] at hb
  exact Segment.contains_iff.2 ⟨by omega, UInt32.lt_iff_toNat_lt.1 hin⟩

/-- What an instruction writes in memory is where it may write. -/
theorem mayWrite_of_written? (h : s.execute i = .ok t) (hw : i.written? s = some (a, w))
    (hb : Word.Covers a b) (hin : b < s.memory.size) : i.MayWrite s b := by
  rcases written?_cases hw with ⟨reg, rfl⟩ | ⟨hpush, rfl⟩
  · exact hb
  · rw [execute_of_pushed? hpush] at h
    obtain ⟨u, hu, -⟩ := Except.map_eq_ok_iff.1 h
    have hstack := stack_contains_of_push hu hb hin
    rcases Instruction.pushed?_cases hpush with ⟨reg, rfl, -⟩ | ⟨op, a, rfl, htaken, -⟩
    · exact hstack
    · exact ⟨htaken, hstack⟩

/-- An instruction changes memory only where it may write. -/
theorem execute_changesOnly (h : s.execute i = .ok t) :
    s.memory.ChangesOnly (i.MayWrite s) t.memory := by
  obtain ⟨hlayout, hend, -⟩ := execute_memory h
  refine ⟨hlayout, hend, fun b hb => ?_⟩
  by_cases hin : s.memory.size ≤ b
  · -- There is nothing to change outside of memory.
    have hout : t.memory.size ≤ b := by rwa [Memory.size, hlayout]
    rw [Memory.byte?_eq_none_iff.2 hin, Memory.byte?_eq_none_iff.2 hout]
  · refine execute_byte? h fun a w hw hcovers => hb ?_
    exact mayWrite_of_written? h hw hcovers (UInt32.not_le.1 hin)

end State

theorem Instruction.stack_contains_of_mayWrite {s : State} {i : Instruction} {b : Address}
    (hi : i.opcode ≠ .store) (h : i.MayWrite s b) : s.stack.contains b = true := by
  cases i with
  | store => exact absurd rfl hi
  | unary op reg =>
    cases op with
    | push => exact h
    | not | pop => exact h.elim
  | jump op a => exact h.2
  | mov | movImm | load | alu | ret => exact h.elim

namespace Storeless

variable {s t : State}

/-- Without a store memory changes in the stack segment only. -/
theorem changesOnly (h : Storeless s t) :
    s.memory.ChangesOnly (fun b => s.stack.contains b = true) t.memory := by
  induction h with
  | refl => exact .refl ..
  | @step t u i _ hstep hi ih =>
    obtain ⟨-, v, hv, rfl⟩ := State.step_eq_ok_iff.1 hstep
    refine ih.trans ((State.execute_changesOnly hv).mono fun b hb => ?_)
    have hstack : t.stack = s.stack := by rw [State.stack, ih.layout, State.stack]
    exact hstack ▸ Instruction.stack_contains_of_mayWrite hi hb
  | stepFails _ hstep ih =>
    rw [State.step_error_memory hstep]
    exact ih

theorem of_run {es : List Event} (h : Run s es t)
    (hes : ∀ e ∈ es, e.instruction.opcode ≠ .store) : Storeless s t :=
  h.invariant_of_forall (P := fun _ t => Storeless s t) hes .refl
    fun _ _ _ _ ht hi hu => .step ht hu hi

end Storeless

/-- An instruction that is executed changes no byte but where it may write, a
    store its word and what pushes the stack segment, and one that fails changes
    none. So as long as no store is executed, whatever is done to the stack
    pointer, the program and the data are those that were loaded. -/
theorem writes_confined :
    (∀ (s t : State) (i : Instruction), s.execute i = .ok t →
      s.memory.ChangesOnly (i.MayWrite s) t.memory) ∧
      (∀ (s : State) (i : Instruction) (stop : Stop), s.execute i = .error stop →
        stop.state.memory = s.memory) ∧
      ∀ (m m₀ : Machine) (p : Program) (s : State), m.loadProgram p = .ok m₀ →
        Storeless m₀.state s → s.memory.layout = m₀.layout ∧
          s.memory.programEnd = m₀.state.memory.programEnd ∧
          (∀ r, r ≠ .stack → s.memory.segmentBytes r = m₀.state.memory.segmentBytes r) ∧
          (p.code.length < 0x100000000 → p.data.length < 0x100000000 → ∀ r, r ≠ .stack →
            s.memory.segmentBytes r =
              (p.part r).rightpad (m.layout.segment r).size.toNat 0) := by
  refine ⟨fun _ _ _ h => State.execute_changesOnly h, fun _ _ _ h => State.execute_error_memory h,
    fun m m₀ p s hload hs => ?_⟩
  have hkept (r : Region) (hr : r ≠ .stack) :
      s.memory.segmentBytes r = m₀.state.memory.segmentBytes r :=
    hs.changesOnly.segmentBytes_eq fun b hb hstack => hr (Layout.contains_unique hb hstack)
  refine ⟨hs.changesOnly.layout, hs.changesOnly.programEnd, hkept, fun hcode hdata r hr => ?_⟩
  obtain ⟨memory, hmemory, rfl⟩ := Machine.loadProgram_eq_ok_iff.1 hload
  have hfits := Memory.length_part_of_load hmemory hcode hdata
  exact (hkept r hr).trans (Memory.segmentBytes_of_load hmemory hfits r)

/-- A program that pushes a word to the end of the stack segment, half of it
    behind memory, and then one to its start, a part of it in front of it. -/
def pushesAstride : Program where
  code := [.movImm .eax 0xFFFFFFFF, .movImm .esp 54, .unary .push .eax, .movImm .esp 47,
    .unary .push .eax].flatMap Instruction.encode
  data := [1, 2, 3, 4]
  entryPoint := 0
  labels := .empty
  constants := .empty

/-- A push next to the data and a failing return on a memory of zeros; and the two
    pushes astride of the stack segment, of which the first one has written two
    bytes and the second one has failed. -/
theorem writes_confined_sample :
    (∃ t, (State.initial (.zero .least)).execute (.unary .push .esp) = .ok t ∧
      t.memory.byte? 11 = some 0 ∧ t.memory.byte? 12 = some 16) ∧
    (∃ stop, (State.initial (.zero .least)).execute .ret = .error stop ∧
      stop.state.memory = .zero .least) ∧
    ∃ m₀ s, (Machine.boot Source.sampleLayout none).loadProgram pushesAstride = .ok m₀ ∧
      Storeless m₀.state s ∧ s.memory.faults = 2 ∧ s.registers.esp = 43 ∧
      s.memory.segmentBytes .stack = [0, 0, 0, 0, 0, 0, 0xFF, 0xFF] ∧
      s.memory.segmentBytes .data = [1, 2, 3, 4] ∧
      s.memory.segmentBytes .program = pushesAstride.code.rightpad 40 0 := by
  have hcheck : (((Machine.boot Source.sampleLayout none).loadProgram
      pushesAstride).toOption.any fun m => (m.state.steps 4).toOption.any fun x =>
        decide (∀ e ∈ x.1, e.instruction.opcode ≠ .store) &&
          match x.2.step with
          | .ok _ => false
          | .error stop => decide (stop.state.memory.faults = 2 ∧ stop.state.registers.esp = 43 ∧
            stop.state.memory.segmentBytes .stack = [0, 0, 0, 0, 0, 0, 0xFF, 0xFF])) = true := by
    decide +kernel
  have hdata : ¬Instruction.MayWrite (.initial (.zero .least)) (.unary .push .esp) 11 :=
    show ¬(_ = true) by decide
  refine ⟨⟨_, rfl, (writes_confined.1 (.initial (.zero .least)) _ _ rfl).byte? 11 hdata, rfl⟩,
    ⟨_, rfl, writes_confined.2.1 (.initial (.zero .least)) .ret _ rfl⟩, ?_⟩
  obtain ⟨m₀, hload, hcheck⟩ := Except.any_toOption_iff.1 hcheck
  obtain ⟨⟨es, t⟩, hsteps, hcheck⟩ := Except.any_toOption_iff.1 hcheck
  obtain ⟨hes, hcheck⟩ := Bool.and_eq_true_iff.1 hcheck
  have hs := Storeless.of_run (Run.of_steps hsteps) (of_decide_eq_true hes)
  cases hstep : t.step with
  | ok x => rw [hstep] at hcheck; exact nomatch hcheck
  | error stop =>
    rw [hstep] at hcheck
    obtain ⟨hfaults, hesp, hstack⟩ := of_decide_eq_true hcheck
    have hs := hs.stepFails hstep
    obtain ⟨-, -, -, himage⟩ := writes_confined.2.2 _ m₀ pushesAstride stop.state hload hs
    have himage := himage (by decide) (by decide)
    exact ⟨m₀, stop.state, hload, hs, hfaults, hesp, hstack, himage .data (by decide),
      himage .program (by decide)⟩

end Machine32
