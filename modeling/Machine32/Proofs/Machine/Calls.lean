import Machine32.Proofs.Machine.Stack

/-!
# Calls and returns

A jump that is taken pushes its own address. The word stays where it is while
more words are on the stack, whatever the machine does in between, and so the
first step that brings the stack back to the depth before the jump pops this
very word.

* `Instruction.stackAfter_append`: an instruction leaves a word on the stack and
  those below it alone, or pops this word;
* `State.Holds.run_above`: so the word stays during a run above it;
* `run_return`: a return goes on behind the jump, and a pop gets its address.
-/

namespace Machine32

/-- The last of the steps `es`, which lead to the state `t`, is the first of them
    that brings the stack to the depth `d`. -/
def FirstAtDepth (d : Nat) (es : List Event) (t : State) : Prop :=
  -- The steps but the last lead to the states of the events behind them.
  t.depth = d ∧ ∀ e ∈ es.tail, e.state.depth ≠ d

instance (d : Nat) (es : List Event) (t : State) : Decidable (FirstAtDepth d es t) :=
  inferInstanceAs (Decidable (_ ∧ _))

/-- An instruction keeps a word on the stack and those below it, or pops it. -/
theorem Instruction.stackAfter_append (i : Instruction) (s : State) (us : List Word) (w : Word)
    (ws : List Word) :
    (∃ us', i.stackAfter s (us ++ w :: ws) = us' ++ w :: ws) ∨
      us = [] ∧ i.pops = true ∧ i.stackAfter s (us ++ w :: ws) = ws := by
  simp only [stackAfter]
  split
  · next v _ => exact .inl ⟨v :: us, rfl⟩
  split
  · next hpop =>
    cases us with
    | nil => exact .inr ⟨rfl, hpop, rfl⟩
    | cons u us => exact .inl ⟨us, rfl⟩
  · exact .inl ⟨us, rfl⟩

namespace State

variable {s t : State} {es : List Event} {i : Instruction} {w : Word} {us ws ws' : List Word}

/-- What a step does to the stack, if it leaves it to pushes and pops. -/
theorem Holds.step (h : s.Holds ws) (hk : Event.KeepsStack ⟨s, i⟩) (hs : s.step = .ok (i, t)) :
    t.Holds (i.stackAfter s ws) := by
  obtain ⟨-, u, hu, rfl⟩ := step_eq_ok_iff.1 hs
  exact (h.execute hk hu).of_bytes rfl rfl fun _ _ _ => rfl

/-- The stack of a machine stays a list of words. -/
theorem Holds.run (h : s.Holds ws) (hrun : Run s es t) (hes : ∀ e ∈ es, e.KeepsStack) :
    ∃ ws', t.Holds ws' :=
  hrun.invariant_of_forall (P := fun _ t => ∃ ws', t.Holds ws') hes ⟨ws, h⟩
    fun _ _ _ _ ⟨_, ht⟩ hk hs => ⟨_, ht.step hk hs⟩

/-- Stacks with as many words end at the same address. -/
theorem Holds.esp_eq_of_length (hs : s.Holds ws) (ht : t.Holds ws')
    (hlayout : t.memory.layout = s.memory.layout) (hlength : ws'.length = ws.length) :
    t.registers.esp = s.registers.esp := by
  have hesp := hs.esp_eq
  have hesp' := ht.esp_eq
  rw [stack, hlayout, ← stack, hlength, ← hesp] at hesp'
  exact UInt32.toNat_inj.1 (Nat.add_right_cancel hesp')

/-- A word stays on the stack, with those below it, during a run that does not
    come back to the depth below it. -/
theorem Holds.run_above (h : s.Holds (w :: ws)) (hrun : Run s es t)
    (hes : ∀ e ∈ es, e.KeepsStack)
    (hdeep : ∀ e ∈ (es ++ [Event.mk t i]).tail, e.state.depth ≠ ws.length) :
    ∃ us, t.Holds (us ++ w :: ws) := by
  induction hrun generalizing i with
  | nil => exact ⟨[], h⟩
  | @snoc es t u j hrun hs ih =>
    obtain ⟨hes, hlast⟩ := List.forall_mem_append.1 hes
    rw [List.tail_append_of_ne_nil (List.append_ne_nil_of_right_ne_nil _ (List.cons_ne_nil _ _)),
      List.forall_mem_append, List.forall_mem_singleton] at hdeep
    obtain ⟨us, ht⟩ := ih hes hdeep.1
    have hu := ht.step (hlast _ List.mem_cons_self) hs
    rcases j.stackAfter_append t us w ws with ⟨us', heq⟩ | ⟨-, -, heq⟩
    · exact ⟨us', heq ▸ hu⟩
    · exact absurd (heq ▸ hu).depth_eq hdeep.2

/-- A step from above a word to the depth below it pops the word. -/
theorem Holds.pops_of_depth (h : s.Holds (us ++ w :: ws)) (hk : Event.KeepsStack ⟨s, i⟩)
    (hs : s.step = .ok (i, t)) (hd : t.depth = ws.length) :
    t.Holds ws ∧ i.pops = true ∧
      t.registers = (i.popped w (s.write .esp (s.registers.esp + 4))).registers := by
  have ht := h.step hk hs
  rcases i.stackAfter_append s us w ws with ⟨us', heq⟩ | ⟨rfl, hpop, heq⟩
  · rw [heq] at ht
    have hdepth := ht.depth_eq
    rw [List.length_append, List.length_cons] at hdepth
    omega
  · obtain ⟨w', ws', hw, hregisters⟩ := h.stackIs.popped hpop hs
    obtain ⟨rfl, rfl⟩ := List.cons.inj hw
    exact ⟨heq ▸ ht, hpop, hregisters⟩

/-- Where a machine is after a return, and what a register is after a pop. -/
theorem registers_of_pops (hpop : i.pops = true)
    (h : t.registers = (i.popped w s).registers) :
    i = .ret ∧ t.registers.ip = w + 8 ∨
      ∃ r, i = .unary .pop r ∧ (r ∈ Register.general → t.read r = w) ∧
        (r = .zf → t.registers.zeroFlag = (w != 0)) ∧ (r = .ip → t.registers.ip = w + 4) := by
  rcases Instruction.pops_cases hpop with rfl | ⟨r, rfl⟩
  · exact .inl ⟨rfl, congrArg Registers.ip h⟩
  · refine .inr ⟨r, rfl, fun hr => ?_, ?_, ?_⟩
    · obtain ⟨hip, hzf⟩ := Register.ne_of_mem_general hr
      rw [read, h]
      exact (read_write_of_ne (s := s.write r w) hip _).trans (s.registers.read_write_self hzf w)
    · rintro rfl
      exact congrArg Registers.zeroFlag h
    · rintro rfl
      exact congrArg Registers.ip h

end State

/-- The first step after a jump that brings the stack back to the depth before it
    is a return, which goes on behind the jump, or a pop of the address of the
    jump, whatever the machine has pushed, popped, called and returned from in
    between. The stack pointer is then what it was before the jump. -/
theorem run_return {m₀ m : Machine} {p : Program} (hload : m₀.loadProgram p = .ok m)
    {before between : List Event} {s t u v : State} {op : JumpOp} {a : Address} {i : Instruction}
    (hbefore : Run m.state before s) (hjump : s.step = .ok (.jump op a, t))
    (htaken : op.taken s.registers.zeroFlag = true)
    (hbetween : Run t between u) (hlast : u.step = .ok (i, v))
    (hes : ∀ e ∈ before ++ ⟨s, .jump op a⟩ :: (between ++ [⟨u, i⟩]), e.KeepsStack)
    (hfirst : FirstAtDepth s.depth (between ++ [⟨u, i⟩]) v) :
    v.registers.esp = s.registers.esp ∧
      (i = .ret ∧ v.registers.ip = s.registers.ip + 8 ∨
        ∃ r, i = .unary .pop r ∧ (r ∈ Register.general → v.read r = s.registers.ip) ∧
          (r = .zf → v.registers.zeroFlag = (s.registers.ip != 0)) ∧
          (r = .ip → v.registers.ip = s.registers.ip + 4)) := by
  obtain ⟨memory, -, rfl⟩ := Machine.loadProgram_eq_ok_iff.1 hload
  simp only [List.forall_mem_append, List.forall_mem_cons] at hes
  obtain ⟨hkbefore, hkjump, hkbetween, hklast, -⟩ := hes
  obtain ⟨ws, hs⟩ := (State.holds_initial memory).run hbefore hkbefore
  -- The jump pushes its address, which stays on the stack up to the last step.
  have ht := hs.step hkjump hjump
  have hpush : (Instruction.jump op a).stackAfter s ws = s.registers.ip :: ws := by
    rw [Instruction.stackAfter, Instruction.pushed?_jump_eq_some_iff.2 ⟨htaken, rfl⟩]
  rw [hpush] at ht
  rw [FirstAtDepth, hs.depth_eq] at hfirst
  obtain ⟨us, hu⟩ := ht.run_above hbetween hkbetween hfirst.2
  obtain ⟨hv, hpop, hregisters⟩ := hu.pops_of_depth hklast hlast hfirst.1
  have hlayout : v.memory.layout = s.memory.layout :=
    (hbetween.snoc hlast).memory_eq.1.trans (Run.nil.snoc hjump).memory_eq.1
  exact ⟨hs.esp_eq_of_length hv hlayout rfl, State.registers_of_pops hpop hregisters⟩

/-- A program that enters a function which calls another one and returns. That
    one pops its return address and pushes it again before it returns. -/
def nestedProgram : Program where
  code := [0x33, 0, 0, 0, 20, 0, 0, 0, 0x41, 1, 0, 0, 0x40, 1, 0, 0, 0x34, 0, 0, 0,
    0x33, 0, 0, 0, 8, 0, 0, 0, 0x34, 0, 0, 0]
  data := []
  entryPoint := 20
  labels := .empty
  constants := .empty

/-- The outer function returns behind the call that enters the program. -/
theorem run_return_sample :
    ∃ m t between u v,
      (Machine.boot Source.sampleLayout none).loadProgram nestedProgram = .ok m ∧
      m.state.step = .ok (.jump .call 20, t) ∧ Run t between u ∧ between.length = 4 ∧
      u.step = .ok (.ret, v) ∧
      (∀ e ∈ ⟨m.state, .jump .call 20⟩ :: (between ++ [⟨u, .ret⟩]), e.KeepsStack) ∧
      FirstAtDepth m.state.depth (between ++ [⟨u, .ret⟩]) v ∧
      v.registers.esp = m.state.registers.esp ∧ v.registers.ip = m.state.registers.ip + 8 := by
  have hcheck : (((Machine.boot Source.sampleLayout none).loadProgram
      nestedProgram).toOption.any fun m => m.state.step.toOption.any fun x =>
        (x.2.steps 4).toOption.any fun y => y.2.step.toOption.any fun z =>
          decide (x.1 = .jump .call 20 ∧ y.1.length = 4 ∧ z.1 = .ret ∧
            (∀ e ∈ ⟨m.state, .jump .call 20⟩ :: (y.1 ++ [⟨y.2, .ret⟩]), e.KeepsStack) ∧
            FirstAtDepth m.state.depth (y.1 ++ [⟨y.2, .ret⟩]) z.2)) = true := by
    decide +kernel
  obtain ⟨m, hload, hcheck⟩ := Except.any_toOption_iff.1 hcheck
  obtain ⟨⟨i, t⟩, hjump, hcheck⟩ := Except.any_toOption_iff.1 hcheck
  obtain ⟨⟨between, u⟩, hsteps, hcheck⟩ := Except.any_toOption_iff.1 hcheck
  obtain ⟨⟨j, v⟩, hlast, hcheck⟩ := Except.any_toOption_iff.1 hcheck
  obtain ⟨rfl, hlength, rfl, hes, hfirst⟩ := of_decide_eq_true hcheck
  have hrun := Run.of_steps hsteps
  obtain ⟨hesp, ⟨-, hip⟩ | ⟨_, hpop, -⟩⟩ := run_return hload .nil hjump rfl hrun hlast hes hfirst
  · exact ⟨m, t, between, u, v, hload, hjump, hrun, hlength, hlast, hes, hfirst, hesp, hip⟩
  · exact nomatch hpop

end Machine32
