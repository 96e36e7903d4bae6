import Machine32.Proofs.Assembly.Emission
import Machine32.Proofs.Memory.Loading
import Machine32.Proofs.Machine.Runs
import Machine32.Proofs.Assembly.Placement

/-!
# Where execution goes

A machine with an assembled program executes the instructions of the program
and nothing else, as long as it stores nothing to the code, sets the instruction
pointer by jumps and returns only, jumps to instructions, and returns to jumps
that it executed (`Event.KeepsControl`).

* `InProgram` is what every such step preserves (`InProgram.step`): the
  instruction pointer is at a boundary of the code, which is still in memory;
* `run_control_flow`: so every state of the machine fetches the instruction that
  the assembler put where the instruction pointer is.
-/

namespace Machine32

/-- The instruction leaves the code, which takes `size` bytes, as it is, and
    goes where the program has an instruction: the targets are such addresses,
    and the instructions executed before it are `before`. -/
structure Event.KeepsControl (target : Address → Prop) (size : Nat) (before : List Event)
    (e : Event) : Prop where
  stores : e.instruction.StoresOutside 0 size
  destination : e.instruction.destination? ≠ some .ip
  jump : ∀ op a, e.instruction = .jump op a →
    op.taken e.state.registers.zeroFlag = true → target a
  ret : e.instruction = .ret → ∃ e' ∈ before, (∃ op a, e'.instruction = .jump op a) ∧
    e'.state.registers.ip = e.state.memory.peekWord e.state.registers.esp

namespace Event.KeepsControl

variable {target target' : Address → Prop} {size : Nat} {before : List Event} {e : Event}

theorem mono (h : e.KeepsControl target size before) (ht : ∀ a, target a → target' a) :
    e.KeepsControl target' size before where
  stores := h.stores
  destination := h.destination
  jump op a hjump htaken := ht a (h.jump op a hjump htaken)
  ret := h.ret

/-- What a jump and a return have to meet. -/
def Goes (target : Address → Prop) (before : List Event) (s : State) : Instruction → Prop
  | .jump op a => op.taken s.registers.zeroFlag = true → target a
  | .ret => ∃ e ∈ before, e.instruction.opcode.isJump = true ∧
      e.state.registers.ip = s.memory.peekWord s.registers.esp
  | _ => True

theorem iff_goes : e.KeepsControl target size before ↔
    e.instruction.StoresOutside 0 size ∧ e.instruction.destination? ≠ some .ip ∧
      Goes target before e.state e.instruction := by
  have hjump (i : Instruction) : i.opcode.isJump = true ↔ ∃ op a, i = .jump op a := by
    cases i <;> simp [Instruction.opcode, Opcode.isJump]
  obtain ⟨s, i⟩ := e
  constructor
  · intro h
    refine ⟨h.stores, h.destination, ?_⟩
    cases i with
    | jump op a => exact h.jump op a rfl
    | ret =>
      obtain ⟨e, he, hop, hip⟩ := h.ret rfl
      exact ⟨e, he, (hjump _).2 hop, hip⟩
    | _ => trivial
  · rintro ⟨hstores, hdestination, hgoes⟩
    refine ⟨hstores, hdestination, ?_, ?_⟩
    · rintro op a ⟨⟩
      exact hgoes
    · rintro ⟨⟩
      obtain ⟨e, he, hop, hip⟩ := hgoes
      exact ⟨e, he, (hjump _).1 hop, hip⟩

instance [DecidablePred target] (s : State) (i : Instruction) :
    Decidable (Goes target before s i) :=
  match i with
  | .jump .. => inferInstanceAs (Decidable (_ → _))
  | .ret => inferInstanceAs (Decidable (∃ _ ∈ _, _))
  | .mov .. | .movImm .. | .load .. | .store .. | .alu .. | .unary .. =>
    inferInstanceAs (Decidable True)

instance [DecidablePred target] : Decidable (e.KeepsControl target size before) :=
  decidable_of_iff' _ iff_goes

end Event.KeepsControl

/-- The machine has executed instructions of the program `is` and is to go on
    with one, unless it is at the end. -/
structure InProgram (is : List Instruction) (es : List Event) (s : State) : Prop where
  boundary : Instruction.Boundary 0 is s.registers.ip.toNat
  code : s.memory.HasCode (is.flatMap Instruction.encode)
  executed : ∀ e ∈ es, (e.state.registers.ip.toNat, e.instruction) ∈ Instruction.located 0 is
  fits : Instruction.totalLength is ≤ s.memory.layout.programSize.toNat
  programEnd : s.memory.programEnd.toNat = Instruction.totalLength is

namespace InProgram

variable {is : List Instruction} {es : List Event} {s t : State} {i : Instruction}

theorem running_iff (h : InProgram is es s) :
    s.running = true ↔ s.registers.ip.toNat < Instruction.totalLength is := by
  rw [State.running, decide_eq_true_iff, UInt32.lt_iff_toNat_lt, h.programEnd]

/-- A machine that is in its program is at an instruction. -/
theorem exists_located (h : InProgram is es s) (hr : s.running = true) :
    ∃ i, (s.registers.ip.toNat, i) ∈ Instruction.located 0 is := by
  have hlt := h.running_iff.1 hr
  rcases h.boundary with hi | heq
  · exact hi
  · omega

/-- The instructions of the program are decoded where they are. -/
theorem decode_eq (h : InProgram is es s) {a : Address}
    (hi : (a.toNat, i) ∈ Instruction.located 0 is) :
    Instruction.decode (s.memory.window a Instruction.maxLength) = .ok i := by
  have hsize := s.memory.size_bytes
  have hlt := s.memory.layout.total.toNat_lt
  have hfits := h.fits
  rw [Layout.toNat_total] at hsize hlt
  exact Memory.decode_window h.code (by omega) (by omega) hi

/-- The instruction at the instruction pointer is fetched. -/
theorem fetch_eq (h : InProgram is es s)
    (hi : (s.registers.ip.toNat, i) ∈ Instruction.located 0 is) : s.fetch = .ok i := by
  rw [State.fetch, h.decode_eq hi]
  rfl

/-- Code that is not stored to stays in memory, as the stack is elsewhere. -/
theorem hasCode (h : InProgram is es s)
    (hstores : i.StoresOutside 0 (Instruction.totalLength is)) (he : s.execute i = .ok t) :
    t.memory.HasCode (is.flatMap Instruction.encode) := by
  intro b hb
  rw [h.code b hb, State.execute_peekByte he]
  intro a w hw hcov
  rw [Instruction.length_flatMap_encode] at hb
  -- A store is outside the code, and a push is in the stack segment.
  rcases State.written?_cases hw with ⟨reg, rfl⟩ | ⟨hpush, rfl⟩
  · obtain ⟨j, hj, rfl⟩ := hcov
    exact hstores j hj ⟨Nat.zero_le _, hb⟩
  · rw [State.execute_of_pushed? hpush] at he
    obtain ⟨u, hu, -⟩ := Except.map_eq_ok_iff.1 he
    obtain ⟨hge, hsp⟩ := State.push_address hu
    have hstart : s.stack.start.toNat = _ := s.memory.layout.toNat_stackStart
    have hfits := h.fits
    have hesp := s.registers.esp.toNat_lt
    have hle := ((Word.covers_iff (by omega)).1 hcov).1
    omega

/-- Behind an instruction of the program there is another one, or its end. -/
theorem boundary_next (h : InProgram is es s) {x : Address}
    (hi : (x.toNat, i) ∈ Instruction.located 0 is) :
    Instruction.Boundary 0 is (x + UInt32.ofNat i.length).toNat := by
  have hle := (Instruction.le_of_mem_located hi).2
  have hlt := s.memory.layout.programSize.toNat_lt
  have hfits := h.fits
  rw [toNat_add_ofNat (by omega)]
  exact Instruction.boundary_next hi

/-- A step of the machine in its program leaves it there. -/
theorem step {target : Address → Prop} (h : InProgram is es s) (hr : s.running = true)
    (hk : Event.KeepsControl target (Instruction.totalLength is) es ⟨s, i⟩)
    (htarget : ∀ a, target a → Instruction.Boundary 0 is a.toNat) (hs : s.step = .ok (i, t)) :
    InProgram is (es ++ [⟨s, i⟩]) t := by
  obtain ⟨hf, u, hu, rfl⟩ := State.step_eq_ok_iff.1 hs
  obtain ⟨j, hj⟩ := h.exists_located hr
  obtain rfl := Except.ok.inj (hf.symm.trans (h.fetch_eq hj))
  obtain ⟨hlayout, hend, -⟩ := State.execute_memory hu
  have hip : Instruction.Boundary 0 is u.registers.ip.toNat := by
    rcases State.execute_ip hk.destination hu with ⟨op, a, rfl, htaken, heq⟩ | ⟨rfl, heq⟩ | heq
    · -- At the target of the jump.
      rw [heq]
      exact htarget a (hk.jump op a rfl htaken)
    · -- Behind the jump to whose address the machine returns.
      obtain ⟨e, he, ⟨op, a, hjump⟩, horigin⟩ := hk.ret rfl
      have hlocated := h.executed e he
      have hlength : (Instruction.jump op a).length = Shape.jump.length := rfl
      have hnext := h.boundary_next (hjump ▸ hlocated)
      rwa [heq, ← horigin, ← hlength]
    · -- Behind the instruction itself.
      have hnext := h.boundary_next hj
      rwa [heq]
  have hcode := h.hasCode hk.stores hu
  refine ⟨hip, hcode, List.forall_mem_append.2 ⟨h.executed, ?_⟩, ?_, ?_⟩
  · exact List.forall_mem_singleton.2 hj
  · exact hlayout ▸ h.fits
  · exact hend ▸ h.programEnd

/-- A run that keeps control stays in the program. -/
theorem run {target : Address → Prop} {m m' : Machine} (h : InProgram is [] m.state)
    (hrun : m.Run es m')
    (hes : ∀ (k : Nat) (e : Event), es[k]? = some e →
      e.KeepsControl target (Instruction.totalLength is) (es.take k))
    (htarget : ∀ a, target a → Instruction.Boundary 0 is a.toNat) :
    InProgram is es m'.state := by
  induction hrun with
  | nil => exact h
  | @snoc es m' m'' i _ hstep ih =>
    obtain ⟨hr, hstep, -⟩ := Machine.step_eq_ok_some_iff.1 hstep
    have hlast := hes es.length _ List.getElem?_concat_length
    rw [List.take_left] at hlast
    refine (ih fun k e he => ?_).step hr hlast htarget hstep
    have hk := (List.getElem?_eq_some_iff.1 he).1
    have hkeeps := hes k e (by rw [List.getElem?_append_left hk, he])
    rwa [List.take_append_of_le_length (Nat.le_of_lt hk)] at hkeeps

end InProgram

/-- A machine with an assembled program is at the entry call. -/
theorem inProgram_initial {l : Layout} {lines : List (Option Line)} {a : Assembler}
    (h : (Assembler.initial l).Feeds lines a) {entry : Address} {memory : Memory}
    (hload : (Memory.zero l).load (a.program entry) = .ok memory) :
    InProgram (a.instructions entry) [] (State.initial memory) := by
  have hlength := a.length_code_program entry
  have hfits := (Assembler.bounded_of_feeds h).codeSize_le
  rw [h.layout, ← hlength] at hfits
  have htotal : Instruction.totalLength (a.instructions entry) = (a.program entry).code.length :=
    (Instruction.length_flatMap_encode _).symm
  refine ⟨Instruction.boundary_start .., Memory.load_code hload hfits, ?_, ?_, ?_⟩
  · exact fun _ he => absurd he List.not_mem_nil
  · have hlayout : memory.layout = l := Memory.load_layout hload
    rw [htotal, State.initial, hlayout]
    exact hfits
  · rw [htotal, State.initial, Memory.load_programEnd hload, Program.codeSize]
    exact UInt32.toNat_ofNat_of_lt' (Nat.lt_of_le_of_lt hfits l.programSize.toNat_lt)

/-- The program that the assembler makes is loaded into the memory it is made
    for. -/
theorem load_program {l : Layout} {lines : List (Option Line)} {a : Assembler}
    (h : (Assembler.initial l).Feeds lines a) (entry : Address) :
    ∃ memory, (Memory.zero l).load (a.program entry) = .ok memory := by
  have hbounded := Assembler.bounded_of_feeds h
  have hcode := hbounded.codeSize_le
  have hdata := hbounded.dataSize_le
  rw [h.layout] at hcode hdata
  rw [← a.length_code_program entry] at hcode
  rw [← a.length_data_program entry] at hdata
  refine ⟨_, Memory.load_eq_ok_iff.2 ⟨⟨?_, ?_⟩, rfl⟩⟩
  · exact UInt32.le_iff_toNat_le.2 (Nat.le_trans (Nat.mod_le ..) hcode)
  · exact UInt32.le_iff_toNat_le.2 (Nat.le_trans (Nat.mod_le ..) hdata)

/-- Whether a trap is that there is no instruction. -/
def Trap.OfFetch : Trap → Prop
  | invalidOpcode .. | invalidRegister .. | undecodable .. => True
  | stackOverflow _ | stackUnderflow _ | divisionByZero _ => False

/-- A machine with an assembled program that keeps control executes the
    instructions of the program, and nothing else: between them the instruction
    pointer is where the assembler put one, or at the end of the program. Jumps
    to labels keep control, as they go to what the labels stand for. -/
theorem run_control_flow {l : Layout} {source : String} {p : Program}
    (h : assemble l source = .ok p) (maxCycles : Option Nat) :
    ∃ lines, Assembler.Parses (textLines source) lines ∧
      (∀ mnemonic name op x a b,
        Assembler.StepsOn l lines (.statement mnemonic [.symbol name]) a b →
        b.code = a.code.push (.jump op x) → a.symbols.constants.get? name = none →
        p.labels.get? name = some x) ∧
      (∀ name x, p.labels.get? name = some x → Assembler.Target l lines p x) ∧
      ∃ m, (Machine.boot l maxCycles).loadProgram p = .ok m ∧
        ∀ es m', m.Run es m' →
          (∀ (k : Nat) (e : Event), es[k]? = some e →
            e.KeepsControl (Assembler.Target l lines p) p.code.length (es.take k)) →
          ((∃ i, Assembler.Emitted l lines p m'.state.registers.ip i) ∨
            m'.state.registers.ip = m'.state.memory.programEnd) ∧
          (m'.state.running = true → ∃ i, m'.state.fetch = .ok i ∧
            ∀ j, Assembler.Emitted l lines p m'.state.registers.ip j ↔ j = i) ∧
          ∀ trap m'', m'.step = .error (trap, m'') → ¬trap.OfFetch := by
  obtain ⟨lines, a, hparses, hfeeds, hfinish⟩ := assemble_eq_ok_iff.1 h
  have hregular := Assembler.regular_of_feeds hfeeds fun _ hline =>
    Assembler.named_of_parses hparses hline
  obtain ⟨entry, -, rfl⟩ := Assembler.finish_eq_ok_iff.1 hfinish
  obtain ⟨memory, hmemory⟩ := load_program hfeeds entry
  have hlength : (a.program entry).code.length =
      Instruction.totalLength (a.instructions entry) := Instruction.length_flatMap_encode _
  refine ⟨lines, hparses, ?_, fun name x hx => hregular.target_of_label hfeeds hx entry, _,
    Machine.loadProgram_eq_ok_iff.2 ⟨memory, hmemory, rfl⟩, ?_⟩
  · intro mnemonic name op x b c hsteps hcode hconstant
    obtain ⟨-, after, hrest⟩ := hsteps.feeds hfeeds
    obtain ⟨_, _, _, _, hstep⟩ := hsteps
    have hlabel := hstep.label_of_jump hcode hconstant
    exact hrest.get?_label (hstep.get?_label hlabel)
  intro es m' hrun hes
  rw [hlength] at hes
  have hprogram := (inProgram_initial hfeeds hmemory).run hrun hes fun _ =>
    (Assembler.target_iff hfeeds).1
  have hfetch (hr : m'.state.running = true) : ∃ i, m'.state.fetch = .ok i ∧
      ∀ j, Assembler.Emitted l lines (a.program entry) m'.state.registers.ip j ↔ j = i := by
    obtain ⟨i, hi⟩ := hprogram.exists_located hr
    refine ⟨i, hprogram.fetch_eq hi, fun j => ?_⟩
    rw [Assembler.emitted_iff hfeeds]
    exact ⟨fun hj => Instruction.located_unique hj hi, fun heq => heq ▸ hi⟩
  refine ⟨?_, hfetch, fun trap m'' hstep => ?_⟩
  · rcases (Assembler.target_iff hfeeds).2 hprogram.boundary with hi | heq
    · exact .inl hi
    · refine .inr (UInt32.toNat_inj.1 ?_)
      rw [heq, hlength, hprogram.programEnd]
  · obtain ⟨hr, hstep, -⟩ := Machine.step_eq_error_iff.1 hstep
    obtain ⟨i, hi, -⟩ := hfetch hr
    rcases State.execute_trap ((State.step_eq_error_iff hi).1 hstep) with ⟨_, rfl⟩ | ⟨_, rfl⟩ |
      ⟨_, rfl⟩
    all_goals exact id

/-- The sample program is entered, calls its function, which returns, and is then
    at its end. -/
theorem run_control_flow_sample :
    ∃ lines m es m', assemble Source.sampleLayout Source.sampleText = .ok Source.sampleProgram ∧
      (Machine.boot Source.sampleLayout none).loadProgram Source.sampleProgram = .ok m ∧
      m.Run es m' ∧ es.length = 5 ∧
      (∀ (k : Nat) (e : Event), es[k]? = some e →
        e.KeepsControl (Assembler.Target Source.sampleLayout lines Source.sampleProgram)
          Source.sampleProgram.code.length (es.take k)) ∧
      ((∃ i, Assembler.Emitted Source.sampleLayout lines Source.sampleProgram
          m'.state.registers.ip i) ∨ m'.state.registers.ip = m'.state.memory.programEnd) := by
  have hassemble : assemble Source.sampleLayout Source.sampleText = .ok Source.sampleProgram := by
    decide +kernel
  obtain ⟨lines, -, -, hlabels, m, hload, hmain⟩ := run_control_flow hassemble none
  have hcheck : (((Machine.boot Source.sampleLayout none).loadProgram
      Source.sampleProgram).toOption.any fun m => (m.state.steps 5).toOption.any fun x =>
        decide (x.1.length = 5 ∧ (∀ e ∈ x.1, e.state.running = true) ∧
          ∀ k : Fin x.1.length, (x.1.get k).KeepsControl (fun a => a = 8 ∨ a = 12)
            Source.sampleProgram.code.length (x.1.take k))) = true := by
    decide +kernel
  obtain ⟨m', hload', hcheck⟩ := Except.any_toOption_iff.1 hcheck
  obtain rfl := Except.ok.inj (hload.symm.trans hload')
  obtain ⟨⟨es, s⟩, hsteps, hcheck⟩ := Except.any_toOption_iff.1 hcheck
  obtain ⟨hlength, hrunning, hkeeps⟩ := of_decide_eq_true hcheck
  have hrun : m.Run es { m with state := s } :=
    Machine.run_iff.2 ⟨Run.of_steps hsteps, hrunning, rfl⟩
  have hes : ∀ (k : Nat) (e : Event), es[k]? = some e →
      e.KeepsControl (Assembler.Target Source.sampleLayout lines Source.sampleProgram)
        Source.sampleProgram.code.length (es.take k) := by
    intro k e he
    obtain ⟨hk, rfl⟩ := List.getElem?_eq_some_iff.1 he
    -- The jumps of the run go to the two functions.
    refine (hkeeps ⟨k, hk⟩).mono fun a ha => ?_
    rcases ha with rfl | rfl
    · exact hlabels "f" 8 (by decide +kernel)
    · exact hlabels "start" 12 (by decide +kernel)
  exact ⟨lines, m, es, _, hassemble, hload, hrun, hlength, hes, (hmain es _ hrun hes).1⟩

end Machine32
