import Machine32.Proofs.Assembly.Capacity
import Machine32.Proofs.Memory.Accesses
import Machine32.Proofs.Memory.DataSegment
import Machine32.Proofs.Machine.ControlFlow
import Machine32.Proofs.Machine.Stack

/-!
# Entering a program

A program is loaded into a machine with the layout that it was assembled for,
and the machine enters it:

* `Machine.Ready` is what such a machine is before its first step: the constants
  are in its data segment, the labels in its program, and the first step calls
  the entry point;
* `exists_ready_of_assemble`: every program that was assembled can be loaded, and
  then the machine is ready;
* `assembled_image_loads`: the assembler has taken care of that line by line.
-/

namespace Machine32

/-- The machine has the program `p` in it and is to enter it. -/
structure Machine.Ready (l : Layout) (p : Program) (m : Machine) : Prop where
  program : m.program = some p
  programEnd : m.state.memory.programEnd.toNat = p.code.length
  /-- A constant is a word of the data segment, and is read there. -/
  constant : ∀ name c, p.constants.get? name = some c →
    (l.segment .data).fits c.address 4 = true ∧
      m.state.memory.readWord c.address = (c.value, m.state.memory)
  /-- No byte is one of two constants. -/
  disjoint : ∀ name c name' c', p.constants.get? name = some c →
    p.constants.get? name' = some c' → name ≠ name' →
      ∀ b, Word.Covers c.address b → ¬Word.Covers c'.address b
  /-- A label stands for an address behind the entry call, in the program or at
      its end. -/
  label : ∀ name x, p.labels.get? name = some x →
    entryLength ≤ x.toNat ∧ x ≤ m.state.memory.programEnd
  entry : p.labels.get? Assembler.startLabel = some p.entryPoint
  enters : ∃ m', m.step = .ok (some (.jump .call p.entryPoint, m')) ∧
    m'.state.registers.ip = p.entryPoint ∧ m'.state.depth = 1 ∧ m'.state.Holds [0]

/-! ## Constants -/

theorem exists_of_mem_placed {l : Layout} {n : Nat} {ds : List (String × Word)} {name : String}
    {c : Constant} (h : (name, c) ∈ placed l n ds) :
    ∃ k, ds[k]? = some (name, c.value) ∧
      c.address = l.programSize + UInt32.ofNat ((n + k) * Word.size) := by
  induction ds generalizing n with
  | nil => exact absurd h List.not_mem_nil
  | cons d ds ih =>
    rcases List.mem_cons.1 h with h | h
    · obtain ⟨rfl, rfl⟩ := Prod.mk.inj h
      exact ⟨0, rfl, rfl⟩
    · obtain ⟨k, hk, haddr⟩ := ih h
      exact ⟨k + 1, hk, by rw [haddr, Nat.add_right_comm, Nat.add_assoc]⟩

namespace Assembler

variable {a : Assembler} {l : Layout} {ds : List (String × Word)} {name name' : String}
  {c c' : Constant}

/-- The place of a constant among the words of data, which are in the data
    segment. -/
theorem Definitions.exists_of_get? (h : a.Definitions ds) (hb : a.Bounded)
    (hc : a.symbols.constants.get? name = some c) :
    ∃ k, ds[k]? = some (name, c.value) ∧
      c.address = a.layout.programSize + UInt32.ofNat (k * Word.size) ∧
      c.address.toNat = a.layout.programSize.toNat + k * Word.size ∧
      k * Word.size + Word.size ≤ a.layout.dataSize.toNat := by
  obtain ⟨k, hk, haddr⟩ := exists_of_mem_placed
    (h.perm.mem_iff.1 (NameTable.mem_entries_iff.2 hc))
  rw [Nat.zero_add] at haddr
  have hlt := (List.getElem?_eq_some_iff.1 hk).1
  have hle : (k + 1) * Word.size ≤ ds.length * Word.size := Nat.mul_le_mul_right _ hlt
  have hfits := hb.dataSize_le
  rw [dataSize, h.size_data] at hfits
  rw [Nat.succ_mul] at hle
  exact ⟨k, hk, haddr, haddr ▸ a.layout.toNat_dataAddress (by omega), by omega⟩

theorem Definitions.fits_constant (h : a.Definitions ds) (hb : a.Bounded)
    (hc : a.symbols.constants.get? name = some c) :
    (a.layout.segment .data).fits c.address 4 = true := by
  obtain ⟨k, -, -, hnat, hle⟩ := h.exists_of_get? hb hc
  have hstart : a.layout.programSize ≤ c.address := by
    rw [UInt32.le_iff_toNat_le, hnat]
    exact Nat.le_add_right ..
  have hstop : c.address.toNat + Word.size ≤ a.layout.stackStart.toNat := by
    rw [hnat, Layout.toNat_stackStart]
    omega
  rw [Layout.segment, Segment.fits, Bool.and_eq_true]
  exact ⟨decide_eq_true hstart, decide_eq_true hstop⟩

/-- Two constants are different words of data. -/
theorem Definitions.disjoint (h : a.Definitions ds) (hb : a.Bounded)
    (hc : a.symbols.constants.get? name = some c)
    (hc' : a.symbols.constants.get? name' = some c') (hne : name ≠ name') {b : Address}
    (hcov : Word.Covers c.address b) : ¬Word.Covers c'.address b := by
  obtain ⟨k, hk, -, hnat, hle⟩ := h.exists_of_get? hb hc
  obtain ⟨k', hk', -, hnat', hle'⟩ := h.exists_of_get? hb hc'
  have hkk' : k ≠ k' := by
    rintro rfl
    exact hne (congrArg Prod.fst (Option.some.inj (hk.symm.trans hk')))
  have htotal := a.layout.total_lt
  rw [Word.covers_iff (by omega)] at hcov ⊢
  rw [Word.size] at hnat hnat' hcov ⊢
  omega

theorem Definitions.readWord_constant (h : a.Definitions ds) (hb : a.Bounded)
    {entry : Address} {memory : Memory}
    (hload : (Memory.zero a.layout).load (a.program entry) = .ok memory)
    (hc : a.symbols.constants.get? name = some c) :
    memory.readWord c.address = (c.value, memory) := by
  obtain ⟨k, hk, haddr, hnat, hle⟩ := h.exists_of_get? hb hc
  have hlayout : memory.layout = a.layout := Memory.load_layout hload
  have hdata : (a.program entry).data = (ds.map (·.2)).flatMap Word.toBytes := by
    rw [← h.data_eq]
    rfl
  have hword : (ds.map (·.2))[k]? = some c.value := by rw [List.getElem?_map, hk]; rfl
  have hfits : (a.program entry).data.length ≤ a.layout.dataSize.toNat := by
    rw [a.length_data_program entry]
    exact hb.dataSize_le
  have hpeek : memory.peekWord c.address = c.value :=
    haddr ▸ Memory.peekWord_of_load hload hdata hfits hword
  rw [Memory.readWord_of_le, hpeek]
  rw [memory.size_bytes, hlayout, Layout.toNat_total, hnat]
  omega

/-! ## Labels -/

/-- A label stands for an address of the code so far, or its end. -/
theorem Regular.label_le (h : a.Regular) {x : Address}
    (hx : a.symbols.labels.get? name = some x) :
    entryLength ≤ x.toNat ∧ x.toNat ≤ a.codeSize := by
  obtain ⟨pre, post, hcode, hpre⟩ := Instruction.boundary_iff.1 (h.boundary hx)
  rw [codeSize_eq_totalLength, hcode, Instruction.totalLength_append]
  omega

end Assembler

/-! ## The first step -/

namespace State

variable {s : State} {ws : List Word} {w : Word}

/-- There is room for a word on an empty stack. -/
theorem Holds.exists_push (h : s.Holds []) (w : Word) : ∃ t, s.push w = .ok t := by
  obtain ⟨-, -, hstack⟩ := s.memory.layout.nonempty
  obtain ⟨-, -, haligned⟩ := s.memory.layout.aligned
  cases hp : s.push w with
  | ok t => exact ⟨t, rfl⟩
  | error stop =>
    have hfull := (h.push_eq_error_iff.1 hp).1
    rw [List.length_nil, Word.size] at hfull
    rw [Word.size] at haligned
    omega

/-- A call on an empty stack goes to its target and leaves its own address on the
    stack. -/
theorem step_of_call {entry : Address} (hf : s.fetch = .ok (.jump .call entry)) (h : s.Holds []) :
    ∃ t, s.step = .ok (.jump .call entry, t) ∧ t.registers.ip = entry ∧
      t.Holds [s.registers.ip] := by
  obtain ⟨u, hu⟩ := h.exists_push s.registers.ip
  have hpushed : (Instruction.jump .call entry).pushed? s = some s.registers.ip :=
    Instruction.pushed?_jump_eq_some_iff.2 ⟨rfl, rfl⟩
  have he : s.execute (.jump .call entry) = .ok (u.goto entry) := by
    rw [execute_of_pushed? hpushed, hu]
    rfl
  exact ⟨_, step_eq_ok_iff.2 ⟨hf, _, he, rfl⟩, rfl, (h.push hu).of_bytes rfl rfl fun _ _ _ => rfl⟩

end State

/-! ## Assembled programs -/

section

variable {l : Layout} {lines : List (Option Line)} {a : Assembler} {entry : Address}
  {memory : Memory}

/-- A machine with an assembled program begins with the entry call. -/
theorem exists_step_initial (h : (Assembler.initial l).Feeds lines a)
    (hload : (Memory.zero l).load (a.program entry) = .ok memory) :
    (State.initial memory).running = true ∧
      ∃ t, (State.initial memory).step = .ok (.jump .call entry, t) ∧
        t.registers.ip = entry ∧ t.Holds [0] := by
  have hprogram := inProgram_initial h hload
  have hcall : ((State.initial memory).registers.ip.toNat, Instruction.jump .call entry) ∈
      Instruction.located 0 (a.instructions entry) := List.mem_cons_self
  refine ⟨?_, State.step_of_call (hprogram.fetch_eq hcall) (State.holds_initial memory)⟩
  have hle := (Instruction.le_of_mem_located hcall).2
  have hpos := (Instruction.jump .call entry).length_pos
  rw [hprogram.running_iff]
  omega

theorem programEnd_of_load (h : (Assembler.initial l).Feeds lines a)
    (hload : (Memory.zero l).load (a.program entry) = .ok memory) :
    memory.programEnd.toNat = (a.program entry).code.length :=
  (inProgram_initial h hload).programEnd.trans (Instruction.length_flatMap_encode _).symm

/-- A machine with an assembled program is ready. -/
theorem Assembler.Regular.ready (ha : a.Regular) (h : (Assembler.initial l).Feeds lines a)
    (hentry : a.symbols.labels.get? startLabel = some entry)
    (hload : (Memory.zero l).load (a.program entry) = .ok memory) (maxCycles : Option Nat) :
    Machine.Ready l (a.program entry) ⟨.initial memory, maxCycles, some (a.program entry)⟩ := by
  obtain ⟨ds, hds⟩ := ha.definitions
  obtain ⟨hr, t, ht, hip, hholds⟩ := exists_step_initial h hload
  have hend := programEnd_of_load h hload
  obtain rfl : a.layout = l := h.layout
  exact {
    program := rfl
    programEnd := hend
    constant := fun name c hc =>
      ⟨hds.fits_constant ha.toBounded hc, hds.readWord_constant ha.toBounded hload hc⟩
    disjoint := fun name c name' c' hc hc' hne b => hds.disjoint ha.toBounded hc hc' hne
    label := by
      intro name x hx
      obtain ⟨hle, hle'⟩ := ha.label_le hx
      rw [← a.length_code_program entry, ← hend] at hle'
      exact ⟨hle, UInt32.le_iff_toNat_le.2 hle'⟩
    entry := hentry
    enters := ⟨⟨t, maxCycles, some (a.program entry)⟩,
      Machine.step_eq_ok_some_iff.2 ⟨hr, ht, rfl⟩, hip, hholds.depth_eq, hholds⟩ }

end

theorem Machine.loadSource_of_assemble (m : Machine) {source : String} {p : Program}
    (h : assemble m.layout source = .ok p) : m.loadSource source = m.loadProgram p := by
  rw [loadSource, h]

/-- Every program that was assembled is loaded, and the machine is ready then. -/
theorem exists_ready_of_assemble {l : Layout} {source : String} {p : Program}
    (h : assemble l source = .ok p) (maxCycles : Option Nat) :
    ∃ m, (Machine.boot l maxCycles).loadSource source = .ok m ∧ m.Ready l p := by
  obtain ⟨lines, a, hparses, hfeeds, hfinish⟩ := assemble_eq_ok_iff.1 h
  have hregular := Assembler.regular_of_feeds hfeeds fun _ hline =>
    Assembler.named_of_parses hparses hline
  obtain ⟨entry, hentry, rfl⟩ := Assembler.finish_eq_ok_iff.1 hfinish
  obtain ⟨memory, hmemory⟩ := load_program hfeeds entry
  refine ⟨_, ?_, hregular.ready hfeeds hentry hmemory maxCycles⟩
  refine ((Machine.boot l maxCycles).loadSource_of_assemble h).trans ?_
  exact Machine.loadProgram_eq_ok_iff.2 ⟨memory, hmemory, rfl⟩

/-- Whatever lines the assembler is given, the code and the data so far fit their
    segments, in whole words, and a line is refused for want of room if its bytes
    would not. So every program that was assembled is loaded into a machine with
    the layout it was assembled for, where its constants and labels are what the
    program says, and the first step enters it. -/
theorem assembled_image_loads (l : Layout) :
    (∀ calls, ((Assembler.initial l).feedAll calls).Fits l) ∧
      (∀ (a : Assembler) (number : Nat) (text : String) (f : Fault), f.OfCapacity →
        (a.feedLine number text = .error (.atLine number f) ↔ a.Refuses text f)) ∧
      ∀ source p, assemble l source = .ok p → ∀ maxCycles,
        ∃ m, (Machine.boot l maxCycles).loadSource source = .ok m ∧ m.Ready l p :=
  ⟨Assembler.fits_feedAll l, fun _ _ _ _ hf => Assembler.feedLine_eq_error_iff_of_capacity hf,
    fun _ _ => exists_ready_of_assemble⟩

/-- A second word of data is refused where there is room for one, and the sample
    program fills the segment just so. -/
theorem assembled_image_loads_sample :
    ∃ a m, a = (Assembler.initial Source.sampleLayout).feedAll
        [(1, ".data"), (2, "f = -1"), (3, "g = 2")] ∧
      a.Fits Source.sampleLayout ∧ a.dataBuffer.size = 4 ∧ a.Refuses "g = 2" (.dataFull 4) ∧
      (Machine.boot Source.sampleLayout none).loadSource Source.sampleText = .ok m ∧
      m.Ready Source.sampleLayout Source.sampleProgram := by
  have hassemble : assemble Source.sampleLayout Source.sampleText = .ok Source.sampleProgram := by
    decide +kernel
  have hfull : ((Assembler.initial Source.sampleLayout).feedAll
      [(1, ".data"), (2, "f = -1"), (3, "g = 2")]).feedLine 3 "g = 2" =
        .error (.atLine 3 (.dataFull 4)) := by
    decide +kernel
  have hsize : ((Assembler.initial Source.sampleLayout).feedAll
      [(1, ".data"), (2, "f = -1"), (3, "g = 2")]).dataBuffer.size = 4 := by
    decide +kernel
  obtain ⟨hfits, hrefuses, hloads⟩ := assembled_image_loads Source.sampleLayout
  obtain ⟨m, hm, hready⟩ := hloads _ _ hassemble none
  exact ⟨_, m, rfl, hfits _, hsize, (hrefuses _ 3 "g = 2" (.dataFull 4) trivial).1 hfull, hm,
    hready⟩

end Machine32
