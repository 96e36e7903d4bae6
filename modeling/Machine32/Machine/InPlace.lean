import Machine32.Machine.Basic

/-!
# Loading in place

A machine is loaded by changing it bit by bit, and what is there before the last
change is what a failure leaves. This is the same as taking the machine that
loading gives, and keeping the old one if it gives none:

* `clear` puts zeros in the bytes that are there, as many as there are;
* `install` looks whether the program fits before it clears memory, and once
  more when it writes it, where it would fail too late;
* `install_eq` and `installSource_eq`: that never happens;
* `restart_eq`: clearing memory and registers leaves a machine just switched on.

Texts and programs are what can be loaded (`Loadable`), and `Machine.load` loads
either of them.
-/

namespace Machine32

namespace Memory

variable (m : Memory)

/-- The memory `m` with its bytes set to zero, no program in it and no faults
    counted. -/
def clear : Memory where
  layout := m.layout
  bytes := m.bytes.map fun _ => 0
  size_bytes := Array.size_map.trans m.size_bytes
  programEnd := 0
  programEnd_le := UInt32.le_iff_toNat_le.mpr (Nat.zero_le _)
  faults := 0

/-- Nothing is left in a memory that was cleared. -/
theorem clear_eq_reset : m.clear = m.reset := by
  have hbytes : m.bytes.map (fun _ => (0 : UInt8)) = Array.replicate m.layout.total.toNat 0 := by
    rw [Array.map_const', m.size_bytes]
  simp only [clear, reset, zero, hbytes]

/-- Whether a program fits depends on the layout only. -/
theorem checkImage_clear (p : Program) : m.clear.checkImage p = m.checkImage p := rfl

end Memory

/-- What can be loaded into a machine. -/
inductive Loadable where
  /-- The program that a text describes. -/
  | source (text : String)
  | program (p : Program)

namespace Machine

variable (m : Machine)

/-- The machine `m` with its memory cleared. -/
def clearMemory : Machine :=
  { m with state.memory := m.state.memory.clear }

/-- The machine `m` with its registers as when it was switched on, and no
    instruction executed. -/
def switchOn : Machine :=
  { m with state.registers := .initial m.layout, state.cycles := 0 }

/-- Loads a program into the machine `m`, which is left as it is then. -/
def install (p : Program) : Except LoadError Unit × Machine :=
  match m.state.memory.checkImage p with
  | .error e => (.error (.imageTooLarge e), m)
  | .ok () =>
    let m := m.clearMemory
    match m.state.memory.load p with
    | .error e => (.error (.imageTooLarge e), m)
    | .ok memory => (.ok (), { { m with state.memory := memory }.switchOn with program := some p })

/-- Loads the program that a text describes into the machine `m`. -/
def installSource (source : String) : Except LoadError Unit × Machine :=
  match assemble m.layout source with
  | .error e => (.error (.assembly e), m)
  | .ok p => m.install p

/-- The machine `m` with memory and registers cleared, and without its program. -/
def restart : Machine :=
  { m.clearMemory.switchOn with program := none }

/-- The machine that loading gives, or else the machine `m` still, with whether
    loading succeeded. -/
def keep : Except LoadError Machine → Except LoadError Unit × Machine
  | .ok m' => (.ok (), m')
  | .error e => (.error e, m)

/-- A program is loaded in place as it is loaded: the second look cannot find
    what the first one did not. -/
theorem install_eq (p : Program) : m.install p = m.keep (m.loadProgram p) := by
  rw [install, loadProgram, Memory.load, ← Memory.clear_eq_reset, Memory.checkImage_clear]
  cases hcheck : m.state.memory.checkImage p with
  | error e => rfl
  | ok =>
    simp only [clearMemory, Memory.load, Memory.checkImage_clear, hcheck]
    rfl

/-- A text is loaded in place as it is loaded. -/
theorem installSource_eq (source : String) :
    m.installSource source = m.keep (m.loadSource source) := by
  rw [installSource, loadSource]
  cases assemble m.layout source with
  | error e => rfl
  | ok p => exact m.install_eq p

/-- Loads a program or a text into the machine `m`. -/
def load : Loadable → Except LoadError Unit × Machine
  | .source text => m.installSource text
  | .program p => m.install p

/-- The machine that loading gives, if it gives one. -/
def loaded : Loadable → Except LoadError Machine
  | .source text => m.loadSource text
  | .program p => m.loadProgram p

theorem load_eq (x : Loadable) : m.load x = m.keep (m.loaded x) := by
  cases x with
  | source text => exact m.installSource_eq text
  | program p => exact m.install_eq p

/-- Nothing is left in a machine that was cleared. -/
theorem restart_eq : m.restart = m.reset := by
  rw [restart, clearMemory, Memory.clear_eq_reset]
  rfl

end Machine

end Machine32
