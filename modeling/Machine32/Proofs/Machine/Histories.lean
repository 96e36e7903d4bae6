import Machine32.Machine.InPlace
import Machine32.Proofs.Memory.Loading
import Machine32.Proofs.Machine.Failure

/-!
# What a machine has been through

A machine that was loaded does not show what it has been through before:

* `Reachable` are the machines that come about by loading, stepping, running and
  restarting, with whatever outcome;
* `Reachable.configured`: of all that a machine is, they keep the layout and the
  limit that it was switched on with;
* `loaded_eq_boot`: and these are all that loading looks at;
* `load_forgets`: so loading gives what it would give on a machine just switched
  on, or fails as it would fail there, and then changes nothing.
-/

namespace Machine32.Machine

variable {l : Layout} {maxCycles : Option Nat} {m m' : Machine}

/-- The machines that come about from one just switched on. What fails leaves a
    machine behind, too. -/
inductive Reachable (l : Layout) (maxCycles : Option Nat) : Machine → Prop
  | boot : Reachable l maxCycles (boot l maxCycles)
  | load {m : Machine} (h : Reachable l maxCycles m) (x : Loadable) :
      Reachable l maxCycles (m.load x).2
  | step {m m' : Machine} {i : Instruction} (h : Reachable l maxCycles m)
      (hs : m.step = .ok (some (i, m'))) : Reachable l maxCycles m'
  | stepFails {m m' : Machine} {trap : Trap} (h : Reachable l maxCycles m)
      (hs : m.step = .error (trap, m')) : Reachable l maxCycles m'
  | run {m : Machine} {x : Machine × Except Trap RunResult} (h : Reachable l maxCycles m)
      (hx : m.Returns x) : Reachable l maxCycles x.1
  | restart {m : Machine} (h : Reachable l maxCycles m) : Reachable l maxCycles m.restart

/-- The machine has the layout and the limit it was switched on with. -/
structure Configured (l : Layout) (maxCycles : Option Nat) (m : Machine) : Prop where
  layout : m.layout = l
  maxCycles : m.maxCycles = maxCycles

theorem configured_boot (l : Layout) (maxCycles : Option Nat) :
    Configured l maxCycles (boot l maxCycles) :=
  ⟨rfl, rfl⟩

/-! ## What a machine keeps -/

theorem Configured.step {i : Instruction} (h : Configured l maxCycles m)
    (hs : m.step = .ok (some (i, m'))) : Configured l maxCycles m' := by
  obtain ⟨-, hs, hm⟩ := step_eq_ok_some_iff.1 hs
  obtain ⟨-, u, hu, heq⟩ := State.step_eq_ok_iff.1 hs
  obtain ⟨hlayout, -⟩ := State.execute_memory hu
  refine ⟨?_, (congrArg Machine.maxCycles hm).trans h.maxCycles⟩
  rw [Machine.layout, heq]
  exact hlayout.trans h.layout

/-- A failed step leaves memory as it is. -/
theorem Configured.stepFails {trap : Trap} (h : Configured l maxCycles m)
    (hs : m.step = .error (trap, m')) : Configured l maxCycles m' := by
  obtain ⟨-, hs, hm⟩ := step_eq_error_iff.1 hs
  have hmemory := State.step_error_memory hs
  refine ⟨?_, (congrArg Machine.maxCycles hm).trans h.maxCycles⟩
  exact (congrArg Memory.layout hmemory).trans h.layout

theorem Configured.taken {es : List Event} (h : Configured l maxCycles m) (hrun : m.Run es m') :
    Configured l maxCycles m' := by
  induction hrun with
  | nil => exact h
  | snoc _ hs ih => exact ih.step hs

/-- A run leaves the machine it stopped at, or what the step left that failed
    there. -/
theorem Configured.run {x : Machine × Except Trap RunResult} (h : Configured l maxCycles m)
    (hx : m.Returns x) : Configured l maxCycles x.1 := by
  obtain ⟨es, m', hstops, hreports⟩ := hx.exists_stopsAfter
  have hm' := h.taken hstops.run
  obtain ⟨m'', trap | r⟩ := x
  · exact hm'.stepFails ((hreports.trap_iff m'' trap).1 rfl).2.2
  · rwa [(hreports.report r rfl).1]

/-! ## What loading looks at -/

theorem Configured.loadProgram_eq (h : Configured l maxCycles m) (p : Program) :
    m.loadProgram p = (boot l maxCycles).loadProgram p := by
  obtain ⟨rfl, rfl⟩ := h
  rfl

/-- Loading looks at the layout and the limit of a machine only. -/
theorem Configured.loaded_eq_boot (h : Configured l maxCycles m) (x : Loadable) :
    m.loaded x = (boot l maxCycles).loaded x := by
  cases x with
  | program p => exact h.loadProgram_eq p
  | source text =>
    rw [loaded, loaded, loadSource, loadSource, h.layout, (configured_boot l maxCycles).layout]
    cases assemble l text with
    | error e => rfl
    | ok p => exact h.loadProgram_eq p

theorem Configured.of_loadProgram {p : Program} (h : Configured l maxCycles m)
    (hm' : m.loadProgram p = .ok m') : Configured l maxCycles m' := by
  obtain ⟨memory, hmemory, rfl⟩ := loadProgram_eq_ok_iff.1 hm'
  exact ⟨(Memory.load_layout hmemory).trans h.layout, h.maxCycles⟩

theorem Configured.of_loaded {x : Loadable} (h : Configured l maxCycles m)
    (hm' : m.loaded x = .ok m') : Configured l maxCycles m' := by
  cases x with
  | program p => exact h.of_loadProgram hm'
  | source text =>
    rw [loaded, loadSource] at hm'
    cases hp : assemble m.layout text with
    | error e => rw [hp] at hm'; cases hm'
    | ok p => rw [hp] at hm'; exact h.of_loadProgram hm'

/-- Loading keeps the layout and the limit of a machine. -/
theorem Configured.load (h : Configured l maxCycles m) (x : Loadable) :
    Configured l maxCycles (m.load x).2 := by
  rw [load_eq]
  cases hx : m.loaded x with
  | error e => exact h
  | ok m' => exact h.of_loaded hx

theorem Configured.restart_eq (h : Configured l maxCycles m) : m.restart = boot l maxCycles := by
  rw [Machine.restart_eq, reset, h.layout, h.maxCycles]

/-- A machine keeps its layout and its limit, whatever it goes through. -/
theorem Reachable.configured (h : Reachable l maxCycles m) : Configured l maxCycles m := by
  induction h with
  | boot => exact configured_boot l maxCycles
  | load _ x ih => exact ih.load x
  | step _ hs ih => exact ih.step hs
  | stepFails _ hs ih => exact ih.stepFails hs
  | run _ hx ih => exact ih.run hx
  | restart _ ih => exact ih.restart_eq ▸ configured_boot l maxCycles

/-- A load that fails changes nothing. -/
theorem load_of_error {x : Loadable} {e : LoadError} (h : (m.load x).1 = .error e) :
    (m.load x).2 = m := by
  rw [load_eq] at h ⊢
  cases hx : m.loaded x with
  | error e' => rfl
  | ok m' => rw [hx] at h; cases h

/-- Whatever a machine has been through, loading succeeds or fails as on a machine
    just switched on. If it fails the machine stays as it is, and if it succeeds
    the machine is the same as that one, and so are its runs. Restarted it is the
    same as before anything was loaded. -/
theorem load_forgets (h : Reachable l maxCycles m) (x : Loadable) :
    (∀ e, (m.load x).1 = .error e → (m.load x).2 = m) ∧
      (m.load x).1 = ((boot l maxCycles).load x).1 ∧
      ((m.load x).1 = .ok () → (m.load x).2 = ((boot l maxCycles).load x).2 ∧
        ∀ y, (m.load x).2.Returns y ↔ ((boot l maxCycles).load x).2.Returns y) ∧
      m.restart = boot l maxCycles := by
  have hm := h.configured
  refine ⟨fun _ => load_of_error, ?_, fun hok => ?_, hm.restart_eq⟩
  · rw [load_eq, load_eq, hm.loaded_eq_boot]
    cases (boot l maxCycles).loaded x <;> rfl
  · have heq : (m.load x).2 = ((boot l maxCycles).load x).2 := by
      rw [load_eq, hm.loaded_eq_boot] at hok
      rw [load_eq, load_eq, hm.loaded_eq_boot]
      cases hx : (boot l maxCycles).loaded x with
      | error e => rw [hx] at hok; cases hok
      | ok m' => rfl
    exact ⟨heq, fun y => by rw [heq]⟩

/-- A program with too much data for the layout of the sample text. -/
def wideProgram : Program :=
  { Source.sampleProgram with data := [0, 0, 0, 0, 0, 0, 0, 0] }

/-- The sample program has run: one with too much data is refused, and the sample
    text itself loaded as for the first time. -/
theorem load_forgets_sample :
    ∃ m, Reachable Source.sampleLayout (some 5) m ∧ m.state.cycles = 5 ∧
      m.program = some Source.sampleProgram ∧
      (m.load (.program wideProgram)).1 = .error (.imageTooLarge ⟨.data, 8, 4⟩) ∧
      (m.load (.program wideProgram)).2 = m ∧
      (m.load (.source Source.sampleText)).1 = .ok () ∧
      (m.load (.source Source.sampleText)).2 =
        ((boot Source.sampleLayout (some 5)).load (.source Source.sampleText)).2 ∧
      m.restart = boot Source.sampleLayout (some 5) := by
  have hcheck : ((((boot Source.sampleLayout (some 5)).load
      (.source Source.sampleText)).2.run 5).any fun x =>
        decide (x.1.state.cycles = 5 ∧ x.1.program = some Source.sampleProgram)) = true := by
    decide +kernel
  have hwide : ((boot Source.sampleLayout (some 5)).load (.program wideProgram)).1 =
      .error (.imageTooLarge ⟨.data, 8, 4⟩) := by
    decide +kernel
  have hsample : ((boot Source.sampleLayout (some 5)).load (.source Source.sampleText)).1 =
      .ok () := by
    decide +kernel
  obtain ⟨⟨m, outcome⟩, hrun, hcheck⟩ := (Option.any_eq_true ..).1 hcheck
  obtain ⟨hcycles, hprogram⟩ := of_decide_eq_true hcheck
  have h : Reachable Source.sampleLayout (some 5) m :=
    @Reachable.run _ _ _ (m, outcome) (.load .boot (.source Source.sampleText)) ⟨5, hrun⟩
  obtain ⟨hkept, hfails, -, hrestart⟩ := load_forgets h (.program wideProgram)
  obtain ⟨-, hloads, hforgets, -⟩ := load_forgets h (.source Source.sampleText)
  have hok := hloads.trans hsample
  exact ⟨m, h, hcycles, hprogram, hfails.trans hwide, hkept _ (hfails.trans hwide), hok,
    (hforgets hok).1, hrestart⟩

end Machine32.Machine
