import Machine32.CommandLine.Session
import Machine32.Proofs.Dump.Lines
import Machine32.Proofs.Machine.Faults

/-!
# Looking at memory

A dump shows memory and leaves it as it is. So a machine that is shown before and
after a run takes the same run, and the faults that are reported are those of the
program (`Machine.Returns.faults_eq`).

* `CommandLine.runForText_eq`: what is printed about a run;
* `dumps_only_look`: that it is so whatever was done to memory.
-/

namespace Machine32

namespace CommandLine

/-- Showing a machine leaves it as it is. -/
theorem showState_snd (m : Machine) : (showState m).2 = m := by
  rw [showState, Memory.dump_eq]

/-- A machine that is shown takes the same run, and is shown as it is before and after
    it. -/
theorem runForText_eq (options : Options) (m : Machine) (fuel : Nat) :
    runForText options m fuel = (m.run fuel).map fun x =>
      concluded x.1 x.2 ((showState m).1 ++ (showState x.1).1 ++
        (if options.dump then showBytes x.1 else "") ++
        match x.2 with
        | .ok r => haltLine r
        | .error _ => "") := by
  simp only [runForText, showState_snd]
  cases m.run fuel <;> rfl

end CommandLine

/-- Whatever memory holds, and wherever its program was sealed, the dumps are written
    to their ends from bytes of memory alone, and leave memory as it is. The program
    is shown from its start on, each entry where the one before it ended, until its
    end is reached. So what is printed of a run is what the machine does without being
    shown, and the faults that are told are those of the instructions it executed. -/
theorem dumps_only_look :
    (∀ m : Memory,
      (∃ text entries, m.writeDump = some (text, m) ∧ m.Lists 0 entries ∧
        textLines text = m.segmentTitle .program :: entries.map CodeEntry.text
          ++ m.wordLines .data ++ m.wordLines .stack) ∧
      ∀ r, ∃ text, m.writeHexDump r = some text) ∧
    ∀ (l : Layout) (maxCycles : Option Nat) (source : String) (m : Machine),
      (Machine.boot l maxCycles).loadSource source = .ok m →
        ∀ (options : CommandLine.Options) (fuel : Nat) (m' : Machine) (r : RunResult),
          m.run fuel = some (m', .ok r) →
            (∃ es, m.Run es m' ∧ r.memoryFaults = Event.totalStrays es) ∧
            CommandLine.runForText options m fuel = some (.success
              ((CommandLine.showState m).1 ++ (CommandLine.showState m').1
                ++ (if options.dump then CommandLine.showBytes m' else "")
                ++ CommandLine.haltLine r)) := by
  refine ⟨fun m => ⟨⟨m.dump.1, (m.codeEntries 0).1, m.writeDump_eq, m.lists_codeEntries 0,
    m.textLines_dump⟩, fun r => ⟨_, m.writeHexDump_eq r⟩⟩, ?_⟩
  intro l maxCycles source m hload options fuel m' r hrun
  constructor
  · obtain ⟨es, hes, hfaults⟩ := Machine.Returns.faults_eq ⟨fuel, hrun⟩
    rw [Machine.faults_of_loadSource hload, Nat.zero_add] at hfaults
    exact ⟨es, hes, hfaults⟩
  · rw [CommandLine.runForText_eq, hrun]
    rfl

/-- The smallest memory, sealed within a word that begins with no opcode. -/
def Memory.sealedInside : Memory :=
  (((Memory.zero .least).writeByte 0 0x34).writeByte 4 0xEE |>.writeWord 8 5).sealProgram 5

/-- The word in which the program ends is shown whole; and of a run that reads a word
    behind memory, four faults are told. -/
theorem dumps_only_look_sample :
    let lines :=
      ["program [0x0000, 0x0008)",
       "  0x0000: RET",
       "  0x0004: 0x000000EE ; Unknown opcode: 0xEE",
       "data [0x0008, 0x000c)",
       "  0x0008: 0x00000005 (5)",
       "stack [0x000c, 0x0010)"]
    let options : CommandLine.Options := ⟨"f", 1024, 1024, 1024, none, false, false, false, 0⟩
    (∃ text, Memory.sealedInside.writeDump = some (text, .sealedInside) ∧
      textLines text = lines) ∧
      ∃ m m' es shown, (Machine.boot .standard none).loadSource ".start\nLOAD EAX 4000\n" = .ok m ∧
        m.Run es m' ∧ Event.totalStrays es = 4 ∧
        CommandLine.runForText options m 2 = some (.success (shown ++
          "Halted after 2 cycles (EndOfProgram), 4 memory faults, 1 words on the stack\n")) := by
  intro lines options
  obtain ⟨hmemory, hmachine⟩ := dumps_only_look
  constructor
  · have hlines : Memory.sealedInside.dumpLines = lines := by decide +kernel
    obtain ⟨⟨text, entries, htext, -, -⟩, -⟩ := hmemory .sealedInside
    refine ⟨text, htext, ?_⟩
    rw [Memory.writeDump_eq] at htext
    obtain ⟨rfl, -⟩ := Prod.mk.inj (Option.some.inj htext)
    rw [Memory.textLines_dump, hlines]
  · have hcheck : (((Machine.boot .standard none).loadSource
        ".start\nLOAD EAX 4000\n").toOption.any fun m => (m.run 2).any fun x =>
          decide (x.2 = .ok ⟨2, .endOfProgram, 4, 16, 1⟩)) = true := by
      decide +kernel
    obtain ⟨m, hload, hcheck⟩ := Except.any_toOption_iff.1 hcheck
    obtain ⟨⟨m', _⟩, hrun, hcheck⟩ := (Option.any_eq_true ..).1 hcheck
    obtain rfl := of_decide_eq_true hcheck
    have hline : CommandLine.haltLine ⟨2, .endOfProgram, 4, 16, 1⟩ =
        "Halted after 2 cycles (EndOfProgram), 4 memory faults, 1 words on the stack\n" := by
      decide +kernel
    obtain ⟨⟨es, hes, hsum⟩, hprinted⟩ := hmachine .standard none _ m hload options 2 m' _ hrun
    rw [hline] at hprinted
    exact ⟨m, m', es, _, hload, hes, hsum.symm, hprinted⟩

end Machine32
