import Machine32.CommandLine.Json
import Machine32.Machine.Run

/-!
# Reports

A run as JSON: what was run, how it ended, and the registers. After a trap the
report has the text of the error in place of the result.
-/

namespace Machine32

/-- The sizes of a layout as members of a report. -/
def Layout.json (l : Layout) : Json :=
  .object [
    ("program_size", .number l.programSize.toNat),
    ("data_size", .number l.dataSize.toNat),
    ("stack_size", .number l.stackSize.toNat)]

/-- The register file as members of a report. -/
def Registers.json (s : Registers) : Json :=
  .object [
    ("regs", .array (Register.general.map fun r => .number (s.read r).toNat)),
    ("ip", .number s.ip.toNat),
    ("zero_flag", .bool s.zeroFlag)]

/-- The members of a report that say how a run ended. -/
def RunResult.members (r : RunResult) : List (String × Json) :=
  [("cycles", .number r.cycles),
   ("halt_reason", .string r.haltReason.name),
   ("memory_faults", .number r.memoryFaults),
   ("ip", .number r.ip.toNat),
   ("stack_depth", .number r.stackDepth)]

/-- The report of a run that left the machine `m` behind. -/
def Machine.report (m : Machine) (source : String) (outcome : Except Trap RunResult) : Json :=
  let (result, error) : List (String × Json) × Json :=
    match outcome with
    | .ok r => (r.members, .null)
    | .error trap => ([], .string trap.message)
  .object (
    [("source", .string source), ("layout", m.layout.json)] ++ result
      ++ [("error", error), ("registers", m.state.registers.json)])

end Machine32
