import Machine32.Listing
import Machine32.Machine.Dump
import Machine32.CommandLine.Arguments
import Machine32.CommandLine.Files
import Machine32.CommandLine.Report

/-!
# A session at the command line

What the program does with its arguments: the text it prints and the exit code.
Files come in as a function from paths to contents, so that a session is a
value. As for `Machine.run`, there is no answer if `fuel` instructions do not
end the run.
-/

namespace Machine32.CommandLine

/-- What the program leaves behind. -/
structure Outcome where
  exitCode : Nat
  stdout : String
  /-- The lines on the error stream. -/
  errors : List String
  deriving Inhabited

namespace Outcome

/-- The end of a session in which all went well. -/
def success (stdout : String) : Outcome :=
  ⟨0, stdout, []⟩

/-- The end of a session that an error stops before anything is printed. The
    error is told with its causes, the outermost first. -/
def failure (causes : List String) : Outcome :=
  ⟨1, "", ["error: " ++ ": ".intercalate causes]⟩

end Outcome

/-- The name and the version of the program. -/
def versionText : String := "toy32 0.1.0\n"

/-- The answer to a question for help. -/
def helpText : String :=
  String.join ([
    "Assemble and run a toy32 program",
    "",
    "Usage: toy32 [OPTIONS] <FILE>",
    "",
    "Arguments:",
    "  <FILE>  Assembly source file",
    "",
    "Options:",
    "      --program-size <PROGRAM_SIZE>  Program segment size in bytes [default: 1024]",
    "      --data-size <DATA_SIZE>        Data segment size in bytes [default: 1024]",
    "      --stack-size <STACK_SIZE>      Stack segment size in bytes [default: 1024]",
    "      --max-cycles <N>               Stop after this many instructions",
    "      --dump                         Also print a hex dump of every segment after the run",
    "      --disassemble                  Print a disassembly listing instead of running",
    "      --json                         Print a JSON run report instead of the text dumps",
    "  -v, --verbose...                   Say more, may be repeated",
    "  -h, --help                         Print help",
    "  -V, --version                      Print version"].map (· ++ "\n"))

/-- A loading error with its cause, where the text of the error holds that of
    the cause. -/
def loadErrorChain (e : LoadError) : List String :=
  match e with
  | .assembly cause => [e.message, cause.message]
  | .imageTooLarge _ => [e.message]

/-- The machine `m` loaded with the program in a file, or the texts of what
    went wrong. -/
def loadFile (files : Files) (m : Machine) (path : String) : Except (List String) Machine :=
  match readText files path with
  | .error e => .error ["I/O error: " ++ e.message, e.message]
  | .ok source => (m.loadSource source).mapError loadErrorChain

/-- The registers and the memory of a machine as text, and the machine after
    showing them. -/
def showState (m : Machine) : String × Machine :=
  let (memory, after) := m.state.memory.dump
  (m.state.registers.dump ++ "\n" ++ memory ++ "\n", { m with state.memory := after })

/-- All bytes of memory as text. -/
def showBytes (m : Machine) : String :=
  String.join (Region.all.map fun r => r.name ++ ":\n" ++ m.state.memory.hexDump r)

/-- The last line of a run that went well. -/
def haltLine (r : RunResult) : String :=
  "Halted after " ++ Numeral.decimal r.cycles ++ " cycles (" ++ r.haltReason.name ++ "), "
    ++ Numeral.decimal r.memoryFaults ++ " memory faults, "
    ++ Numeral.decimal r.stackDepth ++ " words on the stack\n"

/-- The line that tells of a trap. -/
def trapLine (m : Machine) (trap : Trap) : String :=
  "error: " ++ trap.message ++ " (" ++ Numeral.decimal m.state.depth ++ " words on the stack)"

/-- How a session ends after a run of which `stdout` tells. -/
def concluded (m : Machine) (outcome : Except Trap RunResult) (stdout : String) : Outcome :=
  match outcome with
  | .ok _ => .success stdout
  | .error trap => ⟨1, stdout, [trapLine m trap]⟩

/-- Runs a loaded machine and reports as JSON. -/
def runForJson (options : Options) (m : Machine) (fuel : Nat) : Option Outcome := do
  let (m, outcome) ← m.run fuel
  return concluded m outcome ((m.report options.source outcome).text ++ "\n")

/-- Runs a loaded machine, showing it before and after the run. -/
def runForText (options : Options) (m : Machine) (fuel : Nat) : Option Outcome := do
  let (before, m) := showState m
  let (m, outcome) ← m.run fuel
  let (after, m) := showState m
  let bytes := if options.dump then showBytes m else ""
  let last :=
    match outcome with
    | .ok r => haltLine r
    | .error _ => ""
  return concluded m outcome (before ++ after ++ bytes ++ last)

/-- Does what options ask for. -/
def perform (files : Files) (options : Options) (fuel : Nat) : Option Outcome :=
  match Layout.ofSizes options.programSize options.dataSize options.stackSize with
  | .error e => some (.failure ["invalid segment sizes", e.message])
  | .ok layout =>
    match loadFile files (.boot layout options.maxCycles) options.source with
    | .error causes => some (.failure (("failed to load " ++ options.source) :: causes))
    | .ok m =>
      if options.disassemble then some (.success ((m.program.map Program.listing).getD ""))
      else if options.json then runForJson options m fuel
      else runForText options m fuel

/-- A session with the given arguments. -/
def session (files : Files) (arguments : List String) (fuel : Nat) : Option Outcome :=
  match parse arguments with
  | .error e => some ⟨2, "", ["error: " ++ e.message]⟩
  | .ok .help => some (.success helpText)
  | .ok .version => some (.success versionText)
  | .ok (.run options) => perform files options fuel

end Machine32.CommandLine
