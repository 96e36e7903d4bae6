import Machine32.Numeral
import Machine32.Layout

/-!
# Arguments

The program takes the path of a source file and options:

* `--program-size`, `--data-size`, `--stack-size`: the sizes of the segments;
* `--max-cycles`: the number of instructions after which a run stops;
* `--dump`: show all bytes of memory after the run;
* `--disassemble`: show a listing instead of running the program;
* `--json`: report the run as JSON instead of text;
* `-v`, `--verbose`: say more, may be repeated;
* `-h`, `--help` and `-V`, `--version`: answer and do nothing else.

A value follows its option as the next argument or behind an equals sign.
Short options can be joined. Arguments behind `--` are no options. The
arguments are read from the left, and the first one that is wrong, or that asks
for help or the version, decides; only then it is seen whether a file is
missing or options exclude each other.
-/

namespace Machine32.CommandLine

/-- What the program is asked to run. -/
structure Options where
  /-- The path of the source file. -/
  source : String
  programSize : UInt32
  dataSize : UInt32
  stackSize : UInt32
  maxCycles : Option Nat
  dump : Bool
  disassemble : Bool
  json : Bool
  verbosity : Nat

/-- What the program is asked for. -/
inductive Request where
  | run (options : Options)
  | help
  | version

/-- Why arguments are refused. -/
inductive UsageError where
  | unknownArgument (argument : String)
  | missingValue (option : String)
  | unexpectedValue (option : String)
  | invalidValue (option value : String)
  | repeatedOption (option : String)
  /-- The two options exclude each other. -/
  | conflict (option other : String)
  | missingFile

/-- The text of a usage error. -/
def UsageError.message : UsageError → String
  | unknownArgument argument => "unexpected argument '" ++ argument ++ "' found"
  | missingValue option => "a value is required for '" ++ option ++ "' but none was supplied"
  | unexpectedValue option => "unexpected value for '" ++ option ++ "' found; no more were expected"
  | invalidValue option value => "invalid value '" ++ value ++ "' for '" ++ option ++ "'"
  | repeatedOption option => "the argument '" ++ option ++ "' cannot be used multiple times"
  | conflict option other => "the argument '" ++ option ++ "' cannot be used with '" ++ other ++ "'"
  | missingFile => "the following required arguments were not provided: <FILE>"

/-- The options read so far. -/
structure Given where
  source : Option String
  programSize : Option UInt32
  dataSize : Option UInt32
  stackSize : Option UInt32
  maxCycles : Option Nat
  dump : Bool
  disassemble : Bool
  json : Bool
  verbosity : Nat

/-- No options. -/
def Given.none : Given where
  source := .none
  programSize := .none
  dataSize := .none
  stackSize := .none
  maxCycles := .none
  dump := false
  disassemble := false
  json := false
  verbosity := 0

/-- The options that take a value. -/
inductive ValueOption where
  | programSize
  | dataSize
  | stackSize
  | maxCycles

/-- The options that take none. -/
inductive Flag where
  | dump
  | disassemble
  | json
  | verbose
  | help
  | version

/-- An option by its long name, without the dashes. -/
def longOption? (name : String) : Option (ValueOption ⊕ Flag) :=
  match name with
  | "program-size" => some (.inl .programSize)
  | "data-size" => some (.inl .dataSize)
  | "stack-size" => some (.inl .stackSize)
  | "max-cycles" => some (.inl .maxCycles)
  | "dump" => some (.inr .dump)
  | "disassemble" => some (.inr .disassemble)
  | "json" => some (.inr .json)
  | "verbose" => some (.inr .verbose)
  | "help" => some (.inr .help)
  | "version" => some (.inr .version)
  | _ => none

/-- An option by its short name. -/
def shortOption? (name : Char) : Option Flag :=
  match name with
  | 'v' => some .verbose
  | 'h' => some .help
  | 'V' => some .version
  | _ => none

/-- The number that digits denote, at least one of them and no other character. -/
def digits? (cs : List Char) : Option Nat :=
  if !cs.isEmpty && cs.all Char.isDigit then some (Numeral.value 10 cs) else none

/-- A segment size: a number below `2 ^ 32`, with or without a sign. -/
def size? (text : String) : Option UInt32 := do
  match text.toList with
  | '-' :: cs => if (← digits? cs) = 0 then some 0 else none
  | '+' :: cs | cs =>
    let n ← digits? cs
    if n < UInt32.size then some (UInt32.ofNat n) else none

/-- A number of cycles: a number below `2 ^ 64`, with or without a plus sign. -/
def cycles? (text : String) : Option Nat := do
  match text.toList with
  | '+' :: cs | cs =>
    let n ← digits? cs
    if n < UInt64.size then some n else none

namespace Given

variable (g : Given)

/-- Takes in the value that `text` was read as, for an option of the given name
    that must not have a value yet. -/
def setOnce {α : Type} (name text : String) (old new : Option α) (put : α → Given) :
    Except UsageError Given :=
  if old.isSome then .error (.repeatedOption name)
  else
    match new with
    | .none => .error (.invalidValue name text)
    | some n => .ok (put n)

/-- Takes in an option with the text of its value. -/
def setValue (option : ValueOption) (text : String) : Except UsageError Given :=
  match option with
  | .programSize =>
    setOnce "--program-size" text g.programSize (size? text) fun n =>
      { g with programSize := some n }
  | .dataSize =>
    setOnce "--data-size" text g.dataSize (size? text) fun n => { g with dataSize := some n }
  | .stackSize =>
    setOnce "--stack-size" text g.stackSize (size? text) fun n => { g with stackSize := some n }
  | .maxCycles =>
    setOnce "--max-cycles" text g.maxCycles (cycles? text) fun n => { g with maxCycles := some n }

/-- Takes in a path. There is only one, and it is not empty. -/
def setSource (path : String) : Except UsageError Given :=
  if g.source.isSome then .error (.unknownArgument path)
  else if path = "" then .error (.invalidValue "<FILE>" path)
  else .ok { g with source := some path }

/-- Takes in a flag: the options with it, or the answer it asks for. -/
def setFlag (flag : Flag) : Except UsageError (Given ⊕ Request) :=
  match flag with
  | .dump =>
    if g.dump then .error (.repeatedOption "--dump") else .ok (.inl { g with dump := true })
  | .disassemble =>
    if g.disassemble then .error (.repeatedOption "--disassemble")
    else .ok (.inl { g with disassemble := true })
  | .json =>
    if g.json then .error (.repeatedOption "--json") else .ok (.inl { g with json := true })
  | .verbose => .ok (.inl { g with verbosity := g.verbosity + 1 })
  | .help => .ok (.inr .help)
  | .version => .ok (.inr .version)

/-- Takes in the joined short options of `argument`. -/
def setShort (argument : String) (g : Given) : List Char → Except UsageError (Given ⊕ Request)
  | [] => .ok (.inl g)
  | c :: cs =>
    match shortOption? c with
    | .none => .error (.unknownArgument argument)
    | some flag => do
      match ← g.setFlag flag with
      | .inl g => setShort argument g cs
      | .inr request => return .inr request

/-- The request that complete options make. -/
def request : Except UsageError Request :=
  if g.json && g.disassemble then .error (.conflict "--json" "--disassemble")
  else
    match g.source with
    | .none => .error .missingFile
    | some source =>
      .ok (.run {
        source
        programSize := g.programSize.getD Layout.standardSize
        dataSize := g.dataSize.getD Layout.standardSize
        stackSize := g.stackSize.getD Layout.standardSize
        maxCycles := g.maxCycles
        dump := g.dump
        disassemble := g.disassemble
        json := g.json
        verbosity := g.verbosity })

/-- Reads paths. -/
def readPaths (g : Given) : List String → Except UsageError Request
  | [] => g.request
  | path :: paths => do readPaths (← g.setSource path) paths

/-- Whether an argument is an option rather than a value or a path. -/
def isOption (argument : String) : Bool :=
  match argument.toList with
  | '-' :: _ :: _ => true
  | _ => false

/-- Reads arguments. -/
def readArguments (g : Given) : List String → Except UsageError Request
  | [] => g.request
  | argument :: rest =>
    match argument.toList with
    | ['-', '-'] => readPaths g rest
    -- A long option, with its value behind an equals sign if there is one.
    | '-' :: '-' :: cs =>
      let name := cs.takeWhile (· ≠ '=')
      let attached := cs.drop (name.length + 1)
      match longOption? (String.ofList name), decide (name.length < cs.length), rest with
      | .none, _, _ => .error (.unknownArgument argument)
      | some (.inr _), true, _ => .error (.unexpectedValue argument)
      | some (.inr flag), false, rest => do
        match ← g.setFlag flag with
        | .inl g => readArguments g rest
        | .inr request => return request
      | some (.inl option), true, rest => do
        readArguments (← g.setValue option (String.ofList attached)) rest
      | some (.inl _), false, [] => .error (.missingValue argument)
      | some (.inl option), false, value :: rest => do
        if isOption value then .error (.missingValue argument)
        else readArguments (← g.setValue option value) rest
    -- Joined short options.
    | '-' :: c :: cs => do
      match ← setShort argument g (c :: cs) with
      | .inl g => readArguments g rest
      | .inr request => return request
    -- A path, which a single dash is, too.
    | _ => do readArguments (← g.setSource argument) rest

end Given

/-- The request that arguments make. -/
def parse (arguments : List String) : Except UsageError Request :=
  Given.none.readArguments arguments

end Machine32.CommandLine
