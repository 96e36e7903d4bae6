import Machine32.CommandLine.Session

/-!
# The program

The outer layer: it fetches the arguments and the files, and prints what the
session says.
-/

namespace Machine32.CommandLine

/-- The number of a system error, which may come with either sign. -/
def errorCode (code : UInt32) : Nat :=
  code.toInt32.toInt.natAbs

/-- The reason the system gives for not reading a file. -/
def fileError (e : IO.Error) : FileError :=
  match e with
  | .noFileOrDirectory .. => .notFound
  | .permissionDenied .. => .permissionDenied
  | .inappropriateType _ code reason =>
    if errorCode code = 20 then .notDirectory
    else if errorCode code = 21 then .isDirectory
    else .other reason (errorCode code)
  | .invalidArgument _ code reason =>
    if errorCode code = 36 then .nameTooLong else .other reason (errorCode code)
  | e => .other (toString e) 0

/-- The contents of the files that the arguments may name. -/
def readFiles : List String → IO Files
  | [] => return fun _ => .error .notFound
  | path :: paths => do
    let others ← readFiles paths
    let contents ←
      try
        let bytes ← IO.FS.readBinFile path
        pure (.ok bytes)
      catch e => pure (.error (fileError e))
    return fun p => if p = path then contents else others p

/-- Repeats a session with more and more fuel until it ends. -/
partial def finish (files : Files) (arguments : List String) (fuel : Nat) : Outcome :=
  match session files arguments fuel with
  | some outcome => outcome
  | none => finish files arguments (16 * fuel)

end Machine32.CommandLine

open Machine32.CommandLine in
/-- Runs the session that the arguments ask for. -/
def main (arguments : List String) : IO UInt32 := do
  let files ← readFiles arguments
  let outcome := finish files arguments 0x100000
  IO.print outcome.stdout
  for line in outcome.errors do
    IO.eprintln line
  return UInt32.ofNat outcome.exitCode
