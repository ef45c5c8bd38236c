import Stencil.Cli.Report

/-!
# The command line

Reads the files that a command needs, asks for its report, and prints it.
-/

namespace Stencil.Cli

/-- The text of the help. -/
def helpText : String :=
  "Fills JSON templates along path expressions\n\n" ++
  "Usage: jsonium [OPTIONS] <COMMAND>\n\n" ++
  "Commands:\n" ++
  "  generate  Generate one document per template and combo\n" ++
  "  expand    Show the paths that a path expression selects\n" ++
  "  run       Run a plan of several stages\n\n" ++
  "Options:\n" ++
  "  -v, --verbose  Show progress on standard error\n" ++
  "  -h, --help     Print help\n" ++
  "  -V, --version  Print version\n"

/-- The cause behind a failure of the system. -/
def causeOf : IO.Error → ReadFault
  | .noFileOrDirectory .. => .absent
  | .inappropriateType _ _ "not a directory" => .throughFile
  | .inappropriateType .. => .isDirectory
  | .invalidArgument _ _ "name too long" => .tooLong
  | e => .other (toString e)

/-- Reads the file at a location. -/
def readLocation (location : String) : IO (Except ReadFault String) := do
  if '\x00' ∈ location.toList then return .error .nulCharacter
  match ← (IO.FS.readBinFile location).toBaseIO with
  | .error e => return .error (causeOf e)
  | .ok bytes =>
    match String.fromUTF8? bytes with
    | some text => return .ok text
    | none => return .error .notText

/-- Files that are read, with what the system answered. -/
abbrev Answers := List (String × Except ReadFault String)

/-- Reads the files at locations. -/
def readAll (locations : List String) : IO Answers :=
  locations.mapM fun location => do return (location, ← readLocation location)

/-- The reader that knows the files that are read. -/
def readerOf (answers : Answers) : FileReader :=
  fun location => (answers.lookup location).getD (.error .absent)

/-- Runs a command. -/
def runCommand (command : Command) (verbose : Bool) : IO UInt32 := do
  let directory := (← IO.currentDir).toString
  let first ← readAll (command.inputs directory)
  let further ← readAll (command.furtherInputs directory (readerOf first))
  let report := (command.report directory (readerOf (first ++ further))).withNotes verbose
  for line in report.errorLines do
    IO.eprintln line
  IO.print report.output
  return UInt32.ofNat report.exitCode

end Stencil.Cli

open Stencil.Cli in
/-- Answers a command line. -/
def main (arguments : List String) : IO UInt32 := do
  match Request.ofArguments? arguments with
  | none =>
    IO.eprint helpText
    return 2
  | some .version =>
    IO.println versionText
    return 0
  | some .help =>
    IO.print helpText
    return 0
  | some (.command command verbose) => runCommand command verbose
