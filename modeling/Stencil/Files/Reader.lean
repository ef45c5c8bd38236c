import Stencil.Files.Location
import Stencil.Plan.Run

/-!
# Reading files

What the system answers when it is asked for the text of a file, and the loader that reads
documents from files below a directory.
-/

namespace Stencil

/-- Why the text of a file is not available. -/
inductive ReadFault where
  | absent
  | isDirectory
  /-- There is a file in place of a directory on the way. -/
  | throughFile
  | tooLong
  | nulCharacter
  | notText
  | other (reason : String)
deriving DecidableEq

/-- The reason in the words of the system. -/
def ReadFault.text : ReadFault → String
  | absent => "No such file or directory (os error 2)"
  | isDirectory => "Is a directory (os error 21)"
  | throughFile => "Not a directory (os error 20)"
  | tooLong => "File name too long (os error 36)"
  | nulCharacter => "file name contained an unexpected NUL byte"
  | notText => "stream did not contain valid UTF-8"
  | other reason => reason

/-- The text of the file at a location, or why it is not available. -/
abbrev FileReader := String → Except ReadFault String

/-- The loader that reads files as JSON, seen from a directory. -/
def FileReader.loader (read : FileReader) (directory : String) : Loader :=
  fun file =>
    let location := Location.join directory file
    match read location with
    | .error cause => .error (.unloadable location (.unreadable cause.text))
    | .ok text =>
      match Json.valueOfText? text with
      | some value => .ok value
      | none => .error (.unloadable location .malformed)

end Stencil
