import Stencil.Files.Reader
import Stencil.Text.Scan

/-!
# Trees of files

A directory with files in it, as a value. Reading follows a location name by name, as a file system
without links does: a name must exist before the next one is looked at, even if that leads back up.
Outside the directory nothing but directories is known.
-/

namespace Stencil

/-- A directory and the texts of the files in it and below. -/
structure FileTree where
  root : String
  /-- The files, with the names that lead to them from the directory. -/
  files : List (List String × String)

namespace FileTree

/-- The directory with files at the given locations, seen from it. -/
def ofTexts (root : String) (texts : List (String × String)) : FileTree :=
  ⟨root, texts.map fun (location, text) =>
    ((Location.names location).filter fun name => !Location.isStay name, text)⟩

/-- The greatest number of bytes in a name. -/
def maxNameSize : Nat :=
  255

/-- The greatest number of bytes in a location. -/
def maxLocationSize : Nat :=
  4095

/-- Whether some file lies below the directory to which names lead. -/
def HasDirectory (files : List (List String × String)) (place : List String) : Prop :=
  ∃ file ∈ files, place <+: file.1

instance (files : List (List String × String)) (place : List String) :
    Decidable (HasDirectory files place) :=
  inferInstanceAs (Decidable (∃ file ∈ files, place <+: file.1))

/-- Follows names from a place, which is nothing outside the tree. -/
def follow (files : List (List String × String)) :
    Option (List String) → List String → Except ReadFault String
  | _, [] => .error .isDirectory
  | place, name :: rest =>
    if Location.isStay name then follow files place rest
    else if name = ".." then
      follow files (place.bind fun names => if names = [] then none else some names.dropLast) rest
    else if maxNameSize < name.utf8ByteSize then .error .tooLong
    else
      match place with
      | none => .error .absent
      | some names =>
        match files.lookup (names ++ [name]) with
        | some text => if rest = [] then .ok text else .error .throughFile
        | none =>
          if HasDirectory files (names ++ [name]) then follow files (some (names ++ [name])) rest
          else .error .absent

/-- The text of the file at a location. -/
def read (tree : FileTree) : FileReader :=
  fun location =>
    if '\x00' ∈ location.toList then .error .nulCharacter
    else if maxLocationSize < location.utf8ByteSize then .error .tooLong
    else
      match Text.dropPrefix? tree.root.toList location.toList with
      | some [] => .error .isDirectory
      | some ('/' :: rest) => follow tree.files (some []) (Location.names (String.ofList rest))
      | _ => follow tree.files none (Location.names location)

end FileTree

end Stencil
