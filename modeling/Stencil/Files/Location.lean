/-!
# Locations of files

The location of a file is a text of names with slashes between them. Nothing is simplified: a
location is shown as it was put together.
-/

namespace Stencil.Location

/-- Whether a location starts at the root of all files. -/
def isAbsolute (location : String) : Bool :=
  location.toList.head? = some '/'

/-- The names of a location. An empty name stands between two slashes in a row. -/
def names (location : String) : List String :=
  (location.toList.splitOn '/').map String.ofList

/-- A location as seen from a directory. -/
def join (directory location : String) : String :=
  if isAbsolute location ∨ directory = "" then location
  else if directory.toList.getLast? = some '/' then directory ++ location
  else directory ++ "/" ++ location

/-- Whether a name does not lead away from a directory. -/
def isStay (name : String) : Bool :=
  name = "" || name = "."

/-- The directory that holds the file at a location. -/
def parent (location : String) : String :=
  let kept := ((names location).dropLast.reverse.dropWhile isStay).reverse
  if kept = [] ∧ isAbsolute location then "/" else "/".intercalate kept

example : join "/home/me" "plans/plan.toml" = "/home/me/plans/plan.toml" := by decide +kernel

example : parent "/home/me/plans/./plan.toml" = "/home/me/plans" := by decide +kernel

end Stencil.Location
