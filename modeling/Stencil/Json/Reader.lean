import Stencil.Json.Token
import Stencil.Written

/-!
# Reading JSON

The tokens of a JSON text are read by a machine with a stack of the arrays and objects that are
still open. It looks either for the value that comes next or, behind a value, for what closes or
continues the innermost open frame.

* `writtenOfText?`: the text as it is written, which needs nothing but its grammar.
* `valueOfText?`: the value that the text denotes. Lists and objects nest at most `maxHeight` deep.
-/

namespace Stencil.Json

/-- An array or object that is still open, with the values read so far, the latest first. -/
inductive Frame where
  | array (items : List Written)
  /-- An object that waits for the value of `key`. -/
  | object (entries : List (Option String × Written)) (key : Option String)

mutual

/-- Reads the value that comes next, inside the open frames. -/
def readValue (frames : List Frame) : List Token → Option Written
  | .null :: rest => readBehind frames .null rest
  | .bool value :: rest => readBehind frames (.bool value) rest
  | .number value :: rest => readBehind frames (.number value) rest
  | .string text :: rest => readBehind frames (.string text) rest
  | .beginArray :: .endArray :: rest => readBehind frames (.list []) rest
  | .beginArray :: rest => readValue (.array [] :: frames) rest
  | .beginObject :: .endObject :: rest => readBehind frames (.record []) rest
  | .beginObject :: .string key :: .colon :: rest => readValue (.object [] key :: frames) rest
  | _ => none

/-- Goes on behind a finished value. -/
def readBehind : List Frame → Written → List Token → Option Written
  | [], value, [] => some value
  | .array items :: frames, value, .comma :: rest =>
    readValue (.array (value :: items) :: frames) rest
  | .array items :: frames, value, .endArray :: rest =>
    readBehind frames (.list (value :: items).reverse) rest
  | .object entries key :: frames, value, .comma :: .string next :: .colon :: rest =>
    readValue (.object ((key, value) :: entries) next :: frames) rest
  | .object entries key :: frames, value, .endObject :: rest =>
    readBehind frames (.record ((key, value) :: entries).reverse) rest
  | _, _, _ => none

end

/-- The tree that a JSON text spells. -/
def writtenOfText? (text : String) : Option Written :=
  (tokens? text.toList).bind (readValue [])

/-- The greatest number of arrays and objects inside each other. -/
def maxHeight : Nat :=
  127

/-- The value that a JSON text denotes. -/
def valueOfText? (text : String) : Option Value :=
  (writtenOfText? text).bind fun tree => if tree.height ≤ maxHeight then tree.value? else none

end Stencil.Json
