import Stencil.Toml.Scalar
import Stencil.Toml.Table
import Stencil.Toml.Token

/-!
# Reading TOML

The tokens of a TOML text are cut at the line ends that stand outside all brackets. Each part is
blank, a header or an assignment; the value of an assignment is read by a machine with a stack of
the lists and inline tables that are still open, as JSON is. The statements then fill the tables.

* `writtenOfText?`: the text as a tree. It nests fewer than `maxNesting` lists and inline tables,
  and its keys have fewer than `maxNesting` parts.
-/

namespace Stencil.Toml

/-- The nesting, and the number of parts of a key, from which on a text is refused. -/
def maxNesting : Nat :=
  80

/-! ## Keys -/

/-- A part of a key, or the point between two parts. -/
inductive KeyMark where
  | part (name : String)
  | point

/-- Whether a character may stand in a key without quotes. -/
def isBareChar (c : Char) : Bool :=
  c.isAlphanum || c = '_' || c = '-'

/-- The bare parts and points of a word. -/
def marksOfWord? : List Char → Option (List KeyMark)
  | [] => some []
  | c :: rest =>
    if c = '.' then (marksOfWord? rest).map (.point :: ·)
    else if isBareChar c then
      (marksOfWord? rest).map fun
        | .part name :: marks => .part (String.singleton c ++ name) :: marks
        | marks => .part (String.singleton c) :: marks
    else none

/-- The parts and points that tokens spell. -/
def marks? : List Token → Option (List KeyMark)
  | [] => some []
  | .blank _ :: rest => marks? rest
  | .word chars :: rest =>
    (marksOfWord? chars).bind fun marks => (marks? rest).map (marks ++ ·)
  | .text chars :: rest => (marks? rest).map (.part (String.ofList chars) :: ·)
  | _ :: _ => none

/-- The parts of a key, which take turns with points. -/
def parts? : List KeyMark → Option (List String)
  | [.part name] => some [name]
  | .part name :: .point :: rest => (parts? rest).map (name :: ·)
  | _ => none

/-- The key that tokens spell. -/
def key? (tokens : List Token) : Option (List String) :=
  ((marks? tokens).bind parts?).filter fun parts => parts.length < maxNesting

/-! ## Values -/

/-- Whether a token is a space or a tab. -/
def isBlankToken : Token → Bool
  | .blank _ => true
  | _ => false

/-- A list or inline table that is still open. -/
inductive Frame where
  /-- A list with the items read so far, the latest first. -/
  | list (items : List Written)
  /-- A table with the entries read so far, which waits for the value of a key. -/
  | table (entries : Entries) (key : List String)

/-- Whether one more list or table may be opened inside the open frames. -/
def mayOpen (frames : List Frame) : Bool :=
  frames.length + 1 < maxNesting

/-- Whether line ends and comments may stand in the innermost frame. -/
def spansLines : List Frame → Bool
  | .list _ :: _ => true
  | _ => false

/-- Whether nothing but blanks and a comment is left. -/
def isBlankLine : List Token → Bool
  | [] => true
  | .blank _ :: rest => isBlankLine rest
  | [.comment] => true
  | _ => false

mutual

/-- Reads the value that comes next, inside the open frames. -/
def readValue (frames : List Frame) : List Token → Option Written
  | .blank _ :: rest => readValue frames rest
  | .newline :: rest | .comment :: rest => if spansLines frames then readValue frames rest else none
  | .text chars :: rest | .longText chars :: rest =>
    readBehind frames (.string (some (String.ofList chars))) rest
  | .word date :: .blank ' ' :: .word time :: rest =>
    (scalar? (date ++ ' ' :: time)).bind fun tree => readBehind frames tree rest
  | .word chars :: rest => (scalar? chars).bind fun tree => readBehind frames tree rest
  | .beginList :: rest => if mayOpen frames then readValue (.list [] :: frames) rest else none
  | .endList :: rest =>
    match frames with
    | .list items :: frames => readBehind frames (.list items.reverse) rest
    | _ => none
  | .beginTable :: rest => if mayOpen frames then readKey frames [] [] rest else none
  | _ => none

/-- Goes on behind a finished value. -/
def readBehind (frames : List Frame) (value : Written) : List Token → Option Written
  | .blank _ :: rest => readBehind frames value rest
  | .newline :: rest => if spansLines frames then readBehind frames value rest else none
  | .comment :: rest =>
    if spansLines frames then readBehind frames value rest
    else if frames.isEmpty ∧ rest = [] then some value
    else none
  | .comma :: rest =>
    match frames with
    | .list items :: frames => readValue (.list (value :: items) :: frames) rest
    | .table entries key :: frames =>
      (assign? value key entries).bind fun entries => readKey frames entries [] rest
    | [] => none
  | .endList :: rest =>
    match frames with
    | .list items :: frames => readBehind frames (.list (value :: items).reverse) rest
    | _ => none
  | .endTable :: rest =>
    match frames with
    | .table entries key :: frames =>
      (assign? value key entries).bind fun entries =>
        readBehind frames (.record (writtenEntries entries)) rest
    | _ => none
  | [] => if frames.isEmpty then some value else none
  | _ => none

/-- Reads the key of the next entry of an inline table, of which some tokens are read, the latest
first. A table may end here only if it has no entries. -/
def readKey (frames : List Frame) (entries : Entries) (read : List Token) :
    List Token → Option Written
  | .equals :: rest =>
    (key? read.reverse).bind fun key => readValue (.table entries key :: frames) rest
  | .endTable :: rest =>
    if entries.isEmpty ∧ read.all isBlankToken then readBehind frames (.record []) rest else none
  | token :: rest => readKey frames entries (token :: read) rest
  | [] => none

end

/-! ## Lines -/

/-- The number of open brackets behind a token. -/
def depthAfter (depth : Nat) : Token → Nat
  | .beginList | .beginTable => depth + 1
  | .endList | .endTable => depth - 1
  | _ => depth

/-- The tokens between the line ends that stand outside all brackets, when `depth` brackets are
open at the start. -/
def linesFrom (depth : Nat) : List Token → List (List Token)
  | [] => [[]]
  | token :: rest =>
    if token = .newline ∧ depth = 0 then [] :: linesFrom depth rest
    else (linesFrom (depthAfter depth token) rest).modifyHead (token :: ·)

/-- The key in front of the closing bracket of a header, if nothing but the brackets is left. -/
def headerKey? (closing line : List Token) : Option (List String) :=
  let (key, rest) := line.span (· ≠ .endList)
  if closing.isPrefixOf rest ∧ isBlankLine (rest.drop closing.length) then key? key else none

/-- The statement that a line spells. -/
def statement? (line : List Token) : Option Statement :=
  match line.dropWhile isBlankToken with
  | .beginList :: .beginList :: rest =>
    (headerKey? [.endList, .endList] rest).map .element
  | .beginList :: rest => (headerKey? [.endList] rest).map .table
  | line =>
    match line.span (· ≠ .equals) with
    | (key, _ :: value) =>
      (key? key).bind fun path => (readValue [] value).map (.assign path)
    | _ => none

/-- The tree that tokens spell. -/
def treeOfTokens? (tokens : List Token) : Option Written :=
  let lines := (linesFrom 0 tokens).filter fun line => !isBlankLine line
  (lines.mapM statement?).bind treeOfStatements?

/-- The mark that may stand in front of a text to tell the order of its bytes. -/
def byteOrderMark : Char :=
  '\ufeff'

/-- The tree that a TOML text spells. -/
def writtenOfText? (text : String) : Option Written :=
  let chars := text.toList
  (tokens? ((Text.dropPrefix? [byteOrderMark] chars).getD chars)).bind treeOfTokens?

end Stencil.Toml
