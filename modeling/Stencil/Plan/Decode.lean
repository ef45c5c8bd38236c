import Stencil.Json.Reader
import Stencil.Plan.Model
import Stencil.Toml.Reader

/-!
# Decoding plans

A plan is written as a tree of records, in JSON or in TOML. Fields that are not known are ignored,
a known field may be written once, and a record may also be written as the list of its fields in
their order. A source has no tag: a list holds documents, a record with a text under `file` names a
file, and any other record with a text under `stage` names a stage. What is left open by this is
settled by a `Dialect`.
-/

namespace Stencil.Plan

/-- What the ways to write a plan differ in: whether a list in place of a record may have more items
than the record has fields, whether an empty list or record may stand for no data, and how many
lists and records may be inside each other where documents are written. -/
structure Dialect where
  longLists : Bool
  emptyPayloads : Bool
  maxHeight : Option Nat

/-- Plans in JSON. -/
def Dialect.json : Dialect :=
  ⟨false, false, some Json.maxHeight⟩

/-- Plans in TOML. -/
def Dialect.toml : Dialect :=
  ⟨true, true, none⟩

/-- The values that a tree gives to the named fields of a record. -/
def slots? (dialect : Dialect) (names : List String) : Written → Option (String → Option Written)
  | .record entries =>
    let found name := entries.filter fun entry => entry.1 = some name
    if entries.any (·.1.isNone) then none
    else if names.all fun name => (found name).length ≤ 1 then
      some fun name => (found name).head?.map (·.2)
    else none
  | .list items =>
    if names.length < items.length ∧ !dialect.longLists then none
    else some fun name => (names.idxOf? name).bind (items[·]?)
  | _ => none

/-- A text. -/
def text? : Written → Option String
  | .string text => text
  | _ => none

/-- A truth value. -/
def bool? : Written → Option Bool
  | .bool value => some value
  | _ => none

/-- A list of texts. -/
def texts? : Written → Option (List String)
  | .list items => items.mapM text?
  | _ => none

/-- A text or, in JSON, null. -/
def optionalText? : Written → Option (Option String)
  | .null => some none
  | tree => (text? tree).map some

/-- The key and the text of an entry. -/
def textEntry? (entry : Option String × Written) : Option (String × String) :=
  entry.1.bind fun key => (text? entry.2).map (key, ·)

/-- The table that a record of texts spells. -/
def renameTable? : Written → Option RenameTable
  | .record entries => (entries.mapM textEntry?).map RenameTable.ofPairs
  | _ => none

/-- Whether a tree says that a name carries no data. -/
def isEmptyPayload (dialect : Dialect) : Written → Bool
  | .null => true
  | .list [] | .record [] => dialect.emptyPayloads
  | _ => false

/-- The policy that a tree names: by a text, or by a record with one key that carries no data. -/
def policy? (dialect : Dialect) : Written → Option DedupPolicy
  | .string text => text.bind DedupPolicy.ofName?
  | .record [(key, payload)] =>
    if isEmptyPayload dialect payload then key.bind DedupPolicy.ofName? else none
  | _ => none

/-- The text under a key that is written exactly once. -/
def onlyText? (key : String) (entries : List (Option String × Written)) : Option String :=
  match entries.filter fun entry => entry.1 = some key with
  | [(_, value)] => text? value
  | _ => none

/-- The depth at which the sources of a plan are written: in a stage, in the list of stages, in the
plan. -/
def sourceDepth : Nat :=
  3

/-- The source that a tree spells. All of it must denote a value, whatever part is used. -/
def source? (dialect : Dialect) (tree : Written) : Option Source :=
  if dialect.maxHeight.any fun limit => limit < tree.height + sourceDepth then none
  else
    tree.value?.bind fun value =>
      match tree, value with
      | .list _, .sequence documents => some (.inline documents)
      | .record entries, _ =>
        ((onlyText? "file" entries).map .file) <|> ((onlyText? "stage" entries).map .stage)
      | _, _ => none

/-- The value of a field, or a default if the field is not written. -/
def fieldD {α : Type} (slot : Option Written) (default : α) (decode : Written → Option α) :
    Option α :=
  match slot with
  | some tree => decode tree
  | none => some default

/-- The names of the fields of a stage, in order. -/
def stageFields : List String :=
  ["name", "paths", "templates", "combos", "concat", "rename", "unique"]

/-- The stage that a tree spells. -/
def stage? (dialect : Dialect) (tree : Written) : Option Stage :=
  (slots? dialect stageFields tree).bind fun slot => do
    return {
      name := ← (slot "name").bind text?
      paths := ← fieldD (slot "paths") [] texts?
      templates := ← (slot "templates").bind (source? dialect)
      combos := ← (slot "combos").bind (source? dialect)
      concat := ← fieldD (slot "concat") [] texts?
      rename := ← fieldD (slot "rename") .empty renameTable?
      unique := ← fieldD (slot "unique") false bool? }

/-- The names of the output settings, in order. -/
def outputFields : List String :=
  ["pretty", "dedup", "stage"]

/-- The output settings that a tree spells. -/
def output? (dialect : Dialect) (tree : Written) : Option OutputSettings :=
  (slots? dialect outputFields tree).bind fun slot => do
    return {
      pretty := ← fieldD (slot "pretty") true bool?
      dedup := ← fieldD (slot "dedup") .structural (policy? dialect)
      stage := ← fieldD (slot "stage") none optionalText? }

/-- The stages that a list of trees spells. -/
def stages? (dialect : Dialect) : Written → Option (List Stage)
  | .list items => items.mapM (stage? dialect)
  | _ => none

/-- The names of the parts of a plan, in order. -/
def planFields : List String :=
  ["output", "stage"]

/-- The plan that a tree spells. -/
def ofWritten? (dialect : Dialect) (tree : Written) : Option Plan :=
  (slots? dialect planFields tree).bind fun slot => do
    return {
      output := ← fieldD (slot "output") {} (output? dialect)
      stages := ← fieldD (slot "stage") [] (stages? dialect) }

/-- The plan that a JSON text spells. -/
def ofJson? (text : String) : Option Plan :=
  (Json.writtenOfText? text).bind (ofWritten? .json)

/-- The plan that a TOML text spells. -/
def ofToml? (text : String) : Option Plan :=
  (Toml.writtenOfText? text).bind (ofWritten? .toml)

end Stencil.Plan
