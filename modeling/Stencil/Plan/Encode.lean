import Stencil.Plan.Model

/-!
# Encoding plans

The value in which a plan shows all its settings, those left at their defaults included.
-/

namespace Stencil

/-- The value of an optional text: null if there is none. -/
def optionalTextValue : Option String → Value
  | some text => .string text
  | none => .null

/-- The mapping from the names replaced to the names that replace them. -/
def RenameTable.toValue (table : RenameTable) : Value :=
  .mapping (table.toList.map fun (before, after) => (before, .string after))

/-- A source: a list of documents, or a mapping with one field that says what the name is. -/
def Source.toValue : Source → Value
  | inline documents => .sequence documents
  | file path => .mapping [("file", .string path)]
  | stage name => .mapping [("stage", .string name)]

/-- The fields of a stage. -/
def Stage.toValue (stage : Stage) : Value :=
  .mapping [
    ("name", .string stage.name),
    ("paths", Value.ofTexts stage.paths),
    ("templates", stage.templates.toValue),
    ("combos", stage.combos.toValue),
    ("concat", Value.ofTexts stage.concat),
    ("rename", stage.rename.toValue),
    ("unique", .bool stage.unique)]

/-- The output settings. -/
def OutputSettings.toValue (output : OutputSettings) : Value :=
  .mapping [
    ("pretty", .bool output.pretty),
    ("dedup", .string output.dedup.name),
    ("stage", optionalTextValue output.stage)]

/-- The settings and the stages. -/
def Plan.toValue (plan : Plan) : Value :=
  .mapping [
    ("output", plan.output.toValue),
    ("stage", .sequence (plan.stages.map Stage.toValue))]

end Stencil
