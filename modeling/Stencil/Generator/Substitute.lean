import Stencil.Placeholder
import Stencil.Selector.Basic

/-!
# Substitution along selectors

A combo is a mapping from the names of variables to values. To apply it to a document, each of its
variables is taken in turn, and the places that the selectors denote in the document as it then is
are edited one after another: a string has the placeholder of the variable filled, and any other
value is overwritten by the entry of the combo that is named like the place.
-/

namespace Stencil.Generator

/-- The value that stands at a selected place after the variable `name` has been applied there. -/
def edit (combo : Fields Value) (name : String) (value : Value) (path : Path) : Value → Value
  | .string text =>
    let filled := Placeholder.replaceAll (Placeholder.token name) (Placeholder.replacement value)
      text.toList
    .string (String.ofList filled)
  | _ => (Fields.get? path.text combo).getD .null

/-- Edits the place at a path, if it is present. -/
def editAt (combo : Fields Value) (name : String) (value : Value) (doc : Value) (path : Path) :
    Value :=
  (doc.update? (edit combo name value path) path).getD doc

/-- Edits every place that a selector denotes in the document as it is at the start. -/
def editAlong (combo : Fields Value) (name : String) (value : Value) (doc : Value)
    (selector : Selector) : Value :=
  (selector.resolve doc).foldl (editAt combo name value) doc

/-- Applies one variable along all selectors. -/
def applyVariable (combo : Fields Value) (selectors : List Selector) (doc : Value)
    (entry : String × Value) : Value :=
  selectors.foldl (editAlong combo entry.1 entry.2) doc

/-- The document that a template and a combo give. A combo that is no mapping has no variables. -/
def substitute (selectors : List Selector) (template combo : Value) : Value :=
  match combo with
  | .mapping fields => fields.foldl (applyVariable fields selectors) template
  | _ => template

end Stencil.Generator
