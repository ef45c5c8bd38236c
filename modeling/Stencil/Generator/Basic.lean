import Stencil.Generator.Substitute
import Stencil.Value.Equal

/-!
# Generators

A generator holds a set of templates and a list of results, all of them documents. Generation
combines every template with every combo; the other operations work on the results: further
documents are appended, top-level fields renamed, repeated results dropped.
-/

namespace Stencil

/-- Templates and the results made from them. -/
structure Generator where
  templates : List Value
  results : List Value

/-- When two results count as the same. -/
inductive DedupPolicy where
  /-- Structural equality, in which the order of fields does not count. -/
  | structural
  /-- Equality of the compact texts, in which it does. -/
  | serialized
deriving DecidableEq

namespace DedupPolicy

/-- The name of a policy. -/
def name : DedupPolicy → String
  | structural => "structural"
  | serialized => "serialized"

/-- The policy with a name. -/
def ofName? (name : String) : Option DedupPolicy :=
  [structural, serialized].find? fun policy => policy.name = name

end DedupPolicy

namespace Generator

/-- The generator without templates and results. -/
def empty : Generator :=
  ⟨[], []⟩

/-- Replaces the templates. A list that holds a leaf is ignored. -/
def setTemplates (g : Generator) (templates : List Value) : Generator :=
  if Value.AllDocuments templates then { g with templates } else g

/-- The generator with the given templates and no results. -/
def ofTemplates (templates : List Value) : Generator :=
  empty.setTemplates templates

/-- The documents made of templates and combos, all those of the first template first. -/
def product (selectors : List Selector) (templates combos : List Value) : List Value :=
  templates.flatMap fun template => combos.map (substitute selectors template)

/-- Replaces the results by one document for every template and combo. -/
def generate (g : Generator) (paths : List String) (combos : List Value) : Generator :=
  { g with results := product (paths.map Selector.ofText) g.templates combos }

/-- Appends documents to the results. A list that holds a leaf is ignored. -/
def concat (g : Generator) (documents : List Value) : Generator :=
  if Value.AllDocuments documents then { g with results := g.results ++ documents } else g

/-- Appends the results of another generator. -/
def concatResults (g other : Generator) : Generator :=
  { g with results := g.results ++ other.results }

/-! ## Renaming -/

/-- Moves the value of the field `before`, if there is one, to the field `after`. -/
def renameField (fields : Fields Value) (pair : String × String) : Fields Value :=
  if pair.1 = pair.2 then fields
  else
    match Fields.get? pair.1 fields with
    | some value => (Fields.erase pair.1 fields).insert pair.2 value
    | none => fields

/-- Renames top-level fields, pair by pair. A value that is no mapping has none. -/
def renameValue (pairs : List (String × String)) : Value → Value
  | .mapping fields => .mapping (pairs.foldl renameField fields)
  | value => value

/-- Renames the top-level fields of every result. -/
def rename (g : Generator) (pairs : List (String × String)) : Generator :=
  { g with results := g.results.map (renameValue pairs) }

/-! ## Dropping repeated results -/

/-- Keeps each value that equals none of those already kept. -/
def keepStructural (kept : List Value) : List Value → List Value
  | [] => kept
  | value :: rest =>
    if kept.any (·.equal value) then keepStructural kept rest
    else keepStructural (kept ++ [value]) rest

/-- Keeps each value whose compact text is none of those already seen. -/
def keepSerialized (seen : List String) : List Value → List Value
  | [] => []
  | value :: rest =>
    let text := Json.compactText value
    if text ∈ seen then keepSerialized seen rest
    else value :: keepSerialized (text :: seen) rest

/-- The values without those that equal an earlier one. -/
def dedupValues : DedupPolicy → List Value → List Value
  | .structural, values => keepStructural [] values
  | .serialized, values => keepSerialized [] values

/-- Drops every result that equals an earlier one. -/
def dedup (g : Generator) (policy : DedupPolicy) : Generator :=
  { g with results := dedupValues policy g.results }

/-! ## Moving and clearing -/

/-- Makes the results the templates of the next generation. -/
def adoptResults (g : Generator) : Generator :=
  ⟨g.results, []⟩

/-- Drops the results. -/
def clearResults (g : Generator) : Generator :=
  { g with results := [] }

/-- Drops the templates. -/
def clearTemplates (g : Generator) : Generator :=
  { g with templates := [] }

/-! ## Where documents come from -/

/-- The list of combos that a value stands for: its items if it is a sequence, else itself. -/
def combosOfValue : Value → List Value
  | .sequence items => items
  | value => [value]

/-- Appends the items of a sequence to the results; any other value is ignored. -/
def concatValue (g : Generator) : Value → Generator
  | .sequence items => g.concat items
  | _ => g

/-- Whether two generators have structurally equal templates and results. -/
def equal (g h : Generator) : Bool :=
  Value.equalItems g.templates h.templates && Value.equalItems g.results h.results

end Generator

end Stencil
