/-!
# Why a plan fails

The causes for which a plan is refused or cannot be run, and the text shown for each.
-/

namespace Stencil

/-- The part of a stage that refers to documents. -/
inductive StageField where
  | templates
  | combos
  | concat
deriving DecidableEq

/-- The name of the field in a plan. -/
def StageField.text : StageField → String
  | templates => "templates"
  | combos => "combos"
  | concat => "concat"

/-- What refers to a stage by name. -/
inductive Referrer where
  | output
  | field (stage : String) (part : StageField)
deriving DecidableEq

/-- The place of the reference. -/
def Referrer.text : Referrer → String
  | .output => "output"
  | .field stage part => stage ++ "." ++ part.text

/-- Why the document in a file is not available. -/
inductive LoadFault where
  /-- The plan is run without access to files. -/
  | noFiles
  | absent
  | unreadable (reason : String)
  | malformed
deriving DecidableEq

/-- The reason in words. -/
def LoadFault.text : LoadFault → String
  | noFiles => "file sources are not available"
  | absent => "not found"
  | unreadable reason => reason
  | malformed => "malformed JSON"

/-- Why a plan fails. -/
inductive Fault where
  | noStages
  | blankName
  | duplicateStage (name : String)
  /-- A name refers to no earlier stage. -/
  | unknownStage (name : String) (referrer : Referrer)
  | leafTemplate (stage : String)
  | notAnArray (stage : String) (field : StageField) (file : String)
  | unloadable (file : String) (cause : LoadFault)
  /-- A text handed over as a document is no JSON text. -/
  | malformedDocument
deriving DecidableEq

/-- The text shown for a fault. -/
def Fault.message : Fault → String
  | noStages => "PLAN_INVALID: plan defines no [[stage]] entries"
  | blankName => "PLAN_INVALID: stage name cannot be empty"
  | duplicateStage name => "STAGE_DUPLICATE: stage '" ++ name ++ "' is defined more than once"
  | unknownStage name referrer =>
    "STAGE_NOT_FOUND: stage '" ++ name ++ "' referenced by '" ++ referrer.text ++
      "' is not defined before it"
  | leafTemplate stage =>
    "SOURCE_INVALID: templates of stage '" ++ stage ++
      "': every template must be a mapping or a sequence"
  | notAnArray stage field file =>
    "SOURCE_INVALID: " ++ field.text ++ " of stage '" ++ stage ++ "': '" ++ file ++
      "' must hold a JSON array"
  | unloadable file cause =>
    "SOURCE_LOAD_FAILED: failed to load '" ++ file ++ "': " ++ cause.text
  | malformedDocument => "JSON_ERROR: malformed JSON"

end Stencil
