import Stencil.Cli.Request
import Stencil.Files.Reader
import Stencil.Plan.Decode

/-!
# Reports

The report of a command: what it prints, or why it fails, and the notes on its progress that it
gives when asked to. A command is a function of the files that it can read.

* `Command.inputs`, `Command.furtherInputs`: the locations of those files, so that they can be read
  beforehand. The further ones are named in a plan.
-/

namespace Stencil.Cli

/-- Why a command fails. -/
inductive Failure where
  | fault (cause : Fault)
  | notAnArray (file : String)
  /-- The templates in a file hold a leaf. -/
  | leafTemplate (file : String)
  | unreadablePlan (file : String) (cause : ReadFault)
  | malformedPlan (file : String)
deriving DecidableEq

/-- The text shown for a failure. -/
def Failure.message : Failure → String
  | fault cause => cause.message
  | notAnArray file => "'" ++ file ++ "' must hold a JSON array"
  | leafTemplate file => "'" ++ file ++ "' must hold mappings or sequences only"
  | unreadablePlan file cause => "Failed to read plan '" ++ file ++ "': " ++ cause.text
  | malformedPlan file =>
    "Failed to parse plan '" ++ file ++ "': CONFIG_PARSE_ERROR: malformed TOML"

/-- What a command does: its notes on its progress, and what it prints or why it fails. -/
structure Report where
  notes : List String
  result : Except Failure String

namespace Report

/-- The note on something begun. -/
def begun (text : String) : String :=
  "→ " ++ text

/-- The note on something done. -/
def done (text : String) : String :=
  "✓ " ++ text

/-- The exit code. -/
def exitCode (report : Report) : Nat :=
  match report.result with
  | .ok _ => 0
  | .error _ => 1

/-- The text for standard output. -/
def output (report : Report) : String :=
  match report.result with
  | .ok text => text
  | .error _ => ""

/-- The lines for standard error. -/
def errorLines (report : Report) : List String :=
  match report.result with
  | .ok _ => report.notes
  | .error failure => report.notes ++ ["Error: " ++ failure.message]

/-- The report of a failure before any note. -/
def ofFailure (failure : Failure) : Report :=
  ⟨[], .error failure⟩

/-- The report without its notes, unless they are wanted. -/
def withNotes (report : Report) (verbose : Bool) : Report :=
  if verbose then report else { report with notes := [] }

end Report

/-- Counts with a noun in the form for any number. -/
def counted (n : Nat) (noun : String) : String :=
  n.repr ++ " " ++ noun ++ "(s)"

/-- The line that holds a value, or the lines in the pretty layout. -/
def valueLines (pretty : Bool) (value : Value) : String :=
  (if pretty then Json.prettyText value else Json.compactText value) ++ "\n"

/-- Texts as lines. -/
def textLines (texts : List String) : String :=
  String.join (texts.map (· ++ "\n"))

/-! ## Filling templates -/

/-- The array in a file. -/
def loadArray (load : Loader) (file : String) : Except Failure (List Value) :=
  match load file with
  | .error fault => .error (.fault fault)
  | .ok (.sequence items) => .ok items
  | .ok _ => .error (.notAnArray file)

/-- The templates in a file. -/
def loadTemplates (load : Loader) (file : String) : Except Failure (List Value) := do
  let templates ← loadArray load file
  if Value.AllDocuments templates then return templates else .error (.leafTemplate file)

/-- The documents that the options ask for, made of templates and combos. -/
def GenerateOptions.results (options : GenerateOptions) (templates combos : List Value) :
    List Value :=
  let made := ((Generator.ofTemplates templates).generate options.paths combos).rename
    options.renames
  (if options.unique then made.dedup options.dedup else made).results

/-- The report of the command that fills templates. -/
def GenerateOptions.report (options : GenerateOptions) (load : Loader) : Report :=
  let sources : Except Failure (List Value × List Value) := do
    return (← loadTemplates load options.templates, ← loadArray load options.combos)
  match sources with
  | .error failure => .ofFailure failure
  | .ok (templates, combos) =>
    let results := options.results templates combos
    { notes := [
        Report.begun ("Generating " ++ counted templates.length "template" ++ " × " ++
          counted combos.length "combo" ++ " along " ++ counted options.paths.length "path"),
        Report.done ("Generated " ++ counted results.length "document")]
      result := .ok (valueLines (!options.compact) (.sequence results)) }

/-! ## Showing what a path expression selects -/

/-- The fields that show a selector. -/
def selectorFields (selector : Selector) : List (String × Value) :=
  [("expression", .string selector.source), ("alternatives", Value.ofTexts selector.alternatives)]

/-- A path as a line, with a remark if nothing is there. -/
def pathLine (doc : Value) (path : Path) : String :=
  if doc.Has path then path.text else path.text ++ " (missing)"

/-- A path as a mapping. -/
def pathValue (doc : Value) (path : Path) : Value :=
  .mapping [("path", .string path.text), ("exists", .bool (doc.Has path))]

/-- The report of the command that shows what a path expression selects. -/
def ExpandOptions.report (options : ExpandOptions) (load : Loader) : Report :=
  let selector := Selector.ofText options.expression
  match options.document with
  | none =>
    { notes := []
      result := .ok <|
        if options.json then valueLines true (.mapping (selectorFields selector))
        else textLines selector.alternatives }
  | some file =>
    match load file with
    | .error fault => .ofFailure (.fault fault)
    | .ok doc =>
      let paths := selector.resolve doc
      { notes := [
          Report.begun (counted selector.alternatives.length "alternative" ++ ", " ++
            counted paths.length "path" ++ " in '" ++ file ++ "'")]
        result := .ok <|
          if options.json then
            valueLines true (.mapping (selectorFields selector ++
              [("paths", .sequence (paths.map (pathValue doc)))]))
          else textLines (paths.map (pathLine doc)) }

/-! ## Running plans -/

/-- The plan that the options ask for. -/
def RunOptions.plan? (options : RunOptions) (directory : String) (read : FileReader) :
    Except Failure Plan :=
  match read (Location.join directory options.plan) with
  | .error cause => .error (.unreadablePlan options.plan cause)
  | .ok text =>
    match Plan.ofToml? text with
    | none => .error (.malformedPlan options.plan)
    | some plan =>
      .ok { plan with
        output := { plan.output with stage := options.stage <|> plan.output.stage } }

/-- The directory from which a plan sees its files. -/
def RunOptions.planDirectory (options : RunOptions) (directory : String) : String :=
  Location.parent (Location.join directory options.plan)

/-- The report of the command that runs a plan. -/
def RunOptions.report (options : RunOptions) (directory : String) (read : FileReader) : Report :=
  match options.plan? directory read with
  | .error failure => .ofFailure failure
  | .ok plan =>
    let begun := Report.begun ("Running " ++ counted plan.stages.length "stage" ++ " from '" ++
      options.plan ++ "'")
    match plan.run (read.loader (options.planDirectory directory)) with
    | .error fault => ⟨[begun], .error (.fault fault)⟩
    | .ok outcome =>
      { notes := begun :: outcome.stages.map fun (name, results) =>
          Report.done ("Stage '" ++ name ++ "': " ++ counted results.length "document")
        result := .ok (valueLines (plan.output.pretty && !options.compact)
          (.sequence outcome.output)) }

/-! ## All commands -/

/-- The report of a command in a directory. -/
def Command.report (directory : String) (read : FileReader) : Command → Report
  | generate options => options.report (read.loader directory)
  | expand options => options.report (read.loader directory)
  | run options => options.report directory read

/-- The locations of the files that a command names. -/
def Command.inputs (directory : String) : Command → List String
  | generate options => [options.templates, options.combos].map (Location.join directory)
  | expand options => options.document.toList.map (Location.join directory)
  | run options => [Location.join directory options.plan]

/-- The files that are sources of a plan. -/
def planFiles (plan : Plan) : List String :=
  (plan.stages.flatMap fun stage => [stage.templates, stage.combos]).filterMap fun
    | .file path => some path
    | _ => none

/-- The locations of the files that are named in a plan, if a command runs one. -/
def Command.furtherInputs (directory : String) (read : FileReader) : Command → List String
  | run options =>
    match options.plan? directory read with
    | .ok plan => (planFiles plan).map (Location.join (options.planDirectory directory))
    | .error _ => []
  | _ => []

end Stencil.Cli
