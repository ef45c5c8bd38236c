import Stencil.Json.Reader
import Stencil.Plan.Fault
import Stencil.Plan.Model
import Stencil.Text.Blank

/-!
# Running plans

A plan is checked first: it has stages, their names are not blank and differ from each other, and
the output stage is one of them. Then the stages run in order. A source may only name a stage that
has run before; the first fault found ends the run.
-/

namespace Stencil

/-- What gives the document in a file, or the reason why there is none. -/
abbrev Loader := String → Except Fault Value

/-- The loader for plans that use no files. -/
def Loader.withoutFiles : Loader :=
  fun file => .error (.unloadable file .noFiles)

/-- The loader that reads the JSON texts of a table of files. -/
def Loader.ofTexts (texts : List (String × String)) : Loader :=
  fun file =>
    match Fields.get? file texts with
    | none => .error (.unloadable file .absent)
    | some text =>
      match Json.valueOfText? text with
      | some value => .ok value
      | none => .error .malformedDocument

/-- Stages that have run, with their results, in order. -/
abbrev Finished := List (String × List Value)

namespace Plan

/-- Checks the names of stages against the names before them. -/
def checkNames (seen : List String) : List Stage → Except Fault Unit
  | [] => .ok ()
  | stage :: rest =>
    if Text.trim stage.name.toList = [] then .error .blankName
    else if stage.name ∈ seen then .error (.duplicateStage stage.name)
    else checkNames (stage.name :: seen) rest

/-- Checks that the output stage, if it is named, is a stage of the plan. -/
def checkOutput (plan : Plan) : Except Fault Unit :=
  match plan.output.stage with
  | some name =>
    if name ∈ plan.stages.map Stage.name then .ok () else .error (.unknownStage name .output)
  | none => .ok ()

/-- Checks a plan before it runs. -/
def validate (plan : Plan) : Except Fault Unit :=
  if plan.stages = [] then .error .noStages
  else do
    checkNames [] plan.stages
    plan.checkOutput

end Plan

/-- The results of the finished stage to which a field of a stage refers. -/
def Finished.lookUp (finished : Finished) (stage : Stage) (field : StageField) (name : String) :
    Except Fault (List Value) :=
  match Fields.get? name finished with
  | some results => .ok results
  | none => .error (.unknownStage name (.field stage.name field))

/-- The documents of a source. -/
def Source.resolve (source : Source) (load : Loader) (finished : Finished) (stage : Stage)
    (field : StageField) : Except Fault (List Value) :=
  match source with
  | inline documents => .ok documents
  | file path => do
    match ← load path with
    | .sequence documents => .ok documents
    | _ => .error (.notAnArray stage.name field path)
  | Source.stage name => finished.lookUp stage field name

namespace Stage

/-- The results of a stage, given its documents and the results that it appends. -/
def results (stage : Stage) (dedup : DedupPolicy) (templates combos : List Value)
    (appended : List (List Value)) : List Value :=
  let generated := ((Generator.ofTemplates templates).generate stage.paths combos).results
  let renamed := (generated ++ appended.flatten).map
    (Generator.renameValue stage.rename.toList)
  if stage.unique then Generator.dedupValues dedup renamed else renamed

/-- Runs a stage after those that have finished. -/
def run (stage : Stage) (load : Loader) (dedup : DedupPolicy) (finished : Finished) :
    Except Fault (List Value) := do
  let templates ← stage.templates.resolve load finished stage .templates
  if Value.AllDocuments templates then
    let combos ← stage.combos.resolve load finished stage .combos
    let appended ← stage.concat.mapM (finished.lookUp stage .concat)
    return stage.results dedup templates combos appended
  else .error (.leafTemplate stage.name)

end Stage

/-- The results of every stage of a plan, and which of the stages is its output. -/
structure Outcome where
  stages : Finished
  /-- The place of the output stage among them. -/
  place : Fin stages.length

namespace Outcome

/-- The results of the stage with a name. -/
def results? (outcome : Outcome) (name : String) : Option (List Value) :=
  Fields.get? name outcome.stages

/-- The name of the output stage. -/
def outputStage (outcome : Outcome) : String :=
  (outcome.stages.get outcome.place).1

/-- The results of the output stage. -/
def output (outcome : Outcome) : List Value :=
  (outcome.stages.get outcome.place).2

end Outcome

/-- The outcome of finished stages with the stage `name` as output. -/
def Finished.outcome (finished : Finished) (name : String) : Except Fault Outcome :=
  match finished.findFinIdx? fun entry => entry.1 = name with
  | some place => .ok ⟨finished, place⟩
  | none => .error (.unknownStage name .output)

namespace Plan

/-- Runs stages one after another behind those that have finished. -/
def runStages (load : Loader) (dedup : DedupPolicy) (finished : Finished) :
    List Stage → Except Fault Finished
  | [] => .ok finished
  | stage :: rest => do
    let results ← stage.run load dedup finished
    runStages load dedup (finished ++ [(stage.name, results)]) rest

/-- Checks a plan and runs all its stages. -/
def run (plan : Plan) (load : Loader) : Except Fault Outcome := do
  plan.validate
  let finished ← runStages load plan.output.dedup [] plan.stages
  finished.outcome (plan.outputStage?.getD "")

end Plan

end Stencil
