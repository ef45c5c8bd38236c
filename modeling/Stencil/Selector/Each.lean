import Stencil.Path.Access

/-!
# Repetition over a sequence

A brace-free path is a list of steps: a literal key, or `@each`, which stands for every position
of the sequence found there. Resolved against a document, it denotes a list of paths in ascending
order of the positions; where an `@each` does not meet a sequence there are none. A literal is not
looked up, so a path may lead nowhere.
-/

namespace Stencil.Selector

/-- One step of a brace-free path. -/
inductive Step where
  | literal (key : String)
  /-- Every position of a sequence. -/
  | each
deriving DecidableEq

/-- The step that repeats over a sequence, as it is written. -/
def eachToken : List Char :=
  ['@', 'e', 'a', 'c', 'h']

/-- The step that one part of a brace-free path spells. -/
def Step.ofPart (part : List Char) : Step :=
  if part = eachToken then .each else .literal (String.ofList part)

/-- The steps of a brace-free path, whose parts are separated by dots. -/
def stepsOfText (text : List Char) : List Step :=
  (text.splitOn '.').map Step.ofPart

/-- The paths that the steps denote below a place that holds `value`, or nothing if it is absent. -/
def resolveBelow (value : Option Value) : List Step → List Path
  | [] => [[]]
  | .literal key :: rest =>
    (resolveBelow (value.bind (Value.child? (.key key))) rest).map (.key key :: ·)
  | .each :: rest =>
    match value with
    | some (.sequence items) =>
      items.zipIdx.flatMap fun (item, position) =>
        (resolveBelow (some item) rest).map (.index position :: ·)
    | _ => []

/-- The paths that the steps denote in a document. -/
def resolveSteps (steps : List Step) (doc : Value) : List Path :=
  resolveBelow (some doc) steps

end Stencil.Selector
