import Stencil.Selector.Alternatives
import Stencil.Selector.Each

/-!
# Selectors

A `Selector` is a path expression made ready for use: its groups are expanded once, and it can be
resolved against any number of documents.
-/

namespace Stencil

/-- A path expression with the brace-free paths that it stands for. -/
structure Selector where
  source : String
  alternatives : List String
  /-- The steps of each of them. -/
  steps : List (List Selector.Step)

namespace Selector

/-- The selector of a path expression. -/
def ofText (source : String) : Selector :=
  let paths := expand source.toList
  { source
    alternatives := paths.map String.ofList
    steps := paths.map stepsOfText }

/-- The paths that the selector denotes in a document, alternative by alternative. -/
def resolve (selector : Selector) (doc : Value) : List Path :=
  selector.steps.flatMap (resolveSteps · doc)

end Selector

end Stencil
