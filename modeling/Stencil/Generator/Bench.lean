import Stencil.Generator.Basic

/-!
# Generators side by side

A bench holds generators, each under a name; a name that is not in use stands for a generator
without templates and results. An operation changes the generator under one name and may read the
one under another.

* `generator_perform_self`, `generator_perform_of_ne`: an operation changes no other generator.
-/

namespace Stencil

/-- Where an operation takes documents from. -/
inductive Supply where
  | listed (documents : List Value)
  /-- A value that stands for a list, if it is a sequence, or for itself. -/
  | value (value : Value)
  | results (name : String)

/-- A change of one generator. -/
inductive Operation where
  /-- Replaces the generator by a new one with templates. -/
  | create (templates : List Value)
  | setTemplates (templates : List Value)
  | generate (paths : List String) (combos : Supply)
  | concat (documents : Supply)
  | rename (pairs : List (String × String))
  | dedup (policy : DedupPolicy)
  /-- Makes the results the templates. -/
  | adoptResults
  | clearResults
  | clearTemplates
  /-- Replaces the generator by the one under a name. -/
  | copy (name : String)
  /-- Drops templates and results, the results being taken away. -/
  | takeResults

/-- Generators under names. -/
abbrev Bench := Fields Generator

namespace Bench

/-- The generator under a name. -/
def generator (bench : Bench) (name : String) : Generator :=
  (Fields.get? name bench).getD .empty

/-- The combos that are supplied. -/
def combos (bench : Bench) : Supply → List Value
  | .listed documents => documents
  | .value value => Generator.combosOfValue value
  | .results name => (bench.generator name).results

/-- A generator with the documents that are supplied behind its results. -/
def append (bench : Bench) (g : Generator) : Supply → Generator
  | .listed documents => g.concat documents
  | .value value => g.concatValue value
  | .results name => g.concatResults (bench.generator name)

/-- What an operation makes of a generator. -/
def apply (bench : Bench) (g : Generator) : Operation → Generator
  | .create templates => .ofTemplates templates
  | .setTemplates templates => g.setTemplates templates
  | .generate paths supply => g.generate paths (bench.combos supply)
  | .concat supply => bench.append g supply
  | .rename pairs => g.rename pairs
  | .dedup policy => g.dedup policy
  | .adoptResults => g.adoptResults
  | .clearResults => g.clearResults
  | .clearTemplates => g.clearTemplates
  | .copy name => bench.generator name
  | .takeResults => .empty

/-- Performs an operation on the generator under a name. -/
def perform (bench : Bench) (name : String) (operation : Operation) : Bench :=
  bench.insert name (bench.apply (bench.generator name) operation)

/-- Performs operations one after another, each on the generator under its name. -/
def performAll (bench : Bench) (operations : List (String × Operation)) : Bench :=
  operations.foldl (fun bench (name, operation) => bench.perform name operation) bench

theorem generator_perform_self (bench : Bench) (name : String) (operation : Operation) :
    (bench.perform name operation).generator name =
      bench.apply (bench.generator name) operation := by
  simp [perform, generator, Fields.get?_insert_self]

theorem generator_perform_of_ne (bench : Bench) {name other : String} (h : other ≠ name)
    (operation : Operation) :
    (bench.perform name operation).generator other = bench.generator other := by
  rw [generator, perform, Fields.get?_insert_of_ne h]
  rfl

end Bench

end Stencil
