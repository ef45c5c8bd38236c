import Stencil.Generator.Bench
import Stencil.Proofs.Generator.Frame

/-!
# Generators hold documents

Of the operations on generators only two look at the values they are given and refuse a list that
holds a leaf. The others take over what is there: results become templates, the results of one
generator go into another. Still no leaf gets into a generator, because what the operations make of
documents are documents.

* `shape_substitute`: a substitution keeps the root, whatever its expressions and its combo.
* `dedupValues_sublist`: dropping repeated values keeps some of the values, in order.
* `Generator.HoldsDocuments`: every template and every result is a document.
* `Bench.performAll_holdsDocuments`: so it is after every history, in every generator.
-/

namespace Stencil

namespace Value

/-- A mapping and a sequence can be told from a leaf by the shape. -/
theorem IsDocument.of_shape {v w : Value} (h : v.IsDocument) (hshape : v.shape = w.shape) :
    w.IsDocument := by
  cases w with
  | sequence items => exact isDocument_sequence items
  | mapping fields => exact isDocument_mapping fields
  | _ => cases v <;> simp_all [shape, IsDocument]

theorem allDocuments_nil : AllDocuments [] := by simp [AllDocuments]

theorem AllDocuments.append {values more : List Value} (h : AllDocuments values)
    (hmore : AllDocuments more) : AllDocuments (values ++ more) := fun value hvalue =>
  (List.mem_append.1 hvalue).elim (h value) (hmore value)

theorem AllDocuments.sublist {values kept : List Value} (h : AllDocuments values)
    (hkept : kept.Sublist values) : AllDocuments kept := fun value hvalue =>
  h value (hkept.subset hvalue)

end Value

open Value

namespace Generator

/-! ## What the operations make of documents -/

/-- A substitution keeps the shape of the root: no alternative is without segments, not even that
of an empty expression. -/
theorem shape_substitute (paths : List String) (template combo : Value) :
    (substitute (paths.map Selector.ofText) template combo).shape = template.shape := by
  have hroot := (reaches_substitute (paths.map Selector.ofText) template combo).shape_eq (q := [])
    fun selector hs steps hsteps r hr hmatch => by
      obtain ⟨alternative, -, rfl⟩ := exists_of_mem_steps hs hsteps
      obtain rfl := List.prefix_nil.1 hr
      exact stepsOfText_ne_nil alternative (List.forall₂_nil_right_iff.1 hmatch)
  simpa using hroot [] List.nil_prefix

theorem allDocuments_product (paths : List String) {templates : List Value} (combos : List Value)
    (h : AllDocuments templates) :
    AllDocuments (product (paths.map Selector.ofText) templates combos) := by
  intro value hvalue
  obtain ⟨template, ht, hmade⟩ := List.mem_flatMap.1 hvalue
  obtain ⟨combo, -, rfl⟩ := List.mem_map.1 hmade
  exact (h template ht).of_shape (shape_substitute paths template combo).symm

theorem isDocument_renameValue (pairs : List (String × String)) {value : Value}
    (h : value.IsDocument) : (renameValue pairs value).IsDocument := by
  cases value with
  | mapping fields => exact isDocument_mapping _
  | _ => exact h

theorem allDocuments_map_renameValue (pairs : List (String × String)) {values : List Value}
    (h : AllDocuments values) : AllDocuments (values.map (renameValue pairs)) := by
  intro value hvalue
  obtain ⟨old, hold, rfl⟩ := List.mem_map.1 hvalue
  exact isDocument_renameValue pairs (h old hold)

theorem keepStructural_sublist (kept values : List Value) :
    (keepStructural kept values).Sublist (kept ++ values) := by
  induction values generalizing kept with
  | nil => simp [keepStructural]
  | cons value rest ih =>
    rw [keepStructural]
    split
    · exact (ih kept).trans ((List.sublist_cons_self value rest).append_left kept)
    · simpa using ih (kept ++ [value])

theorem keepSerialized_sublist (seen : List String) (values : List Value) :
    (keepSerialized seen values).Sublist values := by
  induction values generalizing seen with
  | nil => exact List.Sublist.slnil
  | cons value rest ih =>
    simp only [keepSerialized]
    split
    · exact (ih seen).cons value
    · exact (ih _).cons_cons value

/-- Dropping repeated values keeps some of the values, in order. -/
theorem dedupValues_sublist (policy : DedupPolicy) (values : List Value) :
    (dedupValues policy values).Sublist values := by
  cases policy with
  | structural => simpa [dedupValues] using keepStructural_sublist [] values
  | serialized => exact keepSerialized_sublist [] values

/-! ## Generators -/

/-- Every template and every result is a mapping or a sequence. -/
structure HoldsDocuments (g : Generator) : Prop where
  templates : AllDocuments g.templates
  results : AllDocuments g.results

theorem holdsDocuments_empty : empty.HoldsDocuments :=
  ⟨allDocuments_nil, allDocuments_nil⟩

namespace HoldsDocuments

variable {g : Generator}

theorem setTemplates (h : g.HoldsDocuments) (templates : List Value) :
    (g.setTemplates templates).HoldsDocuments := by
  rw [Generator.setTemplates]
  split
  · rename_i hall
    exact ⟨hall, h.results⟩
  · exact h

theorem generate (h : g.HoldsDocuments) (paths : List String) (combos : List Value) :
    (g.generate paths combos).HoldsDocuments :=
  ⟨h.templates, allDocuments_product paths combos h.templates⟩

theorem concat (h : g.HoldsDocuments) (documents : List Value) :
    (g.concat documents).HoldsDocuments := by
  rw [Generator.concat]
  split
  · rename_i hall
    exact ⟨h.templates, h.results.append hall⟩
  · exact h

theorem concatValue (h : g.HoldsDocuments) (value : Value) :
    (g.concatValue value).HoldsDocuments := by
  cases value with
  | sequence items => exact h.concat items
  | _ => exact h

theorem concatResults {other : Generator} (h : g.HoldsDocuments) (hother : other.HoldsDocuments) :
    (g.concatResults other).HoldsDocuments :=
  ⟨h.templates, h.results.append hother.results⟩

theorem rename (h : g.HoldsDocuments) (pairs : List (String × String)) :
    (g.rename pairs).HoldsDocuments :=
  ⟨h.templates, allDocuments_map_renameValue pairs h.results⟩

theorem dedup (h : g.HoldsDocuments) (policy : DedupPolicy) : (g.dedup policy).HoldsDocuments :=
  ⟨h.templates, h.results.sublist (dedupValues_sublist policy g.results)⟩

theorem adoptResults (h : g.HoldsDocuments) : g.adoptResults.HoldsDocuments :=
  ⟨h.results, allDocuments_nil⟩

theorem clearResults (h : g.HoldsDocuments) : g.clearResults.HoldsDocuments :=
  ⟨h.templates, allDocuments_nil⟩

theorem clearTemplates (h : g.HoldsDocuments) : g.clearTemplates.HoldsDocuments :=
  ⟨allDocuments_nil, h.results⟩

end HoldsDocuments

end Generator

/-! ## Histories -/

namespace Bench

variable {bench : Bench}

/-- An operation makes a generator that holds documents, if all generators that it reads do. -/
theorem holdsDocuments_apply (h : ∀ name, (bench.generator name).HoldsDocuments) {g : Generator}
    (hg : g.HoldsDocuments) (operation : Operation) :
    (bench.apply g operation).HoldsDocuments := by
  cases operation with
  | create templates => exact Generator.holdsDocuments_empty.setTemplates templates
  | setTemplates templates => exact hg.setTemplates templates
  | generate paths combos => exact hg.generate paths (bench.combos combos)
  | concat documents =>
    cases documents with
    | listed documents => exact hg.concat documents
    | value value => exact hg.concatValue value
    | results name => exact hg.concatResults (h name)
  | rename pairs => exact hg.rename pairs
  | dedup policy => exact hg.dedup policy
  | adoptResults => exact hg.adoptResults
  | clearResults => exact hg.clearResults
  | clearTemplates => exact hg.clearTemplates
  | copy name => exact h name
  | takeResults => exact Generator.holdsDocuments_empty

/-- One operation leaves documents in all generators. -/
theorem holdsDocuments_perform (h : ∀ name, (bench.generator name).HoldsDocuments) (name : String)
    (operation : Operation) (other : String) :
    ((bench.perform name operation).generator other).HoldsDocuments := by
  by_cases hother : other = name
  · rw [hother, generator_perform_self]
    exact holdsDocuments_apply h (h name) operation
  · rw [generator_perform_of_ne bench hother]
    exact h other

/-- **No leaf gets into a generator.** After every history of operations on any number of
generators, every template and every result of every generator is a mapping or a sequence. -/
theorem performAll_holdsDocuments (operations : List (String × Operation)) (name : String) :
    ((performAll [] operations).generator name).HoldsDocuments := by
  have hrun : ∀ name, ((performAll [] operations).generator name).HoldsDocuments := by
    unfold performAll
    refine List.foldlRecOn (motive := fun bench => ∀ name, (generator bench name).HoldsDocuments)
      operations _ (fun _ => Generator.holdsDocuments_empty) ?_
    intro bench h operation _
    exact holdsDocuments_perform h operation.1 operation.2
  exact hrun name

end Bench

end Stencil
