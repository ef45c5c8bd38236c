import Mathlib.Algebra.Ring.Nat
import Stencil.Proofs.Generator.Dedup
import Stencil.Proofs.Plan.Faults

/-!
# Where the results of a stage stand

A stage makes one result for every template and every combo, those of one template behind each other,
and puts the results of other stages behind them. All are renamed, and none changes its place until
repeated results are dropped.

* `Generator.getElem?_product`: the place of the document for a template and a combo.
* `Stage.Makes`: the results of a stage before repeated ones are dropped, told place by place.
* `Plan.results_by_place`: what every stage of a plan that runs makes.
-/

namespace Stencil

namespace Generator

variable (selectors : List Selector) (templates combos : List Value)

theorem length_product :
    (product selectors templates combos).length = templates.length * combos.length := by
  simp [product, List.length_flatMap]

/-- The documents for the template `i` stand behind those of the `i` templates before it. -/
theorem getElem?_product {i j : ℕ} {template combo : Value} (hi : templates[i]? = some template)
    (hj : combos[j]? = some combo) :
    (product selectors templates combos)[i * combos.length + j]? =
      some (substitute selectors template combo) := by
  induction templates generalizing i with
  | nil => cases hi
  | cons first rest ih =>
    have hlt : j < combos.length := (List.getElem?_eq_some_iff.1 hj).1
    rw [product, List.flatMap_cons]
    cases i with
    | zero =>
      obtain rfl := Option.some.inj hi
      rw [List.getElem?_append_left (by simpa using hlt)]
      simp [hj]
    | succ i =>
      have hplace : (i + 1) * combos.length + j = combos.length + (i * combos.length + j) := by
        rw [Nat.add_mul, Nat.one_mul, Nat.add_right_comm, Nat.add_comm]
      have hbehind : (combos.map (substitute selectors first)).length ≤
          (i + 1) * combos.length + j := by
        rw [List.length_map, hplace]
        exact Nat.le_add_right _ _
      rw [List.getElem?_append_right hbehind, List.length_map, hplace, Nat.add_sub_cancel_left]
      exact ih hi

end Generator

namespace Stage

/-- What a stage makes of templates, of combos and of the results that it appends, before repeated
results are dropped. -/
structure Makes (stage : Stage) (templates combos : List Value) (appended : List (List Value))
    (made : List Value) : Prop where
  length : made.length = templates.length * combos.length + (appended.map List.length).sum
  /-- Each is made of its template and its combo alone. -/
  generated : ∀ i j template combo, templates[i]? = some template → combos[j]? = some combo →
    made[i * combos.length + j]? = some (Generator.renameValue stage.rename.toList
      (Generator.substitute (stage.paths.map Selector.ofText) template combo))
  appended : made.drop (templates.length * combos.length) =
    appended.flatten.map (Generator.renameValue stage.rename.toList)

theorem makes_product (stage : Stage) (templates combos : List Value)
    (appended : List (List Value)) :
    stage.Makes templates combos appended
      ((Generator.product (stage.paths.map Selector.ofText) templates combos ++
        appended.flatten).map (Generator.renameValue stage.rename.toList)) := by
  refine ⟨?_, fun i j template combo hi hj => ?_, ?_⟩
  · rw [List.length_map, List.length_append, Generator.length_product, List.length_flatten]
  · have hmade := Generator.getElem?_product (stage.paths.map Selector.ofText) _ _ hi hj
    have hlt := (List.getElem?_eq_some_iff.1 hmade).1
    rw [List.getElem?_map, List.getElem?_append_left hlt, hmade, Option.map_some]
  · rw [List.map_append, List.drop_left']
    rw [List.length_map, Generator.length_product]

/-- The results of a stage are what it makes, or the first occurrences in it. -/
theorem exists_makes (stage : Stage) (dedup : DedupPolicy) {templates : List Value}
    (hall : Value.AllDocuments templates) (combos : List Value) (appended : List (List Value)) :
    ∃ made, stage.Makes templates combos appended made ∧
      stage.results dedup templates combos appended =
        if stage.unique then made.eraseDupsBy dedup.same else made := by
  refine ⟨_, stage.makes_product templates combos appended, ?_⟩
  have hgenerated : ((Generator.ofTemplates templates).generate stage.paths combos).results =
      Generator.product (stage.paths.map Selector.ofText) templates combos := by
    simp [Generator.generate, Generator.ofTemplates, Generator.setTemplates, hall]
  rw [results, hgenerated, Generator.dedupValues_eq_eraseDupsBy]

end Stage

namespace Plan

/-- **Nothing is lost, repeated or moved.** In a plan that runs, every stage has the results that it
makes of the documents of its sources and of the results it appends, stage by stage as listed. Only
if the stage drops repeated results, these are the first occurrences. -/
theorem results_by_place {plan : Plan} {load : Loader} {outcome : Outcome}
    (h : plan.run load = .ok outcome) {stage : Stage} (hstage : stage ∈ plan.stages) :
    ∃ templates combos appended made,
      stage.templates.resolve load outcome.stages stage .templates = .ok templates ∧
      stage.combos.resolve load outcome.stages stage .combos = .ok combos ∧
      List.Forall₂ (fun name results => outcome.results? name = some results)
        stage.concat appended ∧
      stage.Makes templates combos appended made ∧
      outcome.results? stage.name =
        some (if stage.unique then made.eraseDupsBy plan.output.dedup.same else made) := by
  obtain ⟨results, ⟨htemplates, hall, hcombos, happended⟩, hmem⟩ :=
    exists_yields_of_mem (run_eq_ok_iff.1 h).2.1 hstage
  obtain ⟨made, hmakes, hresults⟩ := stage.exists_makes plan.output.dedup hall _ _
  exact ⟨_, _, _, made, Source.resolve_eq_ok_iff.2 htemplates, Source.resolve_eq_ok_iff.2 hcombos,
    happended, hmakes, hresults ▸ results?_of_mem h hmem⟩

/-- A stage that makes one document. -/
def single : Stage :=
  ⟨"single", [], .inline [.mapping [("tag", .null)]], .inline [.null], [], .empty, false⟩

/-- A stage that makes two copies of the document, appends it twice, renames its field and keeps one
of the four. -/
def kept : Stage :=
  ⟨"kept", [], .stage "single", .inline [.null, .null], ["single", "single"],
    .ofPairs [("tag", "mark")], true⟩

theorem results_by_place_kept :
    ∃ outcome : Outcome,
      Plan.run ⟨{}, [single, kept]⟩ .withoutFiles = .ok outcome ∧ kept ∈ [single, kept] ∧
      (∃ templates combos appended made,
        kept.templates.resolve .withoutFiles outcome.stages kept .templates = .ok templates ∧
        kept.combos.resolve .withoutFiles outcome.stages kept .combos = .ok combos ∧
        List.Forall₂ (fun name results => outcome.results? name = some results)
          kept.concat appended ∧
        kept.Makes templates combos appended made ∧
        outcome.results? "kept" = some (made.eraseDupsBy DedupPolicy.structural.same)) ∧
      outcome.results? "kept" = some [.mapping [("mark", .null)]] := by
  obtain ⟨outcome, hrun, hresults⟩ : ∃ outcome : Outcome,
      Plan.run ⟨{}, [single, kept]⟩ .withoutFiles = .ok outcome ∧
      outcome.results? "kept" = some [.mapping [("mark", .null)]] :=
    ⟨_, rfl, rfl⟩
  have hkept : kept ∈ [single, kept] := by simp
  exact ⟨outcome, hrun, hkept, results_by_place hrun hkept, hresults⟩

end Plan

end Stencil
