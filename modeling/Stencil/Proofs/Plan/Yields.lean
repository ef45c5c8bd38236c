import Mathlib.Data.List.Forall2
import Stencil.Plan.Run
import Stencil.Proofs.Generator.Documents

/-!
# What stages yield

A stage reads documents and the results of stages that have finished, and that is all: it yields the
same results behind any finished stages that agree on the names it refers to. A run of stages only
adds to what has finished, so at its end every stage still yields what it yielded in its turn.

* `Source.Denotes`, `Stage.Yields`: the documents of a source and the results of a stage, as
  relations.
* `Stage.run_eq_ok_iff`: running a stage gives what it yields.
* `Stage.Yields.of_agree`: a stage reads nothing but what it refers to.
* `Plan.exists_yields_of_mem`: the finished stages of a run yield their results behind each other.
* `Plan.run_eq_ok_iff`: a plan that runs has been checked, and its outcome is what its stages leave.
-/

namespace Stencil

open Value

/-! ## Sequences of steps that may fail -/

section Except

variable {ε α β : Type}

theorem bind_eq_ok_iff {x : Except ε α} {f : α → Except ε β} {b : β} :
    (x >>= f) = .ok b ↔ ∃ a, x = .ok a ∧ f a = .ok b := by
  cases x with
  | error fault => simp [bind, Except.bind]
  | ok a => simp [bind, Except.bind]

theorem mapM_eq_ok_iff {f : α → Except ε β} {xs : List α} {ys : List β} :
    xs.mapM f = .ok ys ↔ List.Forall₂ (fun x y => f x = .ok y) xs ys := by
  induction xs generalizing ys with
  | nil => simp [pure, Except.pure, eq_comm]
  | cons x xs ih =>
    simp only [List.mapM_cons, bind_eq_ok_iff, List.forall₂_cons_left_iff, ih]
    constructor
    · rintro ⟨y, hy, rest, hrest, hys⟩
      exact ⟨y, rest, hy, hrest, (Except.ok.inj hys).symm⟩
    · rintro ⟨y, rest, hy, hrest, rfl⟩
      exact ⟨y, hy, rest, hrest, rfl⟩

end Except

/-! ## Finished stages -/

/-- The results of every finished stage are mappings and sequences. -/
def Finished.HoldsDocuments (finished : Finished) : Prop :=
  ∀ entry ∈ finished, AllDocuments entry.2

theorem Finished.HoldsDocuments.nil : Finished.HoldsDocuments [] :=
  fun _ hentry => absurd hentry List.not_mem_nil

theorem Finished.HoldsDocuments.append {finished : Finished} {results : List Value}
    (h : finished.HoldsDocuments) (hresults : AllDocuments results) (name : String) :
    Finished.HoldsDocuments (finished ++ [(name, results)]) := by
  intro entry hentry
  rcases List.mem_append.1 hentry with hold | hnew
  · exact h entry hold
  · obtain rfl := List.mem_singleton.1 hnew
    exact hresults

/-! ## Sources -/

/-- The source stands for the documents, once the given stages have finished. -/
def Source.Denotes (load : Loader) (finished : Finished) : Source → List Value → Prop
  | inline documents, given => documents = given
  | file path, given => load path = .ok (.sequence given)
  | stage name, given => Fields.get? name finished = some given

/-- The names of stages to which a source refers. -/
def Source.references : Source → List String
  | stage name => [name]
  | _ => []

theorem Finished.lookUp_eq_ok_iff {finished : Finished} {stage : Stage} {field : StageField}
    {name : String} {results : List Value} :
    finished.lookUp stage field name = .ok results ↔ Fields.get? name finished = some results := by
  unfold Finished.lookUp
  cases Fields.get? name finished <;> simp

theorem Source.resolve_eq_ok_iff {source : Source} {load : Loader} {finished : Finished}
    {stage : Stage} {field : StageField} {documents : List Value} :
    source.resolve load finished stage field = .ok documents ↔
      source.Denotes load finished documents := by
  cases source with
  | inline given => simp [resolve, Denotes]
  | file path =>
    simp only [resolve, Denotes, bind_eq_ok_iff]
    constructor
    · rintro ⟨value, hload, hvalue⟩
      cases value with
      | sequence items => simpa [hload] using hvalue
      | _ => cases hvalue
    · exact fun hload => ⟨_, hload, rfl⟩
  | stage name => exact Finished.lookUp_eq_ok_iff

/-- A source reads nothing but the stages to which it refers. -/
theorem Source.Denotes.of_agree {source : Source} {load : Loader} {finished finished' : Finished}
    {documents : List Value} (h : source.Denotes load finished documents)
    (hagree : ∀ name ∈ source.references, ∀ results, Fields.get? name finished = some results →
      Fields.get? name finished' = some results) :
    source.Denotes load finished' documents := by
  cases source with
  | stage name => exact hagree name (by simp [references]) documents h
  | _ => exact h

/-! ## Stages -/

namespace Stage

/-- The names of stages to which a stage refers. -/
def references (stage : Stage) : List String :=
  stage.templates.references ++ stage.combos.references ++ stage.concat

/-- The results of a stage, once the given stages have finished: those for the templates and the
combos that its sources stand for, with the results of the stages that it appends. -/
inductive Yields (load : Loader) (dedup : DedupPolicy) (finished : Finished) (stage : Stage) :
    List Value → Prop
  /-- The templates must be documents; nothing is asked of combos and of what is appended. -/
  | intro {templates combos : List Value} {appended : List (List Value)} :
    stage.templates.Denotes load finished templates → AllDocuments templates →
    stage.combos.Denotes load finished combos →
    List.Forall₂ (fun name results => Fields.get? name finished = some results)
      stage.concat appended →
    Yields load dedup finished stage (stage.results dedup templates combos appended)

variable {load : Loader} {dedup : DedupPolicy} {finished : Finished} {stage : Stage}
  {results : List Value}

theorem run_eq_ok_iff :
    stage.run load dedup finished = .ok results ↔ stage.Yields load dedup finished results := by
  simp only [run, bind_eq_ok_iff, Source.resolve_eq_ok_iff]
  constructor
  · rintro ⟨templates, htemplates, hrun⟩
    split at hrun
    · rename_i hall
      obtain ⟨combos, hcombos, hrun⟩ := bind_eq_ok_iff.1 hrun
      obtain ⟨appended, happended, hresults⟩ := bind_eq_ok_iff.1 hrun
      obtain rfl := Except.ok.inj hresults
      refine .intro htemplates hall (Source.resolve_eq_ok_iff.1 hcombos) ?_
      exact (mapM_eq_ok_iff.1 happended).imp fun _ _ => Finished.lookUp_eq_ok_iff.1
    · cases hrun
  · rintro ⟨htemplates, hall, hcombos, happended⟩
    refine ⟨_, htemplates, ?_⟩
    rw [if_pos hall]
    refine bind_eq_ok_iff.2 ⟨_, Source.resolve_eq_ok_iff.2 hcombos, ?_⟩
    refine bind_eq_ok_iff.2 ⟨_, mapM_eq_ok_iff.2 ?_, rfl⟩
    exact happended.imp fun _ _ => Finished.lookUp_eq_ok_iff.2

theorem Yields.unique {results' : List Value} (h : stage.Yields load dedup finished results)
    (h' : stage.Yields load dedup finished results') : results = results' :=
  Except.ok.inj ((run_eq_ok_iff.2 h).symm.trans (run_eq_ok_iff.2 h'))

/-- **A stage reads nothing but what it refers to.** It yields the same behind all finished stages
in which the names that it refers to have the same results. -/
theorem Yields.of_agree {finished' : Finished} (h : stage.Yields load dedup finished results)
    (hagree : ∀ name ∈ stage.references, ∀ results, Fields.get? name finished = some results →
      Fields.get? name finished' = some results) :
    stage.Yields load dedup finished' results := by
  obtain ⟨htemplates, hall, hcombos, happended⟩ := h
  refine .intro (htemplates.of_agree fun name hname => hagree name ?_) hall
    (hcombos.of_agree fun name hname => hagree name ?_) ?_
  · exact List.mem_append_left _ (List.mem_append_left _ hname)
  · exact List.mem_append_left _ (List.mem_append_right _ hname)
  · have hmem := (List.forall₂_and_left _ _).2 ⟨fun name (h : name ∈ stage.concat) => h, happended⟩
    exact hmem.imp fun name results h => hagree name (List.mem_append_right _ h.1) results h.2

/-- What has finished can only grow. -/
theorem Yields.of_prefix {finished' : Finished} (h : stage.Yields load dedup finished results)
    (hgrown : finished <+: finished') : stage.Yields load dedup finished' results := by
  obtain ⟨more, rfl⟩ := hgrown
  refine h.of_agree fun name _ results hname => ?_
  rw [Fields.get?_append, hname]
  rfl

/-- A stage makes documents of documents. -/
theorem Yields.allDocuments (h : stage.Yields load dedup finished results)
    (hfinished : finished.HoldsDocuments) : AllDocuments results := by
  obtain @⟨templates, combos, appended, -, hall, -, happended⟩ := h
  have hgiven : ∀ documents ∈ appended, AllDocuments documents :=
    ((List.forall₂_and_left _ _).1 (happended.flip.imp fun documents name hname =>
      ⟨hfinished _ (Fields.mem_of_get? hname), hname⟩)).1
  have hflat : AllDocuments appended.flatten := by
    intro value hvalue
    obtain ⟨documents, hdocuments, hmem⟩ := List.mem_flatten.1 hvalue
    exact hgiven documents hdocuments value hmem
  have hmade := (Generator.holdsDocuments_empty.setTemplates templates).generate stage.paths combos
  have hrenamed := Generator.allDocuments_map_renameValue stage.rename.toList
    (hmade.results.append hflat)
  rw [Stage.results]
  split
  · exact hrenamed.sublist (Generator.dedupValues_sublist dedup _)
  · exact hrenamed

end Stage

/-! ## Runs -/

namespace Plan

variable {load : Loader} {dedup : DedupPolicy} {finished final : Finished} {stages : List Stage}

theorem runStages_cons_eq_ok_iff {stage : Stage} :
    runStages load dedup finished (stage :: stages) = .ok final ↔
      ∃ results, stage.Yields load dedup finished results ∧
        runStages load dedup (finished ++ [(stage.name, results)]) stages = .ok final := by
  simp only [runStages, bind_eq_ok_iff, Stage.run_eq_ok_iff]

/-- A run leaves the stages that had finished and adds its own, in order. -/
theorem runStages_eq_append (h : runStages load dedup finished stages = .ok final) :
    ∃ added : Finished, final = finished ++ added ∧
      Fields.keys added = stages.map Stage.name := by
  induction stages generalizing finished with
  | nil =>
    obtain rfl := Except.ok.inj h
    exact ⟨[], by simp, rfl⟩
  | cons stage rest ih =>
    obtain ⟨results, -, hrest⟩ := runStages_cons_eq_ok_iff.1 h
    obtain ⟨added, rfl, hkeys⟩ := ih hrest
    exact ⟨(stage.name, results) :: added, by simp, by simp [hkeys]⟩

/-- At the end of a run every stage yields what it yielded in its turn. -/
theorem exists_yields_of_mem (h : runStages load dedup finished stages = .ok final) {stage : Stage}
    (hstage : stage ∈ stages) :
    ∃ results, stage.Yields load dedup final results ∧ (stage.name, results) ∈ final := by
  induction stages generalizing finished with
  | nil => cases hstage
  | cons first rest ih =>
    obtain ⟨results, hyields, hrest⟩ := runStages_cons_eq_ok_iff.1 h
    rcases List.mem_cons.1 hstage with rfl | hlater
    · obtain ⟨added, rfl, -⟩ := runStages_eq_append hrest
      refine ⟨results, hyields.of_prefix ?_, by simp⟩
      exact (List.prefix_append finished _).trans (List.prefix_append _ added)
    · exact ih hrest hlater

end Plan

/-! ## Outcomes -/

namespace Finished

variable {finished : Finished} {name : String} {outcome : Outcome}

/-- An output that has finished is found. -/
theorem exists_outcome (h : name ∈ Fields.keys finished) :
    ∃ outcome, finished.outcome name = .ok outcome := by
  unfold Finished.outcome
  cases hplace : finished.findFinIdx? fun entry => entry.1 = name with
  | some place => exact ⟨_, rfl⟩
  | none =>
    obtain ⟨entry, hentry, rfl⟩ := List.mem_map.1 h
    simpa using List.findFinIdx?_eq_none_iff.1 hplace entry hentry

theorem eq_of_outcome (h : finished.outcome name = .ok outcome) :
    outcome.stages = finished ∧ outcome.outputStage = name := by
  unfold Finished.outcome at h
  split at h
  · rename_i place hplace
    obtain rfl := Except.ok.inj h
    exact ⟨rfl, by simpa [Outcome.outputStage] using (List.findFinIdx?_eq_some_iff.1 hplace).1⟩
  · cases h

end Finished

theorem Plan.run_eq_ok_iff {plan : Plan} {load : Loader} {outcome : Outcome} :
    plan.run load = .ok outcome ↔
      plan.validate = .ok () ∧
        runStages load plan.output.dedup [] plan.stages = .ok outcome.stages ∧
        outcome.stages.outcome (plan.outputStage?.getD "") = .ok outcome := by
  simp only [run, bind_eq_ok_iff]
  constructor
  · rintro ⟨_, hvalidate, finished, hfinished, houtcome⟩
    obtain ⟨rfl, -⟩ := Finished.eq_of_outcome houtcome
    exact ⟨hvalidate, hfinished, houtcome⟩
  · rintro ⟨hvalidate, hfinished, houtcome⟩
    exact ⟨(), hvalidate, _, hfinished, houtcome⟩

end Stencil
