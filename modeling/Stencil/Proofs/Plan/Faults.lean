import Mathlib.Data.List.TakeWhile
import Stencil.Proofs.Plan.Yields

/-!
# The faults of a plan

A run checks names first and looks at sources and references while the stages run, so that a fault
may show behind much work. All the faults can be told beforehand, though: which names a stage may
refer to is plain from the order of the stages, and what the stage behind such a name yields never
matters, since stages make nothing but documents.

* `Plan.Runnable`: what a plan must be like, without regard to any results.
* `Plan.faults`: all that is wrong with a plan, in the order in which it is looked for.
* `Plan.faults_eq_nil_iff`: nothing is wrong exactly with the plans that are as they must be.
* `Plan.reports_run`: a run ends with the first fault, if there is one.
* `Plan.run_first_fault`: when a plan runs, what it fails with, and what its outcome lists.
-/

namespace Stencil

open Value

/-- Nothing is left of a text exactly when all of it is blank. -/
theorem Text.trim_eq_nil_iff {text : List Char} : trim text = [] ↔ text.all isBlank = true := by
  rw [trim, List.reverse_eq_nil_iff, List.dropWhile_eq_nil_iff, List.all_eq_true]
  constructor
  · intro h c hc
    rw [← List.takeWhile_append_dropWhile (p := isBlank) (l := text), List.mem_append] at hc
    exact hc.elim List.mem_takeWhile_imp fun hrest => h c (List.mem_reverse.2 hrest)
  · exact fun h c hc => h c ((List.dropWhile_sublist isBlank).subset (List.mem_reverse.1 hc))

/-! ## What a plan must be like -/

/-- The source gives templates: documents that are known beforehand, or the results of an earlier
stage, whatever these are. -/
def Source.GivesTemplates (load : Loader) (earlier : List String) : Source → Prop
  | inline documents => AllDocuments documents
  | file path => ∃ documents, load path = .ok (.sequence documents) ∧ AllDocuments documents
  | stage name => name ∈ earlier

/-- The source gives combos: any list that is known beforehand, or the results of an earlier
stage. -/
def Source.GivesCombos (load : Loader) (earlier : List String) : Source → Prop
  | inline _ => True
  | file path => ∃ documents, load path = .ok (.sequence documents)
  | stage name => name ∈ earlier

/-- A stage behind stages with the given names has its sources and all that it appends. -/
structure Stage.Runnable (load : Loader) (earlier : List String) (stage : Stage) : Prop where
  templates : stage.templates.GivesTemplates load earlier
  combos : stage.combos.GivesCombos load earlier
  concat : ∀ name ∈ stage.concat, name ∈ earlier

/-- The names of the stages, in order. -/
def Plan.names (plan : Plan) : List String :=
  plan.stages.map Stage.name

/-- The names in a plan are as they must be. -/
structure Plan.WellNamed (plan : Plan) : Prop where
  nonempty : plan.names ≠ []
  visible : ∀ name ∈ plan.names, ¬name.toList.all Text.isBlank
  distinct : plan.names.Nodup
  output : ∀ name, plan.output.stage = some name → name ∈ plan.names

/-- A plan is as it must be: its names are, and every stage has what it needs in the files and
among the stages before it. -/
structure Plan.Runnable (plan : Plan) (load : Loader) : Prop extends plan.WellNamed where
  stages : ∀ before stage after, plan.stages = before ++ stage :: after →
    stage.Runnable load (before.map Stage.name)

/-! ## All that is wrong -/

/-- The fault alone, if the condition says that something is wrong. -/
def Fault.when (fault : Fault) (wrong : Prop) [Decidable wrong] : List Fault :=
  if wrong then [fault] else []

@[simp] theorem Fault.when_eq_nil_iff {fault : Fault} {wrong : Prop} [Decidable wrong] :
    fault.when wrong = [] ↔ ¬wrong := by
  simp [Fault.when]

/-- What is wrong with a source as a list, in a field of a stage behind stages with the given
names. -/
def Source.faults (load : Loader) (earlier : List String) (stage : Stage) (field : StageField) :
    Source → List Fault
  | inline _ => []
  | file path =>
    match load path with
    | .ok (.sequence _) => []
    | .ok _ => [.notAnArray stage.name field path]
    | .error fault => [fault]
  | Source.stage name => (Fault.unknownStage name (.field stage.name field)).when (name ∉ earlier)

/-- The documents of a source that are known before any stage has run. -/
def Source.known? (load : Loader) : Source → Option (List Value)
  | inline documents => some documents
  | file path =>
    match load path with
    | .ok (.sequence documents) => some documents
    | _ => none
  | stage _ => none

namespace Stage

/-- What is wrong with the name of a stage behind stages with the given names. -/
def nameFaults (earlier : List String) (stage : Stage) : List Fault :=
  Fault.blankName.when (stage.name.toList.all Text.isBlank) ++
    (Fault.duplicateStage stage.name).when (stage.name ∈ earlier)

/-- What is wrong with the sources and the references of a stage behind stages with the given
names. -/
def faults (load : Loader) (earlier : List String) (stage : Stage) : List Fault :=
  stage.templates.faults load earlier stage .templates ++
    ((Fault.leafTemplate stage.name).when
        ((stage.templates.known? load).any fun documents => ¬AllDocuments documents) ++
      (stage.combos.faults load earlier stage .combos ++
        stage.concat.flatMap fun name =>
          (Fault.unknownStage name (.field stage.name .concat)).when (name ∉ earlier)))

end Stage

namespace Plan

/-- What is wrong with stages one after another, each judged by the names before it. -/
def faultsInTurn (faults : List String → Stage → List Fault) (earlier : List String) :
    List Stage → List Fault
  | [] => []
  | stage :: rest => faults earlier stage ++ faultsInTurn faults (earlier ++ [stage.name]) rest

/-- What is wrong with the stage that is named as output. -/
def outputFaults (plan : Plan) : List Fault :=
  match plan.output.stage with
  | some name => (Fault.unknownStage name .output).when (name ∉ plan.names)
  | none => []

/-- What is wrong with the names in a plan. -/
def nameFaults (plan : Plan) : List Fault :=
  Fault.noStages.when (plan.stages = []) ++
    (faultsInTurn Stage.nameFaults [] plan.stages ++ plan.outputFaults)

/-- All that is wrong with a plan, in the order in which it is looked for. -/
def faults (plan : Plan) (load : Loader) : List Fault :=
  plan.nameFaults ++ faultsInTurn (Stage.faults load) [] plan.stages

end Plan

/-! ## Nothing is wrong with a plan that is as it must be -/

section Source

variable {load : Loader} {earlier : List String} {source : Source}

theorem Source.faults_eq_nil_iff {stage : Stage} {field : StageField} :
    source.faults load earlier stage field = [] ↔ source.GivesCombos load earlier := by
  cases source with
  | inline documents => simp [faults, GivesCombos]
  | file path =>
    simp only [faults, GivesCombos]
    split <;> simp_all
  | stage name => simp [faults, GivesCombos]

/-- Templates are a list in which no leaf is known beforehand. -/
theorem Source.givesTemplates_iff :
    source.GivesTemplates load earlier ↔ source.GivesCombos load earlier ∧
      ¬(source.known? load).any (fun documents => ¬AllDocuments documents) = true := by
  cases source with
  | inline documents => simp [GivesTemplates, GivesCombos, known?]
  | file path =>
    simp only [GivesTemplates, GivesCombos, known?]
    split <;> simp_all
  | stage name => simp [GivesTemplates, GivesCombos, known?]

end Source

theorem Stage.faults_eq_nil_iff {load : Loader} {earlier : List String} {stage : Stage} :
    stage.faults load earlier = [] ↔ stage.Runnable load earlier := by
  simp only [Stage.faults, List.append_eq_nil_iff, Fault.when_eq_nil_iff,
    Source.faults_eq_nil_iff, List.flatMap_eq_nil_iff, not_not]
  constructor
  · rintro ⟨hsource, hknown, hcombos, hconcat⟩
    exact ⟨Source.givesTemplates_iff.2 ⟨hsource, hknown⟩, hcombos, hconcat⟩
  · rintro ⟨htemplates, hcombos, hconcat⟩
    obtain ⟨hsource, hknown⟩ := Source.givesTemplates_iff.1 htemplates
    exact ⟨hsource, hknown, hcombos, hconcat⟩

namespace Plan

theorem faultsInTurn_eq_nil_iff {faults : List String → Stage → List Fault}
    {earlier : List String} {stages : List Stage} :
    faultsInTurn faults earlier stages = [] ↔
      ∀ before stage after, stages = before ++ stage :: after →
        faults (earlier ++ before.map Stage.name) stage = [] := by
  induction stages generalizing earlier with
  | nil => simp [faultsInTurn]
  | cons first rest ih =>
    rw [faultsInTurn, List.append_eq_nil_iff, ih]
    constructor
    · rintro ⟨hfirst, hrest⟩ before stage after heq
      cases before with
      | nil =>
        obtain ⟨rfl, -⟩ := List.cons.inj heq
        simpa using hfirst
      | cons other before =>
        obtain ⟨rfl, htail⟩ := List.cons.inj heq
        simpa using hrest before stage after htail
    · intro h
      refine ⟨by simpa using h [] first rest rfl, fun before stage after heq => ?_⟩
      simpa using h (first :: before) stage after (by rw [heq]; rfl)

theorem faultsInTurn_nameFaults_eq_nil_iff {earlier : List String} {stages : List Stage} :
    faultsInTurn Stage.nameFaults earlier stages = [] ↔
      (∀ name ∈ stages.map Stage.name, ¬name.toList.all Text.isBlank) ∧
        (stages.map Stage.name).Nodup ∧ ∀ name ∈ stages.map Stage.name, name ∉ earlier := by
  induction stages generalizing earlier with
  | nil => simp [faultsInTurn]
  | cons stage rest ih =>
    simp only [faultsInTurn, Stage.nameFaults, List.append_eq_nil_iff, Fault.when_eq_nil_iff, ih,
      List.map_cons, List.forall_mem_cons, List.nodup_cons, List.mem_append, List.mem_singleton,
      not_or]
    constructor
    · rintro ⟨⟨hvisible, hnew⟩, hrest, hdistinct, hlater⟩
      exact ⟨⟨hvisible, hrest⟩, ⟨fun h => (hlater _ h).2 rfl, hdistinct⟩, hnew,
        fun name h => (hlater name h).1⟩
    · rintro ⟨⟨hvisible, hrest⟩, ⟨hother, hdistinct⟩, hnew, hlater⟩
      exact ⟨⟨hvisible, hnew⟩, hrest, hdistinct,
        fun name h => ⟨hlater name h, fun heq => hother (heq ▸ h)⟩⟩

theorem outputFaults_eq_nil_iff {plan : Plan} :
    plan.outputFaults = [] ↔ ∀ name, plan.output.stage = some name → name ∈ plan.names := by
  unfold outputFaults
  cases plan.output.stage <;> simp

theorem nameFaults_eq_nil_iff {plan : Plan} : plan.nameFaults = [] ↔ plan.WellNamed := by
  simp only [nameFaults, List.append_eq_nil_iff, Fault.when_eq_nil_iff,
    faultsInTurn_nameFaults_eq_nil_iff, outputFaults_eq_nil_iff]
  constructor
  · rintro ⟨hne, ⟨hvisible, hdistinct, -⟩, houtput⟩
    exact ⟨by simpa [names] using hne, hvisible, hdistinct, houtput⟩
  · rintro ⟨hne, hvisible, hdistinct, houtput⟩
    exact ⟨by simpa [names] using hne, ⟨hvisible, hdistinct, by simp⟩, houtput⟩

/-- **Nothing is wrong exactly with the plans that are as they must be.** -/
theorem faults_eq_nil_iff {plan : Plan} {load : Loader} :
    plan.faults load = [] ↔ plan.Runnable load := by
  simp only [faults, List.append_eq_nil_iff, nameFaults_eq_nil_iff, faultsInTurn_eq_nil_iff,
    Stage.faults_eq_nil_iff, List.nil_append]
  exact ⟨fun ⟨hnames, hstages⟩ => ⟨hnames, hstages⟩, fun h => ⟨h.toWellNamed, h.stages⟩⟩

end Plan

/-! ## A run stops at the first fault -/

/-- The result of a step that looks for the faults in order and stops at the first. -/
inductive Reports {α : Type} : Except Fault α → List Fault → Prop
  | ok (a : α) : Reports (.ok a) []
  | error (fault : Fault) (rest : List Fault) : Reports (.error fault) (fault :: rest)

namespace Reports

variable {α β : Type} {x : Except Fault α} {faults : List Fault}

theorem exists_ok_iff (h : Reports x faults) : (∃ a, x = .ok a) ↔ faults = [] := by
  cases h <;> simp

theorem eq_error_iff (h : Reports x faults) {fault : Fault} :
    x = .error fault ↔ faults.head? = some fault := by
  cases h <;> simp

/-- The faults of a step come before those of the steps behind it. -/
theorem bind {f : α → Except Fault β} {more : List Fault} (h : Reports x faults)
    (hf : ∀ a, x = .ok a → Reports (f a) more) : Reports (x >>= f) (faults ++ more) := by
  cases h with
  | ok a => exact hf a rfl
  | error fault rest => exact .error fault (rest ++ more)

/-- What is made of the result of a step finds no further fault. -/
theorem map (h : Reports x faults) (f : α → β) :
    Reports (do let a ← x; return f a) faults := by
  cases h with
  | ok a => exact .ok (f a)
  | error fault rest => exact .error fault rest

/-- A step behind a check. -/
theorem guard (h : Reports x faults) (fault : Fault) (wrong : Prop) [Decidable wrong] :
    Reports (if wrong then .error fault else x) (fault.when wrong ++ faults) := by
  rw [Fault.when]
  split
  · exact .error fault faults
  · exact h

theorem mapM {f : α → Except Fault β} {faults : α → List Fault} (h : ∀ a, Reports (f a) (faults a))
    (xs : List α) : Reports (xs.mapM f) (xs.flatMap faults) := by
  induction xs with
  | nil => exact .ok []
  | cons a xs ih =>
    rw [List.mapM_cons, List.flatMap_cons]
    exact (h a).bind fun b _ => ih.map (b :: ·)

end Reports

theorem Finished.reports_lookUp (finished : Finished) (stage : Stage) (field : StageField)
    (name : String) : Reports (finished.lookUp stage field name)
      ((Fault.unknownStage name (.field stage.name field)).when (name ∉ Fields.keys finished)) := by
  unfold Finished.lookUp
  cases h : Fields.get? name finished with
  | some results =>
    have hname : name ∈ Fields.keys finished := Fields.get?_isSome_iff.1 (by rw [h]; rfl)
    simpa [Fault.when, hname] using Reports.ok results
  | none =>
    simpa [Fault.when, Fields.get?_eq_none_iff.1 h] using Reports.error _ []

theorem Source.reports_resolve (source : Source) (load : Loader) (finished : Finished)
    (stage : Stage) (field : StageField) : Reports (source.resolve load finished stage field)
      (source.faults load (Fields.keys finished) stage field) := by
  cases source with
  | inline documents => exact .ok documents
  | file path =>
    simp only [Source.resolve, Source.faults]
    cases load path with
    | error fault => exact .error fault []
    | ok value =>
      cases value with
      | sequence documents => exact .ok documents
      | _ => exact .error _ []
  | stage name => exact finished.reports_lookUp stage field name

/-- The documents for which templates are judged beforehand are those that the source gives; what
is not known beforehand are results of stages, and these are documents. -/
theorem Source.Denotes.any_known?_iff {source : Source} {load : Loader} {finished : Finished}
    {documents : List Value} (h : source.Denotes load finished documents)
    (hfinished : finished.HoldsDocuments) :
    (source.known? load).any (fun known => ¬AllDocuments known) = true ↔
      ¬AllDocuments documents := by
  cases source with
  | inline given =>
    obtain rfl : given = documents := h
    simp [known?]
  | file path =>
    have hload : load path = .ok (.sequence documents) := h
    simp [known?, hload]
  | stage name =>
    have hdocuments : AllDocuments documents := hfinished _ (Fields.mem_of_get? h)
    simp [known?, hdocuments]

/-- A stage behind finished stages stops at its first fault. -/
theorem Stage.reports_run (stage : Stage) (load : Loader) (dedup : DedupPolicy)
    {finished : Finished} (hfinished : finished.HoldsDocuments) :
    Reports (stage.run load dedup finished) (stage.faults load (Fields.keys finished)) := by
  refine (stage.templates.reports_resolve load finished stage .templates).bind
    fun templates htemplates => ?_
  have hknown := (Source.resolve_eq_ok_iff.1 htemplates).any_known?_iff hfinished
  have hrest : Reports
      (do
        let combos ← stage.combos.resolve load finished stage .combos
        let appended ← stage.concat.mapM (finished.lookUp stage .concat)
        return stage.results dedup templates combos appended)
      (stage.combos.faults load (Fields.keys finished) stage .combos ++
        stage.concat.flatMap fun name => (Fault.unknownStage name (.field stage.name .concat)).when
          (name ∉ Fields.keys finished)) := by
    refine (stage.combos.reports_resolve load finished stage .combos).bind fun combos _ => ?_
    have happended := Reports.mapM (finished.reports_lookUp stage .concat) stage.concat
    exact happended.map (stage.results dedup templates combos)
  simpa only [hknown, ite_not] using hrest.guard (.leafTemplate stage.name)
    ((stage.templates.known? load).any fun documents => ¬AllDocuments documents)

namespace Plan

/-- Names that have been seen are judged alike in every order. -/
theorem reports_checkNames {seen earlier : List String}
    (hseen : ∀ name, name ∈ seen ↔ name ∈ earlier) (stages : List Stage) :
    Reports (checkNames seen stages) (faultsInTurn Stage.nameFaults earlier stages) := by
  induction stages generalizing seen earlier with
  | nil => exact .ok ()
  | cons stage rest ih =>
    have hrest := @ih (stage.name :: seen) (earlier ++ [stage.name])
      fun name => by simp [hseen, or_comm]
    simp only [checkNames, faultsInTurn, Stage.nameFaults, List.append_assoc,
      Text.trim_eq_nil_iff, hseen]
    exact (hrest.guard _ _).guard _ _

theorem reports_checkOutput (plan : Plan) : Reports plan.checkOutput plan.outputFaults := by
  unfold checkOutput outputFaults
  cases plan.output.stage with
  | none => exact .ok ()
  | some name =>
    have h := (Reports.ok ()).guard (.unknownStage name .output) (name ∉ plan.names)
    rw [ite_not, List.append_nil] at h
    exact h

theorem reports_validate (plan : Plan) : Reports plan.validate plan.nameFaults :=
  ((reports_checkNames (fun _ => Iff.rfl) plan.stages).bind fun _ _ =>
    plan.reports_checkOutput).guard .noStages (plan.stages = [])

theorem validate_eq_ok_iff {plan : Plan} : plan.validate = .ok () ↔ plan.WellNamed := by
  rw [← nameFaults_eq_nil_iff, ← plan.reports_validate.exists_ok_iff]
  exact ⟨fun h => ⟨(), h⟩, fun ⟨_, h⟩ => h⟩

theorem reports_runStages (load : Loader) (dedup : DedupPolicy) {finished : Finished}
    (hfinished : finished.HoldsDocuments) (stages : List Stage) :
    Reports (runStages load dedup finished stages)
      (faultsInTurn (Stage.faults load) (Fields.keys finished) stages) := by
  induction stages generalizing finished with
  | nil => exact .ok finished
  | cons stage rest ih =>
    refine (stage.reports_run load dedup hfinished).bind fun results hresults => ?_
    have hall := (Stage.run_eq_ok_iff.1 hresults).allDocuments hfinished
    simpa [Fields.keys] using ih (hfinished.append hall stage.name)

theorem outputStage?_eq (plan : Plan) :
    plan.outputStage? = (plan.output.stage <|> plan.names.getLast?) := by
  rw [outputStage?, names, List.getLast?_map]

theorem exists_outputStage? {plan : Plan} (h : plan.WellNamed) :
    ∃ name ∈ plan.names, plan.outputStage? = some name := by
  rw [outputStage?_eq]
  cases hstage : plan.output.stage with
  | some name => exact ⟨name, h.output name hstage, rfl⟩
  | none =>
    exact ⟨plan.names.getLast h.nonempty, List.getLast_mem _,
      List.getLast?_eq_some_getLast h.nonempty⟩

/-- An output that has been checked is among the finished stages. -/
theorem exists_outcome {plan : Plan} {load : Loader} {dedup : DedupPolicy} {finished : Finished}
    (h : plan.WellNamed) (hfinished : runStages load dedup [] plan.stages = .ok finished) :
    ∃ outcome, finished.outcome (plan.outputStage?.getD "") = .ok outcome := by
  obtain ⟨name, hname, houtput⟩ := exists_outputStage? h
  obtain ⟨added, rfl, hkeys⟩ := runStages_eq_append hfinished
  rw [houtput]
  exact Finished.exists_outcome (hkeys.symm ▸ hname)

/-- **A run stops at the first fault.** -/
theorem reports_run (plan : Plan) (load : Loader) : Reports (plan.run load) (plan.faults load) := by
  refine plan.reports_validate.bind fun _ hvalidate => ?_
  have hstages := reports_runStages load plan.output.dedup Finished.HoldsDocuments.nil plan.stages
  rw [← List.append_nil (faultsInTurn _ _ _)]
  refine hstages.bind fun finished hfinished => ?_
  obtain ⟨outcome, houtcome⟩ := exists_outcome (validate_eq_ok_iff.1 hvalidate) hfinished
  rw [houtcome]
  exact .ok outcome

theorem run_isOk_iff {plan : Plan} {load : Loader} :
    (∃ outcome, plan.run load = .ok outcome) ↔ plan.Runnable load :=
  (plan.reports_run load).exists_ok_iff.trans faults_eq_nil_iff

section Outcome

variable {plan : Plan} {load : Loader} {outcome : Outcome}

theorem keys_of_run (h : plan.run load = .ok outcome) :
    Fields.keys outcome.stages = plan.names := by
  obtain ⟨added, hadded, hkeys⟩ := runStages_eq_append (run_eq_ok_iff.1 h).2.1
  rw [hadded]
  exact hkeys

theorem wellNamed_of_run (h : plan.run load = .ok outcome) : plan.WellNamed :=
  validate_eq_ok_iff.1 (run_eq_ok_iff.1 h).1

/-- The outcome lists the results of each name once. -/
theorem results?_of_mem (h : plan.run load = .ok outcome) {name : String} {results : List Value}
    (hmem : (name, results) ∈ outcome.stages) : outcome.results? name = some results :=
  Fields.get?_of_mem (keys_of_run h ▸ (wellNamed_of_run h).distinct) hmem

theorem outputStage?_of_run (h : plan.run load = .ok outcome) :
    plan.outputStage? = some outcome.outputStage := by
  obtain ⟨name, -, houtput⟩ := exists_outputStage? (wellNamed_of_run h)
  obtain ⟨-, hname⟩ := Finished.eq_of_outcome (run_eq_ok_iff.1 h).2.2
  rw [hname, houtput]
  rfl

end Outcome

/-- **What a run checks, and in what order.** A plan runs exactly when it is as it must be, for
which no results matter. Otherwise the run fails with the first fault. When it runs, the outcome
lists the stages in the order of the plan, and the output is the stage that is named or else the
last; once the checked stages have run, there is no further way to fail. -/
theorem run_first_fault (plan : Plan) (load : Loader) :
    ((∃ outcome, plan.run load = .ok outcome) ↔ plan.Runnable load) ∧
    (∀ fault, plan.run load = .error fault ↔ (plan.faults load).head? = some fault) ∧
    (∀ outcome, plan.run load = .ok outcome →
      Fields.keys outcome.stages = plan.names ∧
      plan.outputStage? = some outcome.outputStage ∧
      outcome.results? outcome.outputStage = some outcome.output) ∧
    (∀ finished, plan.validate = .ok () →
      runStages load plan.output.dedup [] plan.stages = .ok finished →
      ∃ outcome, plan.run load = .ok outcome ∧ outcome.stages = finished) := by
  refine ⟨run_isOk_iff, fun fault => (plan.reports_run load).eq_error_iff, fun outcome h => ?_,
    fun finished hvalidate hfinished => ?_⟩
  · exact ⟨keys_of_run h, outputStage?_of_run h, results?_of_mem h (List.get_mem _ _)⟩
  · obtain ⟨outcome, houtcome⟩ := exists_outcome (validate_eq_ok_iff.1 hvalidate) hfinished
    obtain ⟨rfl, -⟩ := Finished.eq_of_outcome houtcome
    exact ⟨outcome, run_eq_ok_iff.2 ⟨hvalidate, hfinished, houtcome⟩, rfl⟩

/-- The faults of names come first, then those of the sources and references of each stage. -/
example :
    faults ⟨{ stage := some "last" },
      [⟨"first", [], .inline [.null], .stage "second", ["first"], .empty, false⟩,
        ⟨" ", [], .inline [], .inline [], [], .empty, false⟩]⟩ .withoutFiles =
      [.blankName, .unknownStage "last" .output, .leafTemplate "first",
        .unknownStage "second" (.field "first" .combos),
        .unknownStage "first" (.field "first" .concat)] := by
  decide

end Plan

end Stencil
