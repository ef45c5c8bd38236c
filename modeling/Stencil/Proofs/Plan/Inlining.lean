import Stencil.Proofs.Plan.Faults

/-!
# A reference means the results

A source that names a stage stands for the results of that stage. The same documents can be written
into the plan in its place, or put into a file, and nothing changes in any stage, not even in those
that refer to the changed one.

* `Plan.run_of_forall₂`: stages may be replaced by others that yield the same.
* `Plan.run_of_load`: only the files that a plan names matter.
* `Plan.run_of_denotes`: a source may be replaced by one that stands for the same documents.
* `Plan.run_inline_reference`: a reference may be replaced by the results to which it refers.
-/

namespace Stencil

namespace Stage

/-- The source in a field, if the field holds one. -/
def source? (stage : Stage) : StageField → Option Source
  | .templates => some stage.templates
  | .combos => some stage.combos
  | .concat => none

/-- The stage with another source in a field that holds one. -/
def withSource (stage : Stage) (field : StageField) (source : Source) : Stage :=
  match field with
  | .templates => { stage with templates := source }
  | .combos => { stage with combos := source }
  | .concat => stage

@[simp] theorem withSource_name (stage : Stage) (field : StageField) (source : Source) :
    (stage.withSource field source).name = stage.name := by
  cases field <;> rfl

/-- A file is named by a source of the stage. -/
def Reads (stage : Stage) (file : String) : Prop :=
  ∃ field, stage.source? field = some (.file file)

end Stage

section Denotes

variable {load load' : Loader} {finished : Finished} {documents : List Value} {source : Source}

theorem Source.Denotes.of_load (h : source.Denotes load finished documents)
    (hload : ∀ file, source = .file file → load' file = load file) :
    source.Denotes load' finished documents := by
  cases source with
  | file path => exact (hload path rfl).trans h
  | _ => exact h

end Denotes

namespace Stage.Yields

variable {load load' : Loader} {dedup : DedupPolicy} {finished : Finished} {stage : Stage}
  {results : List Value}

/-- A stage reads no files but those that its sources name. -/
theorem of_load (h : stage.Yields load dedup finished results)
    (hload : ∀ file, stage.Reads file → load' file = load file) :
    stage.Yields load' dedup finished results := by
  obtain ⟨htemplates, hall, hcombos, happended⟩ := h
  refine .intro (htemplates.of_load fun file hfile => hload file ⟨.templates, ?_⟩) hall
    (hcombos.of_load fun file hfile => hload file ⟨.combos, ?_⟩) happended
  · rw [source?, hfile]
  · rw [source?, hfile]

/-- A source that stands for something may be replaced by one that stands for the same. -/
theorem withSource {field : StageField} {source source' : Source}
    (h : stage.Yields load dedup finished results) (hsource : stage.source? field = some source)
    (hsame : ∀ documents, source.Denotes load finished documents →
      source'.Denotes load finished documents) :
    (stage.withSource field source').Yields load dedup finished results := by
  obtain ⟨htemplates, hall, hcombos, happended⟩ := h
  cases field with
  | templates =>
    obtain rfl := Option.some.inj hsource
    exact .intro (hsame _ htemplates) hall hcombos happended
  | combos =>
    obtain rfl := Option.some.inj hsource
    exact .intro htemplates hall (hsame _ hcombos) happended
  | concat => cases hsource

theorem exists_denotes {field : StageField} {source : Source}
    (h : stage.Yields load dedup finished results) (hsource : stage.source? field = some source) :
    ∃ documents, source.Denotes load finished documents := by
  obtain ⟨htemplates, -, hcombos, -⟩ := h
  cases field with
  | templates =>
    obtain rfl := Option.some.inj hsource
    exact ⟨_, htemplates⟩
  | combos =>
    obtain rfl := Option.some.inj hsource
    exact ⟨_, hcombos⟩
  | concat => cases hsource

end Stage.Yields

/-- A stage of the same name that yields the same behind all stages that finish on the way to the
final ones, possibly with other files. -/
structure Stage.ReplacedBy (load load' : Loader) (dedup : DedupPolicy) (final : Finished)
    (stage stage' : Stage) : Prop where
  name : stage'.name = stage.name
  yields : ∀ given results, given <+: final → stage.Yields load dedup given results →
    stage'.Yields load' dedup given results

namespace Stage.ReplacedBy

variable {load load' : Loader} {dedup : DedupPolicy} {final : Finished}

theorem refl (stage : Stage) : stage.ReplacedBy load load dedup final stage :=
  ⟨rfl, fun _ _ _ hyields => hyields⟩

theorem names_eq {stages stages' : List Stage}
    (h : List.Forall₂ (Stage.ReplacedBy load load' dedup final) stages stages') :
    stages'.map Stage.name = stages.map Stage.name := by
  induction h with
  | nil => rfl
  | cons hhead _ ih => rw [List.map_cons, List.map_cons, hhead.name, ih]

end Stage.ReplacedBy

namespace Plan

/-- Stages may be replaced, one by one, and leave the same. -/
theorem runStages_of_forall₂ {load load' : Loader} {dedup : DedupPolicy}
    {finished final : Finished} {stages stages' : List Stage}
    (h : runStages load dedup finished stages = .ok final)
    (hstages : List.Forall₂ (Stage.ReplacedBy load load' dedup final) stages stages') :
    runStages load' dedup finished stages' = .ok final := by
  induction hstages generalizing finished with
  | nil => exact h
  | @cons stage stage' rest rest' hhead _ ih =>
    obtain ⟨added, hadded, -⟩ := runStages_eq_append h
    obtain ⟨results, hyields, hrest⟩ := runStages_cons_eq_ok_iff.1 h
    have hgrown : finished <+: final := hadded ▸ List.prefix_append finished added
    have hyields' := hhead.yields finished results hgrown hyields
    exact runStages_cons_eq_ok_iff.2 ⟨results, hyields', hhead.name ▸ ih hrest⟩

/-- So may the stages of a plan, since the checks read their names only. -/
theorem run_of_forall₂ {plan plan' : Plan} {load load' : Loader} {outcome : Outcome}
    (h : plan.run load = .ok outcome) (houtput : plan'.output = plan.output)
    (hstages : List.Forall₂ (Stage.ReplacedBy load load' plan.output.dedup outcome.stages)
      plan.stages plan'.stages) :
    plan'.run load' = .ok outcome := by
  have hnames : plan'.names = plan.names := Stage.ReplacedBy.names_eq hstages
  obtain ⟨hvalidate, hfinished, houtcome⟩ := run_eq_ok_iff.1 h
  have hwell := validate_eq_ok_iff.1 hvalidate
  refine run_eq_ok_iff.2 ⟨validate_eq_ok_iff.2 ?_, ?_, ?_⟩
  · exact ⟨hnames ▸ hwell.nonempty, hnames ▸ hwell.visible, hnames ▸ hwell.distinct,
      hnames ▸ houtput ▸ hwell.output⟩
  · exact houtput ▸ runStages_of_forall₂ hfinished hstages
  · rw [outputStage?_eq, houtput, hnames, ← outputStage?_eq]
    exact houtcome

/-- Only the files that a plan names matter. -/
theorem run_of_load {plan : Plan} {load load' : Loader} {outcome : Outcome}
    (h : plan.run load = .ok outcome)
    (hload : ∀ stage ∈ plan.stages, ∀ file, stage.Reads file → load' file = load file) :
    plan.run load' = .ok outcome := by
  refine run_of_forall₂ h rfl (List.forall₂_same.2 fun stage hstage => ⟨rfl, ?_⟩)
  exact fun given results _ hyields => hyields.of_load (hload stage hstage)

/-- A source may be replaced by one that stands for the same documents at every point of the run. -/
theorem run_of_denotes {plan : Plan} {load : Loader} {outcome : Outcome}
    (h : plan.run load = .ok outcome) {before after : List Stage} {stage : Stage}
    (hsplit : plan.stages = before ++ stage :: after) {field : StageField} {source source' : Source}
    (hsource : stage.source? field = some source)
    (hsame : ∀ given documents, given <+: outcome.stages → source.Denotes load given documents →
      source'.Denotes load given documents) :
    Plan.run { plan with stages := before ++ stage.withSource field source' :: after } load =
      .ok outcome := by
  refine run_of_forall₂ h rfl ?_
  rw [hsplit]
  have hstage : stage.ReplacedBy load load plan.output.dedup outcome.stages
      (stage.withSource field source') := by
    refine ⟨stage.withSource_name field source', fun given results hgiven hyields => ?_⟩
    exact hyields.withSource hsource fun documents => hsame given documents hgiven
  have hothers : ∀ stages : List Stage, List.Forall₂
      (Stage.ReplacedBy load load plan.output.dedup outcome.stages) stages stages := fun stages =>
    List.forall₂_same.2 fun stage _ => .refl stage
  exact List.rel_append (hothers before) (.cons hstage (hothers after))

/-- **A reference means the results to which it refers.** Let a plan run, and let a source in it
name a stage. The outcome lists results of that stage, and the plan has the same outcome when these
results are written in the place of the reference; and also when a file is named there that holds
them, whichever it is, as long as the files that the plan names already are as they were. -/
theorem run_inline_reference {plan : Plan} {load : Loader} {outcome : Outcome}
    (h : plan.run load = .ok outcome) {before after : List Stage} {stage : Stage}
    (hsplit : plan.stages = before ++ stage :: after) {field : StageField} {name : String}
    (hsource : stage.source? field = some (.stage name)) :
    ∃ results, outcome.results? name = some results ∧
      Plan.run { plan with stages := before ++ stage.withSource field (.inline results) :: after }
        load = .ok outcome ∧
      ∀ path load', load' path = .ok (.sequence results) →
        (∀ stage ∈ plan.stages, ∀ file, stage.Reads file → load' file = load file) →
        Plan.run { plan with stages := before ++ stage.withSource field (.file path) :: after }
          load' = .ok outcome := by
  have hmem : stage ∈ plan.stages := by simp [hsplit]
  obtain ⟨_, hyields, -⟩ := exists_yields_of_mem (run_eq_ok_iff.1 h).2.1 hmem
  obtain ⟨results, hresults⟩ := hyields.exists_denotes hsource
  -- what the reference stands for when it is read is what it stands for at the end
  have hfinal : ∀ load given documents, given <+: outcome.stages →
      (Source.stage name).Denotes load given documents → documents = results := by
    rintro load given documents ⟨added, hadded⟩ (hgiven : Fields.get? name given = some documents)
    have hlast : Fields.get? name outcome.stages = some documents := by
      rw [← hadded, Fields.get?_append, hgiven]
      rfl
    exact Option.some.inj (hlast.symm.trans hresults)
  refine ⟨results, hresults, ?_, fun path load' hpath hload => ?_⟩
  · exact run_of_denotes h hsplit hsource fun given documents hgiven hdenotes =>
      (hfinal load given documents hgiven hdenotes).symm
  · have hrun := run_of_load h hload
    refine run_of_denotes hrun hsplit hsource fun given documents hgiven hdenotes => ?_
    obtain rfl := hfinal load' given documents hgiven hdenotes
    exact hpath

/-- Two values for a letter. -/
def receivers : List Value :=
  [.mapping [("to", .string "Ann")], .mapping [("to", .string "Bo")]]

/-- A letter with a place to fill. -/
def form : Value :=
  .mapping [("to", .null), ("copy", .bool false)]

/-- A stage that lists the values. -/
def listed : Stage :=
  ⟨"listed", [], .inline receivers, .inline [.null], [], .empty, false⟩

/-- A stage that fills them in. -/
def filled : Stage :=
  ⟨"filled", ["to"], .inline [form], .stage "listed", [], .empty, false⟩

/-- The values, in a file. -/
def receiversInFile : Loader :=
  fun file =>
    if file = "receivers.json" then .ok (.sequence receivers)
    else .error (.unloadable file .absent)

theorem run_inline_reference_filled :
    ∃ outcome : Outcome,
      Plan.run ⟨{}, [listed, filled]⟩ .withoutFiles = .ok outcome ∧
      outcome.results? "filled" =
        some [.mapping [("to", .string "Ann"), ("copy", .bool false)],
          .mapping [("to", .string "Bo"), ("copy", .bool false)]] ∧
      Plan.run ⟨{}, [listed, filled.withSource .combos (.inline receivers)]⟩ .withoutFiles =
        .ok outcome ∧
      Plan.run ⟨{}, [listed, filled.withSource .combos (.file "receivers.json")]⟩ receiversInFile =
        .ok outcome := by
  obtain ⟨outcome, hrun, hreceivers, hresults⟩ : ∃ outcome,
      Plan.run ⟨{}, [listed, filled]⟩ .withoutFiles = .ok outcome ∧
      outcome.results? "listed" = some receivers ∧
      outcome.results? "filled" = some (filled.results .structural [form] receivers []) :=
    ⟨_, rfl, rfl, rfl⟩
  have hselectors : filled.paths.map Selector.ofText = [⟨"to", ["to"], [[.literal "to"]]⟩] := by
    have hexpand : Selector.expand "to".toList = ["to".toList] := by decide +kernel
    rw [filled, List.map_singleton, Selector.ofText, hexpand]
    rfl
  have hfilled : filled.results .structural [form] receivers [] =
      [.mapping [("to", .string "Ann"), ("copy", .bool false)],
        .mapping [("to", .string "Bo"), ("copy", .bool false)]] := by
    rw [Stage.results, Generator.generate, hselectors]
    rfl
  obtain ⟨results, hlisted, hinline, hfile⟩ :=
    @run_inline_reference _ _ _ hrun [listed] [] filled rfl .combos "listed" rfl
  obtain rfl := Option.some.inj (hlisted.symm.trans hreceivers)
  refine ⟨outcome, hrun, hfilled ▸ hresults, hinline, hfile _ _ (if_pos rfl) ?_⟩
  -- no source of the plan names a file
  rintro stage hstage file ⟨field, hfield⟩
  simp only [List.mem_cons, List.not_mem_nil, or_false] at hstage
  rcases hstage with rfl | rfl <;> cases field <;> simp [Stage.source?, listed, filled] at hfield

end Plan

end Stencil
