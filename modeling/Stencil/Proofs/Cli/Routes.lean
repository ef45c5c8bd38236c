import Stencil.Cli.Report
import Stencil.Proofs.Plan.Faults

/-!
# Two ways to fill templates

Templates in a file can be filled with combos in a file by the command that does just this, or by a
plan of one stage. The commands are put together apart: each reads the files and checks what they
hold in its own way, keeps the renames in a container of its own and prints for itself. Still they
print the same, or both fail.

* `GenerateOptions.result_eq_ok_iff`, `RunOptions.result_eq_ok_iff`: what the two commands print,
  and when.
* `Plan.run_singleton_iff`: what a plan of one stage makes.
* `Location.parent_join`: a plan sees its files from the directory in which it lies.
* `GenerateOptions.results_stage`: both rename in the same order.
* `report_agree`: the two commands agree.
-/

namespace Stencil

/-! ## Files -/

theorem FileReader.loader_eq_ok_iff {read : FileReader} {directory file : String} {value : Value} :
    read.loader directory file = .ok value ↔
      ∃ text, read (Location.join directory file) = .ok text ∧
        Json.valueOfText? text = some value := by
  simp only [FileReader.loader]
  cases read (Location.join directory file) with
  | error cause => simp
  | ok text => cases hvalue : Json.valueOfText? text <;> simp [hvalue]

namespace Location

theorem names_append_slash (directory : String) {name : String} (hname : '/' ∉ name.toList) :
    names (directory ++ "/" ++ name) = names directory ++ [name] := by
  have hsplit : name.toList.splitOn '/' = [name.toList] := by
    have hpieces : ∀ piece ∈ [name.toList], '/' ∉ piece := by simpa using hname
    simpa using List.splitOn_intercalate '/' hpieces (List.cons_ne_nil _ _)
  have htext : (directory ++ "/" ++ name).toList = directory.toList ++ '/' :: name.toList := by simp
  rw [names, htext, List.splitOn_append_cons_self, hsplit]
  simp [names]

theorem intercalate_names (location : String) : "/".intercalate (names location) = location := by
  refine String.toList_inj.1 ?_
  rw [String.toList_intercalate, names, List.map_map]
  simp

/-- A file in a directory has this directory as its parent, if the location of the directory ends in
a proper name. -/
theorem parent_join {directory name last : String} (hname : '/' ∉ name.toList)
    (hlast : (names directory).getLast? = some last) (hproper : isStay last = false) :
    parent (join directory name) = directory := by
  obtain ⟨before, hbefore⟩ := List.getLast?_eq_some_iff.1 hlast
  have hempty : directory ≠ "" := by
    rintro rfl
    have hnames : names "" = [""] := by decide +kernel
    obtain rfl : last = "" := by simpa [hnames, eq_comm] using hlast
    cases hproper
  have hslash : directory.toList.getLast? ≠ some '/' := by
    intro hend
    obtain ⟨front, hfront⟩ := List.getLast?_eq_some_iff.1 hend
    have hdirectory : directory = String.ofList front ++ "/" ++ "" :=
      String.toList_inj.1 (by simp [hfront])
    obtain rfl : last = "" := by
      rw [hdirectory, names_append_slash _ (by simp)] at hlast
      simpa [eq_comm] using hlast
    cases hproper
  have hrelative : ¬isAbsolute name := by
    intro habsolute
    exact hname (List.mem_of_mem_head? (by simpa [isAbsolute] using habsolute))
  have hjoin : join directory name = directory ++ "/" ++ name := by
    rw [join, if_neg (not_or.2 ⟨hrelative, hempty⟩), if_neg hslash]
  have hkept : ((names directory).reverse.dropWhile isStay).reverse = names directory := by
    rw [hbefore]
    simp [hproper]
  rw [parent, hjoin, names_append_slash directory hname, List.dropLast_concat, hkept,
    if_neg fun h => by simp [hbefore] at h, intercalate_names]

end Location

/-! ## Plans of one stage -/

theorem Outcome.output_of_stages_eq {outcome : Outcome} {name : String} {results : List Value}
    (h : outcome.stages = [(name, results)]) : outcome.output = results := by
  have hplace : outcome.stages.get outcome.place ∈ [(name, results)] := by
    rw [← h]
    exact List.get_mem _ _
  rw [Outcome.output, List.mem_singleton.1 hplace]

/-- A plan of one stage whose names are as they must be makes what this stage yields. -/
theorem Plan.run_singleton_iff {settings : OutputSettings} {stage : Stage} {load : Loader}
    {results : List Value} :
    (∃ outcome, Plan.run ⟨settings, [stage]⟩ load = .ok outcome ∧ outcome.output = results) ↔
      (Plan.mk settings [stage]).WellNamed ∧ stage.Yields load settings.dedup [] results := by
  constructor
  · rintro ⟨outcome, hrun, rfl⟩
    obtain ⟨hvalidate, hfinished, -⟩ := run_eq_ok_iff.1 hrun
    obtain ⟨results, hyields, hrest⟩ := runStages_cons_eq_ok_iff.1 hfinished
    rw [Outcome.output_of_stages_eq (Except.ok.inj hrest).symm]
    exact ⟨validate_eq_ok_iff.1 hvalidate, hyields⟩
  · rintro ⟨hwell, hyields⟩
    have hfinished : runStages load settings.dedup [] [stage] = .ok [(stage.name, results)] :=
      runStages_cons_eq_ok_iff.2 ⟨results, hyields, rfl⟩
    obtain ⟨outcome, houtcome⟩ := exists_outcome hwell hfinished
    obtain ⟨hstages, -⟩ := Finished.eq_of_outcome houtcome
    have hvalidate := validate_eq_ok_iff.2 hwell
    exact ⟨outcome, run_eq_ok_iff.2 ⟨hvalidate, hstages ▸ hfinished, hstages ▸ houtcome⟩,
      Outcome.output_of_stages_eq hstages⟩

namespace Cli

/-! ## The command that fills templates -/

section generate

variable {load : Loader} {file : String}

theorem loadArray_eq_ok_iff {items : List Value} :
    loadArray load file = .ok items ↔ load file = .ok (.sequence items) := by
  unfold loadArray
  cases load file with
  | error fault => simp
  | ok value => cases value <;> simp

theorem loadTemplates_eq_ok_iff {templates : List Value} :
    loadTemplates load file = .ok templates ↔
      load file = .ok (.sequence templates) ∧ Value.AllDocuments templates := by
  rw [← loadArray_eq_ok_iff, loadTemplates, bind_eq_ok_iff]
  constructor
  · rintro ⟨items, hitems, hreturn⟩
    split at hreturn
    · rename_i hall
      obtain rfl := Except.ok.inj hreturn
      exact ⟨hitems, hall⟩
    · cases hreturn
  · rintro ⟨hitems, hall⟩
    exact ⟨templates, hitems, if_pos hall⟩

/-- The results that the options ask for, the files holding what they must. -/
def GenerateOptions.Makes (options : GenerateOptions) (load : Loader) (results : List Value) :
    Prop :=
  ∃ templates combos, load options.templates = .ok (.sequence templates) ∧
    Value.AllDocuments templates ∧ load options.combos = .ok (.sequence combos) ∧
    options.results templates combos = results

namespace GenerateOptions

variable {options : GenerateOptions}

theorem makes_iff {results : List Value} :
    options.Makes load results ↔ ∃ templates, loadTemplates load options.templates = .ok templates ∧
      ∃ combos, loadArray load options.combos = .ok combos ∧
        options.results templates combos = results := by
  simp only [Makes, loadTemplates_eq_ok_iff, loadArray_eq_ok_iff, and_assoc, exists_and_left]

/-- The command prints the results that the options ask for. -/
theorem result_eq_ok_iff {text : String} :
    (options.report load).result = .ok text ↔ ∃ results, options.Makes load results ∧
      valueLines (!options.compact) (.sequence results) = text := by
  simp only [makes_iff, report]
  cases loadTemplates load options.templates with
  | error failure => simp [bind, Except.bind, Report.ofFailure]
  | ok templates =>
    cases loadArray load options.combos with
    | error failure => simp [bind, Except.bind, Report.ofFailure]
    | ok combos => simp [bind, Except.bind, pure, Except.pure]

theorem makes_congr {load' : Loader} {results : List Value}
    (h : ∀ file ∈ [options.templates, options.combos], ∀ value,
      load file = .ok value ↔ load' file = .ok value) :
    options.Makes load results ↔ options.Makes load' results := by
  simp only [Makes, h options.templates (by simp), h options.combos (by simp)]

end GenerateOptions

end generate

/-! ## The command that runs plans -/

/-- The command prints the output of the plan. -/
theorem RunOptions.result_eq_ok_iff {options : RunOptions} {directory : String} {read : FileReader}
    {text : String} {plan : Plan} (hplan : options.plan? directory read = .ok plan) :
    (options.report directory read).result = .ok text ↔ ∃ outcome,
      plan.run (read.loader (options.planDirectory directory)) = .ok outcome ∧
      valueLines (plan.output.pretty && !options.compact) (.sequence outcome.output) = text := by
  simp only [report, hplan]
  cases plan.run (read.loader (options.planDirectory directory)) <;> simp

/-! ## Both -/

/-- The stage that does what the options ask for. -/
def GenerateOptions.stage (options : GenerateOptions) (name : String) : Stage :=
  ⟨name, options.paths, .file options.templates, .file options.combos, [],
    .ofPairs options.renames, options.unique⟩

/-- The plan of this stage alone, under a name and with an output stage if one is given. -/
def GenerateOptions.plan (options : GenerateOptions) (name : String) (output : Option String) :
    Plan :=
  ⟨⟨true, options.dedup, output⟩, [options.stage name]⟩

/-- Two reports agree as far as exit codes and standard output show. -/
def Report.Agree (r s : Report) : Prop :=
  (r.exitCode = 0 ∧ s.exitCode = 0 ∧ r.output = s.output) ∨
    (r.exitCode = 1 ∧ s.exitCode = 1 ∧ r.output = "" ∧ s.output = "")

theorem Report.not_agree_of_exitCode {r s : Report} (hr : r.exitCode = 0) (hs : s.exitCode = 1) :
    ¬r.Agree s := by
  simp [Agree, hr, hs]

/-- Reports agree if they are successful with the same texts. -/
theorem Report.Agree.of_forall {r s : Report}
    (h : ∀ text, r.result = .ok text ↔ s.result = .ok text) : r.Agree s := by
  cases hr : r.result with
  | ok text =>
    have hs := (h text).1 hr
    exact .inl ⟨by simp [exitCode, hr], by simp [exitCode, hs], by simp [output, hr, hs]⟩
  | error failure =>
    cases hs : s.result with
    | ok text =>
      have hr' := (h text).2 hs
      simp [hr] at hr'
    | error failure =>
      exact .inr ⟨by simp [exitCode, hr], by simp [exitCode, hs], by simp [output, hr],
        by simp [output, hs]⟩

namespace GenerateOptions

variable {options : GenerateOptions}

/-- The plan keeps renames in the order of the names, which is the order in which they are given. -/
theorem results_stage (hrenames : options.renames.Pairwise fun p q => p.1 < q.1)
    (name : String) (templates combos : List Value) :
    (options.stage name).results options.dedup templates combos [] =
      options.results templates combos := by
  simp only [Stage.results, results, stage, RenameTable.toList_ofPairs hrenames]
  split <;> simp [Generator.rename, Generator.dedup]

theorem yields_stage_iff (hrenames : options.renames.Pairwise fun p q => p.1 < q.1)
    {name : String} {load : Loader} {results : List Value} :
    (options.stage name).Yields load options.dedup [] results ↔ options.Makes load results := by
  constructor
  · rintro ⟨htemplates, hall, hcombos, happended⟩
    obtain rfl := List.forall₂_nil_left_iff.1 happended
    exact ⟨_, _, htemplates, hall, hcombos, (results_stage hrenames name _ _).symm⟩
  · rintro ⟨templates, combos, htemplates, hall, hcombos, rfl⟩
    rw [← results_stage hrenames name]
    exact .intro htemplates hall hcombos .nil

theorem wellNamed_plan {name : String} {output : Option String}
    (hname : ¬name.toList.all Text.isBlank)
    (houtput : ∀ named, output = some named → named = name) :
    (options.plan name output).WellNamed where
  nonempty := List.cons_ne_nil _ _
  visible := List.forall_mem_singleton.2 hname
  distinct := List.pairwise_singleton _ _
  output := fun named hnamed => List.mem_singleton.2 (houtput named hnamed)

/-- The plan of one stage makes the results that the options ask for. -/
theorem run_plan_iff (hrenames : options.renames.Pairwise fun p q => p.1 < q.1) {name : String}
    {output : Option String} (hname : ¬name.toList.all Text.isBlank)
    (houtput : ∀ named, output = some named → named = name) {load : Loader}
    {results : List Value} :
    (∃ outcome, (options.plan name output).run load = .ok outcome ∧ outcome.output = results) ↔
      options.Makes load results := by
  rw [plan, Plan.run_singleton_iff, yields_stage_iff hrenames]
  exact and_iff_right (wellNamed_plan hname houtput)

end GenerateOptions

/-- A plan runs only if its names are as they must be. -/
theorem RunOptions.exitCode_of_not_wellNamed {options : RunOptions} {directory : String}
    {read : FileReader} {plan : Plan} (hplan : options.plan? directory read = .ok plan)
    (h : ¬plan.WellNamed) : (options.report directory read).exitCode = 1 := by
  cases hresult : (options.report directory read).result with
  | error failure => simp [Report.exitCode, hresult]
  | ok text =>
    obtain ⟨outcome, hrun, -⟩ := (result_eq_ok_iff hplan).1 hresult
    exact absurd (Plan.wellNamed_of_run hrun) h

/-- The options `run` ask for a plan of one stage that is written for what `options` ask for, and
that is seen with its files from one directory. -/
structure GenerateOptions.Counterpart (options : GenerateOptions) (run : RunOptions)
    (directory : String) (read : FileReader) (name : String) (output : Option String) : Prop where
  /-- The names to be replaced ascend, as they do in a plan. -/
  renames : options.renames.Pairwise fun p q => p.1 < q.1
  plan : ∃ text, read (Location.join directory run.plan) = .ok text ∧
    Plan.ofToml? text = some (options.plan name output)
  /-- Its sources are the files of the options. -/
  files : ∀ file ∈ [options.templates, options.combos],
    read (Location.join (run.planDirectory directory) file) = read (Location.join directory file)
  compact : run.compact = options.compact

namespace GenerateOptions.Counterpart

variable {options : GenerateOptions} {run : RunOptions} {directory : String} {read : FileReader}
  {name : String} {output : Option String}

/-- A plan that lies in the directory of the command sees the files that the command sees. -/
theorem of_name {text last : String} (hrenames : options.renames.Pairwise fun p q => p.1 < q.1)
    (hfile : '/' ∉ run.plan.toList) (hlast : (Location.names directory).getLast? = some last)
    (hproper : Location.isStay last = false)
    (htext : read (Location.join directory run.plan) = .ok text)
    (hplan : Plan.ofToml? text = some (options.plan name output))
    (hcompact : run.compact = options.compact) :
    options.Counterpart run directory read name output := by
  have hdirectory : run.planDirectory directory = directory :=
    Location.parent_join hfile hlast hproper
  exact ⟨hrenames, ⟨text, htext, hplan⟩, fun file _ => by rw [hdirectory], hcompact⟩

theorem plan?_eq (h : options.Counterpart run directory read name output) :
    run.plan? directory read = .ok (options.plan name (run.stage <|> output)) := by
  obtain ⟨text, htext, hplan⟩ := h.plan
  simp only [RunOptions.plan?, htext, hplan]
  rfl

theorem makes_iff (h : options.Counterpart run directory read name output)
    {results : List Value} :
    options.Makes (read.loader (run.planDirectory directory)) results ↔
      options.Makes (read.loader directory) results := by
  refine makes_congr fun file hfile value => ?_
  rw [FileReader.loader_eq_ok_iff, FileReader.loader_eq_ok_iff, h.files file hfile]

end GenerateOptions.Counterpart

/-- **Filling templates agrees with running the plan of one stage.** Both commands are successful
with the same text, or both fail and print nothing, provided that the stage has a proper name and
that the output stage, if one is named in the plan or on the command line, is this stage. -/
theorem report_agree {options : GenerateOptions} {run : RunOptions} {directory : String}
    {read : FileReader} {name : String} {output : Option String}
    (h : options.Counterpart run directory read name output)
    (hname : ¬name.toList.all Text.isBlank)
    (houtput : ∀ named, (run.stage <|> output) = some named → named = name) :
    (Command.report directory read (.generate options)).Agree
      (Command.report directory read (.run run)) := by
  refine .of_forall fun text => ?_
  calc (options.report (read.loader directory)).result = .ok text
    _ ↔ ∃ results, options.Makes (read.loader (run.planDirectory directory)) results ∧
          valueLines (!options.compact) (.sequence results) = text := by
        simp only [GenerateOptions.result_eq_ok_iff, h.makes_iff]
    _ ↔ ∃ outcome, (options.plan name (run.stage <|> output)).run
            (read.loader (run.planDirectory directory)) = .ok outcome ∧
          valueLines (!options.compact) (.sequence outcome.output) = text := by
        simp only [← GenerateOptions.run_plan_iff h.renames hname houtput]
        constructor
        · rintro ⟨_, ⟨outcome, hrun, rfl⟩, hprinted⟩
          exact ⟨outcome, hrun, hprinted⟩
        · rintro ⟨outcome, hrun, hprinted⟩
          exact ⟨_, ⟨outcome, hrun, rfl⟩, hprinted⟩
    _ ↔ (run.report directory read).result = .ok text := by
        rw [RunOptions.result_eq_ok_iff h.plan?_eq, h.compact]
        rfl

/-! ## Plans that can be compared

The plan that is written for options reads files only, so it can be decided whether a plan is this
one, although documents cannot be compared in general.
-/

instance (source : Source) (path : String) : Decidable (source = .file path) :=
  match source with
  | .file other => decidable_of_iff (other = path) (by simp)
  | .inline _ => isFalse nofun
  | .stage _ => isFalse nofun

instance (stage : Stage) (options : GenerateOptions) (name : String) :
    Decidable (stage = options.stage name) :=
  decidable_of_iff
    (stage.name = name ∧ stage.paths = options.paths ∧
      stage.templates = .file options.templates ∧ stage.combos = .file options.combos ∧
      stage.concat = [] ∧ stage.rename.toList = (RenameTable.ofPairs options.renames).toList ∧
      stage.unique = options.unique)
    (by
      obtain ⟨name, paths, templates, combos, concat, ⟨pairs, hpairs⟩, unique⟩ := stage
      simp only [GenerateOptions.stage, Stage.mk.injEq]
      cases RenameTable.ofPairs options.renames
      simp only [RenameTable.mk.injEq])

instance (plan : Plan) (options : GenerateOptions) (name : String) (output : Option String) :
    Decidable (plan = options.plan name output) :=
  match plan with
  | ⟨⟨pretty, dedup, stage⟩, [only]⟩ =>
    decidable_of_iff
      ((pretty = true ∧ dedup = options.dedup ∧ stage = output) ∧ only = options.stage name)
      (by simp [GenerateOptions.plan])
  | ⟨_, []⟩ => isFalse nofun
  | ⟨_, _ :: _ :: _⟩ => isFalse nofun

instance (plan? : Option Plan) (options : GenerateOptions) (name : String)
    (output : Option String) : Decidable (plan? = some (options.plan name output)) :=
  match plan? with
  | none => isFalse nofun
  | some plan => decidable_of_iff (plan = options.plan name output) (by simp)

/-- Options for cards with a name on them. -/
def cards : GenerateOptions where
  templates := "t.json"
  combos := "c.json"
  paths := ["to"]
  unique := true
  dedup := .structural
  renames := [("to", "for")]
  compact := true

/-- The text of a plan for cards, with a line for the output in front and a name for the stage. -/
def cardPlan (output name : String) : String :=
  output ++ "[[stage]]\nname = \"" ++ name ++ "\"\npaths = [\"to\"]\n" ++
    "templates.file = \"t.json\"\ncombos.file = \"c.json\"\nrename.to = \"for\"\nunique = true\n"

/-- A directory with a card, two names that are the same, and a plan. -/
def cardFiles (plan : String) : FileReader := fun location =>
  if location = "/work/plan.toml" then .ok plan
  else if location = "/work/t.json" then .ok "[\x7b\"to\": \"{{name}}\"\x7d]"
  else if location = "/work/c.json" then
    .ok "[\x7b\"name\": \"Ann\"\x7d, \x7b\"name\": \"Ann\"\x7d]"
  else .error .absent

/-- The options that ask for the plan. -/
def runCards : RunOptions :=
  ⟨"plan.toml", none, true⟩

/-- The report of a command in this directory. -/
def cardReport (plan : String) (command : Command) : Report :=
  command.report "/work" (cardFiles plan)

theorem counterpart_cards {plan name : String} {output : Option String}
    (hplan : Plan.ofToml? plan = some (cards.plan name output)) :
    cards.Counterpart runCards "/work" (cardFiles plan) name output := by
  have hlocation : Location.join "/work" runCards.plan = "/work/plan.toml" := by decide +kernel
  have hlast : (Location.names "/work").getLast? = some "work" := by decide +kernel
  exact .of_name (by decide) (by decide) hlast (by decide) (if_pos hlocation) hplan rfl

theorem report_agree_cards :
    cards.Counterpart runCards "/work" (cardFiles (cardPlan "" "cards")) "cards" none ∧
    ¬"cards".toList.all Text.isBlank ∧
    (∀ named, (runCards.stage <|> none) = some named → named = "cards") ∧
    (cardReport (cardPlan "" "cards") (.generate cards)).Agree
      (cardReport (cardPlan "" "cards") (.run runCards)) ∧
    (cardReport (cardPlan "" "cards") (.generate cards)).output =
      "[\x7b\"for\":\"Ann\"\x7d]\n" := by
  have hcards := @counterpart_cards (cardPlan "" "cards") "cards" none (by decide +kernel)
  have hname : ¬"cards".toList.all Text.isBlank := by decide +kernel
  have houtput : ∀ named, (runCards.stage <|> none) = some named → named = "cards" := nofun
  exact ⟨hcards, hname, houtput, report_agree hcards hname houtput, by decide +kernel⟩

/-- Without a proper name of the stage, or with another one as output stage, the command that fills
templates is successful and the plan fails. -/
theorem not_agree_of_names :
    (cards.Counterpart runCards "/work" (cardFiles (cardPlan "" " ")) " " none ∧
      ¬(cardReport (cardPlan "" " ") (.generate cards)).Agree
        (cardReport (cardPlan "" " ") (.run runCards))) ∧
    (cards.Counterpart runCards "/work"
        (cardFiles (cardPlan "output.stage = \"other\"\n" "cards")) "cards" (some "other") ∧
      ¬(cardReport (cardPlan "output.stage = \"other\"\n" "cards") (.generate cards)).Agree
        (cardReport (cardPlan "output.stage = \"other\"\n" "cards") (.run runCards))) := by
  have hblank := @counterpart_cards (cardPlan "" " ") " " none (by decide +kernel)
  have hother := @counterpart_cards (cardPlan "output.stage = \"other\"\n" "cards") "cards"
    (some "other") (by decide +kernel)
  refine ⟨⟨hblank, Report.not_agree_of_exitCode (by decide +kernel) ?_⟩,
    hother, Report.not_agree_of_exitCode (by decide +kernel) ?_⟩
  · refine RunOptions.exitCode_of_not_wellNamed hblank.plan?_eq fun hwell => ?_
    exact hwell.visible " " (List.mem_singleton_self _) (by decide +kernel)
  · refine RunOptions.exitCode_of_not_wellNamed hother.plan?_eq fun hwell => ?_
    have hmem := hwell.output "other" rfl
    exact absurd hmem (by decide)

end Cli

end Stencil
