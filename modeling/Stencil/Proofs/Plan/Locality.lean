import Mathlib.Data.List.Induction
import Mathlib.Logic.Relation
import Stencil.Proofs.Plan.Faults

/-!
# Results of a stage are local

What a stage yields depends on its own definition and on those of the stages to which it refers,
directly or through others, and on nothing else in the plan: not on where the stages stand, not on
what stands between them, not on which stage is the output.

* `Plan.DependsOn`: reference from stage to stage, in any number of steps.
* `Plan.agreeOn_of_split`: two runs that agree on all that a stage refers to agree on the stage.
* `Plan.results_local`: two runs agree on a stage if they agree on the definitions of all on which
  it depends.
-/

namespace Stencil

theorem Source.GivesCombos.mem_of_references {load : Loader} {earlier : List String}
    {source : Source} (h : source.GivesCombos load earlier) {name : String}
    (hname : name ∈ source.references) : name ∈ earlier := by
  cases source with
  | stage other =>
    obtain rfl := List.mem_singleton.1 hname
    exact h
  | _ => cases hname

/-- A stage with all it needs refers to earlier stages only. -/
theorem Stage.Runnable.mem_of_references {load : Loader} {earlier : List String} {stage : Stage}
    (h : stage.Runnable load earlier) {name : String} (hname : name ∈ stage.references) :
    name ∈ earlier := by
  simp only [Stage.references, List.mem_append] at hname
  rcases hname with (htemplates | hcombos) | hconcat
  · exact (Source.givesTemplates_iff.1 h.templates).1.mem_of_references htemplates
  · exact h.combos.mem_of_references hcombos
  · exact h.concat name hconcat

/-- Two outcomes list the same results for a stage. -/
def Outcome.AgreeOn (o o' : Outcome) (stage : Stage) : Prop :=
  ∃ results, o.results? stage.name = some results ∧ o'.results? stage.name = some results

namespace Plan

/-- A stage refers to a stage of the plan. -/
def Refers (plan : Plan) (stage other : Stage) : Prop :=
  other ∈ plan.stages ∧ other.name ∈ stage.references

/-- A stage refers to another directly or through others, or it is the same stage. -/
def DependsOn (plan : Plan) : Stage → Stage → Prop :=
  Relation.ReflTransGen plan.Refers

theorem DependsOn.mem {plan : Plan} {stage other : Stage} (h : plan.DependsOn stage other)
    (hstage : stage ∈ plan.stages) : other ∈ plan.stages := by
  cases h with
  | refl => exact hstage
  | tail _ hrefers => exact hrefers.1

section TwoRuns

variable {p q : Plan} {load : Loader} {o o' : Outcome}

/-- Two runs that agree on all to which a stage refers agree on the stage. -/
theorem agreeOn_of_split (hp : p.run load = .ok o) (hq : q.run load = .ok o')
    (hdedup : p.output.dedup = q.output.dedup) {before after : List Stage} {stage : Stage}
    (hsplit : p.stages = before ++ stage :: after) (hstage : stage ∈ q.stages)
    (hbefore : ∀ other ∈ before, p.Refers stage other → o.AgreeOn o' other) :
    o.AgreeOn o' stage := by
  have hstage' : stage ∈ p.stages := by simp [hsplit]
  obtain ⟨results, hyields, hmem⟩ := exists_yields_of_mem (run_eq_ok_iff.1 hp).2.1 hstage'
  obtain ⟨results', hyields', hmem'⟩ := exists_yields_of_mem (run_eq_ok_iff.1 hq).2.1 hstage
  have hrunnable := (run_isOk_iff.1 ⟨o, hp⟩).stages before stage after hsplit
  have hsame : stage.Yields load q.output.dedup o'.stages results := by
    refine hdedup ▸ hyields.of_agree fun name hname given hgiven => ?_
    obtain ⟨other, hother, rfl⟩ := List.mem_map.1 (hrunnable.mem_of_references hname)
    obtain ⟨given', h, h'⟩ := hbefore other hother ⟨by simp [hsplit, hother], hname⟩
    obtain rfl := Option.some.inj (hgiven.symm.trans h)
    exact h'
  obtain rfl := hsame.unique hyields'
  exact ⟨results, results?_of_mem hp hmem, results?_of_mem hq hmem'⟩

/-- Two runs agree on every stage on whose dependencies the plans agree. The induction is on the
stages of one plan in their order, since a stage depends on earlier stages only. -/
theorem agreeOn_of_dependsOn (hp : p.run load = .ok o) (hq : q.run load = .ok o')
    (hdedup : p.output.dedup = q.output.dedup) {stage : Stage} (hstage : stage ∈ p.stages)
    (hsame : ∀ other, p.DependsOn stage other → other ∈ q.stages) : o.AgreeOn o' stage := by
  have hrun : ∀ done, done <+: p.stages → ∀ stage ∈ done,
      (∀ other, p.DependsOn stage other → other ∈ q.stages) → o.AgreeOn o' stage := by
    intro done
    induction done using List.reverseRecOn with
    | nil => simp
    | append_singleton before next ih =>
      rintro ⟨after, hsplit⟩ stage hmem hsame
      have hsplit' : p.stages = before ++ next :: after := by simpa using hsplit.symm
      have hbefore := ih ⟨next :: after, hsplit'.symm⟩
      rcases List.mem_append.1 hmem with hold | hnew
      · exact hbefore stage hold hsame
      · obtain rfl := List.mem_singleton.1 hnew
        have hstage := hsame stage .refl
        refine agreeOn_of_split hp hq hdedup hsplit' hstage fun other hother hrefers => ?_
        exact hbefore other hother fun further h => hsame further (.head hrefers h)
  exact hrun p.stages (List.prefix_refl _) stage hstage hsame

end TwoRuns

/-- **Results of a stage are local.** Let two plans run with the same files and the same way to drop
repeated results. They have the same results for a stage if every stage on which it depends, itself
included, is the same in both. So stages that are added behind change no results, and neither does
taking out a stage to which no other refers. -/
theorem results_local {p q : Plan} {load : Loader} {o o' : Outcome} (hp : p.run load = .ok o)
    (hq : q.run load = .ok o') (hdedup : p.output.dedup = q.output.dedup) :
    (∀ stage ∈ p.stages, (∀ other, p.DependsOn stage other → other ∈ q.stages) →
      o.AgreeOn o' stage) ∧
    (∀ more, q.stages = p.stages ++ more → ∀ stage ∈ p.stages, o.AgreeOn o' stage) ∧
    (∀ before removed after, p.stages = before ++ removed :: after → q.stages = before ++ after →
      (∀ stage ∈ q.stages, removed.name ∉ stage.references) →
      ∀ stage ∈ q.stages, o.AgreeOn o' stage) := by
  refine ⟨fun stage => agreeOn_of_dependsOn hp hq hdedup, fun more hmore stage hstage => ?_,
    fun before removed after hsplit hrest hunused stage hstage => ?_⟩
  · refine agreeOn_of_dependsOn hp hq hdedup hstage fun other hother => ?_
    exact hmore ▸ List.mem_append_left more (hother.mem hstage)
  · have hkept : ∀ other ∈ p.stages, other ≠ removed → other ∈ q.stages := by
      intro other hother hne
      simp only [hsplit, hrest, List.mem_append, List.mem_cons] at hother ⊢
      exact hother.imp_right fun h => h.resolve_left hne
    have hmem : stage ∈ p.stages := by
      rw [hrest] at hstage
      exact hsplit ▸ (List.sublist_cons_self removed after).append_left before |>.subset hstage
    refine agreeOn_of_dependsOn hp hq hdedup hmem fun other hother => ?_
    induction hother with
    | refl => exact hstage
    | tail _ hrefers ih =>
      refine hkept _ hrefers.1 fun heq => hunused _ ih (heq ▸ hrefers.2)

/-- A stage of two letters. -/
def letters : Stage :=
  ⟨"letters", [], .inline [.mapping [("to", .string "Ann")], .mapping [("to", .string "Bo")]],
    .inline [.null], [], .empty, false⟩

/-- A stage to which no other refers. -/
def drafts : Stage :=
  ⟨"drafts", [], .inline [.sequence []], .stage "letters", [], .empty, false⟩

/-- A stage that copies the letters with another field, and appends them. -/
def copies : Stage :=
  ⟨"copies", [], .stage "letters", .file "combos.json", ["letters"],
    .ofPairs [("to", "for")], true⟩

/-- The files hold one combo each. -/
def oneCombo : Loader :=
  fun _ => .ok (.sequence [.null])

/-- The copies depend on the letters, but not on the drafts between them. -/
theorem results_local_copies :
    ∃ long short : Outcome,
      Plan.run ⟨{ stage := some "letters" }, [letters, drafts, copies]⟩ oneCombo = .ok long ∧
      Plan.run ⟨{}, [letters, copies]⟩ oneCombo = .ok short ∧
      long.results? "copies" =
        some [.mapping [("for", .string "Ann")], .mapping [("for", .string "Bo")]] ∧
      long.AgreeOn short copies ∧ long.AgreeOn short letters := by
  obtain ⟨long, hlong, hcopies⟩ : ∃ long,
      Plan.run ⟨{ stage := some "letters" }, [letters, drafts, copies]⟩ oneCombo = .ok long ∧
      long.results? "copies" =
        some [.mapping [("for", .string "Ann")], .mapping [("for", .string "Bo")]] := ⟨_, rfl, rfl⟩
  obtain ⟨short, hshort⟩ : ∃ short, Plan.run ⟨{}, [letters, copies]⟩ oneCombo = .ok short :=
    ⟨_, rfl⟩
  have hlocal := results_local hlong hshort rfl
  refine ⟨long, short, hlong, hshort, hcopies,
    hlocal.1 copies (by simp) fun other hother => ?_,
    hlocal.2.2 [letters] drafts [copies] rfl rfl ?_ letters (by simp)⟩
  · induction hother with
    | refl => simp
    | tail _ hrefers ih =>
      obtain ⟨hmem, hname⟩ := hrefers
      simp only [List.mem_cons, List.not_mem_nil, or_false] at ih hmem ⊢
      rcases hmem with rfl | rfl | rfl
      · exact .inl rfl
      · -- the drafts are named neither by the copies nor by the letters
        rcases ih with rfl | rfl <;>
          simp [Stage.references, Source.references, letters, copies, drafts] at hname
      · exact .inr rfl
  · simp [Stage.references, Source.references, letters, copies, drafts]

end Plan

end Stencil
