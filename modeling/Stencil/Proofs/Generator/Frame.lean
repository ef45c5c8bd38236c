import Mathlib.Data.List.Forall2
import Stencil.Generator.Substitute
import Stencil.Proofs.Path.Slot
import Stencil.Proofs.Selector.Repetition

/-!
# What substitution leaves alone

A substitution edits the places that its selectors denote, one after another, and looks the
selectors up again in documents that earlier edits have changed. Whatever the order, a path that no
alternative matches, not even in part, sees the same shape before and after, and a path that every
alternative turns away from sees the same value.

* `get?_update_cases`: one edit at a path that a selector found.
* `Reaches`: the documents that edits along selectors can reach, in any order.
* `substitute_frame`: what a substitution leaves alone.
-/

namespace Stencil

namespace Selector

/-- Whether a segment is one that a step stands for: a literal for the segments with its text,
`@each` for those that denote a position. -/
def Step.Meets : Step → Segment → Prop
  | .literal key, segment => segment.text = key
  | .each, segment => segment.index?.isSome = true

/-- Whether a path has one segment for each step and every step meets its segment. -/
def Matches (steps : List Step) (path : Path) : Prop :=
  List.Forall₂ Step.Meets steps path

/-- Whether every step meets its segment as far as both the steps and the path go. -/
def Along : List Step → Path → Prop
  | step :: steps, segment :: path => step.Meets segment ∧ Along steps path
  | _, _ => True

theorem matches_cons {step : Step} {steps : List Step} {segment : Segment} {path : Path}
    (h : step.Meets segment) (hrest : Matches steps path) :
    Matches (step :: steps) (segment :: path) :=
  List.Forall₂.cons h hrest

/-- Steps that fail to meet a segment somewhere do not run along the path. -/
theorem not_along {steps : List Step} {path : Path} {i : Nat} {step : Step} {segment : Segment}
    (hstep : steps[i]? = some step) (hsegment : path[i]? = some segment)
    (h : ¬step.Meets segment) : ¬Along steps path := by
  induction steps generalizing path i with
  | nil => simp at hstep
  | cons first steps ih =>
    cases path with
    | nil => simp at hsegment
    | cons next path =>
      rintro ⟨hmeets, halong⟩
      cases i with
      | zero =>
        obtain rfl : first = step := by simpa using hstep
        obtain rfl : next = segment := by simpa using hsegment
        exact h hmeets
      | succ i => exact ih (by simpa using hstep) (by simpa using hsegment) halong

/-- Steps that match a beginning of a path run along the path. -/
theorem Matches.along {steps : List Step} {r q : Path} (h : Matches steps r) (hr : r <+: q) :
    Along steps q := by
  induction h generalizing q with
  | nil => trivial
  | cons hmeets _ ih =>
    obtain ⟨rest, rfl⟩ := hr
    exact ⟨hmeets, ih (List.prefix_append _ rest)⟩

/-- A segment with the slot of one that a step found is met by the step. -/
theorem Step.Finds.meets {step : Step} {found child : Value} {s t : Segment}
    (h : step.Finds (some found) s) (hchild : found.child? s = some child)
    (hslot : found.slot? t = found.slot? s) : step.Meets t := by
  cases step with
  | literal key =>
    subst h
    cases found with
    | mapping fields =>
      show t.text = (Segment.key key).text
      simpa [Value.slot?] using hslot
    | sequence items =>
      obtain ⟨position, hp, -⟩ := Option.bind_eq_some_iff.1 hchild
      obtain ⟨n, ht, hn⟩ : ∃ n, t.index? = some n ∧ n = position := by
        simpa [Value.slot?, hp] using hslot
      show t.text = (Segment.key key).text
      rw [Segment.text_of_index? ht, Segment.text_of_index? hp, hn]
    | _ => cases hchild
  | each =>
    obtain ⟨position, items, rfl, hitems, -⟩ := h
    cases hitems
    obtain ⟨n, ht, -⟩ : ∃ n, t.index? = some n ∧ n = position := by
      simpa [Value.slot?, Segment.index?] using hslot
    exact Option.isSome_iff_exists.2 ⟨n, ht⟩

/-- **One edit at a path that a selector found.** The steps were resolved in `found`, and the edited
`value` has the shape of `found` along `q`. Then `q` reads what it read before, or the steps run
along `q`; and in that case they match a beginning of `q`, or the shape at `q` is kept. -/
theorem get?_update_cases {f : Value → Value} {steps : List Step} {found value : Value}
    {path q : Path} (hpath : path ∈ resolveBelow (some found) steps)
    (hshape : ∀ r, r <+: q → (found.get? r).map Value.shape = (value.get? r).map Value.shape) :
    ((value.update? f path).getD value).get? q = value.get? q ∨
      Along steps q ∧ ((((value.update? f path).getD value).get? q).map Value.shape =
        (value.get? q).map Value.shape ∨ ∃ r, r <+: q ∧ Matches steps r) := by
  induction steps generalizing found value path q with
  | nil => exact Or.inr ⟨trivial, Or.inr ⟨[], List.nil_prefix, List.Forall₂.nil⟩⟩
  | cons step steps ih =>
    obtain ⟨s, below, rfl, hfinds, hbelow⟩ := mem_resolveBelow_cons.1 hpath
    rcases Value.update?_cons_cases f value s below with hsame | ⟨child, hchild, hupdate⟩
    · exact Or.inl (by rw [hsame])
    rw [hupdate]
    cases q with
    | nil => exact Or.inr ⟨trivial, Or.inl (by simp [Value.shape_replaceChild])⟩
    | cons t q =>
      by_cases hslot : value.slot? s = value.slot? t
      · -- `t` reads the child that is edited, in `found` as well as in `value`
        have ht : value.child? t = some child := (Value.child?_congr hslot).symm.trans hchild
        obtain ⟨child₀, ht₀⟩ : ∃ child₀, found.child? t = some child₀ := by
          have := hshape [t] (by simp)
          cases h : found.child? t <;> simp_all
        have hslot₀ : found.slot? s = found.slot? t := by
          have hroot : found.shape = value.shape := by simpa using hshape [] List.nil_prefix
          simpa only [Value.slot?_eq_of_shape hroot] using hslot
        have hs₀ : found.child? s = some child₀ := (Value.child?_congr hslot₀).trans ht₀
        have hmeets : step.Meets t := hfinds.meets hs₀ hslot₀.symm
        have hrest := @ih child₀ child below q
          (by simpa [hs₀] using hbelow) fun r hr => by
            simpa [ht, ht₀] using hshape (t :: r) (by simpa using hr)
        rw [Value.get?_cons, Value.get?_cons, Value.child?_replaceChild_of_eq hslot hchild, ht]
        refine hrest.imp id fun ⟨halong, h⟩ => ⟨⟨hmeets, halong⟩, h.imp id ?_⟩
        rintro ⟨r, hr, hmatch⟩
        exact ⟨t :: r, by simpa using hr, matches_cons hmeets hmatch⟩
      · left
        rw [Value.get?_cons, Value.get?_cons, Value.child?_replaceChild_of_ne hslot]

end Selector

namespace Generator

open Selector

/-- The documents that edits at places found by the selectors reach from a template. A place may
have been found in an earlier document than the one that is edited. -/
inductive Reaches (selectors : List Selector) (template : Value) : Value → Prop
  | refl : Reaches selectors template template
  | edit {found doc : Value} {selector : Selector} {path : Path} (f : Value → Value) :
    Reaches selectors template found → Reaches selectors template doc → selector ∈ selectors →
    path ∈ selector.resolve found → Reaches selectors template ((doc.update? f path).getD doc)

section Reaches

variable {selectors : List Selector} {template : Value}

theorem reaches_editAlong {doc : Value} {selector : Selector} (combo : Fields Value)
    (name : String) (value : Value) (hs : selector ∈ selectors)
    (h : Reaches selectors template doc) :
    Reaches selectors template (editAlong combo name value doc selector) := by
  unfold editAlong
  exact List.foldlRecOn _ _ h fun _ hb _ hp => .edit _ h hb hs hp

theorem reaches_applyVariable {doc : Value} (combo : Fields Value) (entry : String × Value)
    (h : Reaches selectors template doc) :
    Reaches selectors template (applyVariable combo selectors doc entry) := by
  unfold applyVariable
  exact List.foldlRecOn _ _ h fun _ hb _ hs => reaches_editAlong combo _ _ hs hb

/-- The three loops of a substitution make edits and nothing else. -/
theorem reaches_substitute (selectors : List Selector) (template combo : Value) :
    Reaches selectors template (substitute selectors template combo) := by
  unfold substitute
  split
  · exact List.foldlRecOn _ _ .refl fun _ hb _ _ => reaches_applyVariable _ _ hb
  · exact .refl

/-- Along a path that no steps match, not even in part, every document reached has the shape of the
template. The induction is on the edits, for all beginnings of the path at once: one edit keeps the
shape at a path only if the shapes above it are those in which the selector was resolved. -/
theorem Reaches.shape_eq {doc : Value} (h : Reaches selectors template doc) {q : Path}
    (hq : ∀ selector ∈ selectors, ∀ steps ∈ selector.steps, ∀ r, r <+: q → ¬Matches steps r) :
    ∀ r, r <+: q → (doc.get? r).map Value.shape = (template.get? r).map Value.shape := by
  induction h with
  | refl => exact fun _ _ => rfl
  | edit f hfound hdoc hs hp ihfound ihdoc =>
    intro r hr
    obtain ⟨steps, hsteps, hpath⟩ := List.mem_flatMap.1 hp
    have hshape := fun r' (hr' : r' <+: r) =>
      (ihfound r' (hr'.trans hr)).trans (ihdoc r' (hr'.trans hr)).symm
    rcases get?_update_cases (f := f) hpath hshape with hget | ⟨-, hget | ⟨r', hr', hmatch⟩⟩
    · rw [hget]
      exact ihdoc r hr
    · rw [hget]
      exact ihdoc r hr
    · exact absurd hmatch (hq _ hs steps hsteps r' (hr'.trans hr))

/-- A path that all steps turn away from reads the same value in every document reached. -/
theorem Reaches.get?_eq {doc : Value} (h : Reaches selectors template doc) {q : Path}
    (hq : ∀ selector ∈ selectors, ∀ steps ∈ selector.steps, ¬Along steps q) :
    doc.get? q = template.get? q := by
  have hspared : ∀ selector ∈ selectors, ∀ steps ∈ selector.steps, ∀ r, r <+: q →
      ¬Matches steps r :=
    fun selector hs steps hsteps r hr hmatch => hq selector hs steps hsteps (hmatch.along hr)
  induction h with
  | refl => rfl
  | edit f hfound hdoc hs hp ihfound ihdoc =>
    obtain ⟨steps, hsteps, hpath⟩ := List.mem_flatMap.1 hp
    have hshape := fun r (hr : r <+: q) =>
      (hfound.shape_eq hspared r hr).trans (hdoc.shape_eq hspared r hr).symm
    rcases get?_update_cases (f := f) hpath hshape with hget | ⟨halong, -⟩
    · rw [hget, ihdoc]
    · exact absurd halong (hq _ hs steps hsteps)

end Reaches

/-- The brace-free paths that a list of path expressions stands for. -/
def alternativesOf (paths : List String) : List (List Char) :=
  paths.flatMap fun path => expand path.toList

theorem exists_of_mem_steps {paths : List String} {selector : Selector} {steps : List Step}
    (hs : selector ∈ paths.map Selector.ofText) (hsteps : steps ∈ selector.steps) :
    ∃ alternative ∈ alternativesOf paths, steps = stepsOfText alternative := by
  obtain ⟨path, hp, rfl⟩ := List.mem_map.1 hs
  obtain ⟨alternative, ha, rfl⟩ := List.mem_map.1 hsteps
  exact ⟨alternative, List.mem_flatMap.2 ⟨path, hp, ha⟩, rfl⟩

theorem stepsOfText_ne_nil (text : List Char) : stepsOfText text ≠ [] := by
  simp [stepsOfText]

/-- **Substitution touches only what its expressions address.** A path that no alternative matches,
nor any beginning of it, has the same shape in the template and in the document made from it; a path
that every alternative turns away from reads the same value; and the root keeps its shape. -/
theorem substitute_frame (paths : List String) (template combo : Value) :
    (∀ q : Path,
      (∀ alternative ∈ alternativesOf paths, ∀ r, r <+: q → ¬Matches (stepsOfText alternative) r) →
      ((substitute (paths.map Selector.ofText) template combo).get? q).map Value.shape =
        (template.get? q).map Value.shape) ∧
    (∀ q : Path,
      (∀ alternative ∈ alternativesOf paths, ∃ (i : Nat) (step : Step) (segment : Segment),
        (stepsOfText alternative)[i]? = some step ∧ q[i]? = some segment ∧ ¬step.Meets segment) →
      (substitute (paths.map Selector.ofText) template combo).get? q = template.get? q) ∧
    (substitute (paths.map Selector.ofText) template combo).shape = template.shape := by
  have hreach := reaches_substitute (paths.map Selector.ofText) template combo
  have hshape : ∀ q : Path,
      (∀ alternative ∈ alternativesOf paths, ∀ r, r <+: q → ¬Matches (stepsOfText alternative) r) →
      ((substitute (paths.map Selector.ofText) template combo).get? q).map Value.shape =
        (template.get? q).map Value.shape := by
    intro q hq
    refine hreach.shape_eq (fun selector hs steps hsteps r hr => ?_) q (List.prefix_refl q)
    obtain ⟨alternative, ha, rfl⟩ := exists_of_mem_steps hs hsteps
    exact hq alternative ha r hr
  refine ⟨hshape, fun q hq => hreach.get?_eq fun selector hs steps hsteps => ?_, ?_⟩
  · obtain ⟨alternative, ha, rfl⟩ := exists_of_mem_steps hs hsteps
    obtain ⟨i, step, segment, hstep, hsegment, hmeets⟩ := hq alternative ha
    exact not_along hstep hsegment hmeets
  · have hroot := hshape [] fun alternative _ r hr hmatch => by
      obtain rfl := List.prefix_nil.1 hr
      exact stepsOfText_ne_nil alternative (List.forall₂_nil_right_iff.1 hmatch)
    simpa using hroot

end Generator

end Stencil
