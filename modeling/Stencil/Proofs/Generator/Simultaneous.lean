import Mathlib.Data.List.Induction
import Stencil.Generator.Substitute
import Stencil.Proofs.Path.Texts
import Stencil.Proofs.Placeholder

/-!
# Substitution all at once

A substitution replaces one placeholder at a time, at one place at a time, and resolves the
selectors again for every variable. Where every selected place holds a string in which braces occur
only as placeholders, and the combo brings no braces of its own, the result is that of one pass
over the template in which every selected string has all its placeholders filled at once. So
neither the order of variables and expressions counts, nor how often a place is selected.

* `Selector.resolve_mapTexts`: edits of strings select nothing else.
* `applyVariable_eq_mapTexts`: one variable is one pass.
* `substitute_simultaneous`: all variables are one pass.
-/

namespace Stencil

namespace Selector

/-- A path is found behind a pass over the strings exactly when it is found before. -/
theorem resolveBelow_mapTexts (f : String → String) (selected : Path → Bool)
    (value : Option Value) (steps : List Step) :
    resolveBelow (value.map (Value.mapTexts f selected)) steps = resolveBelow value steps := by
  induction steps generalizing value selected with
  | nil => rfl
  | cons step rest ih =>
    cases value with
    | none => rfl
    | some value =>
      cases step with
      | literal key =>
        simp only [Option.map_some, resolveBelow, Option.bind_some]
        cases hslot : value.slot? (.key key) with
        | none =>
          rw [Value.child?_eq_none_of_slot? hslot,
            Value.child?_eq_none_of_slot? ((Value.slot?_mapTexts ..).trans hslot)]
        | some slot => rw [Value.child?_mapTexts hslot, ih]
      | each =>
        cases value with
        | sequence items =>
          refine Value.flatMap_zipIdx_mapTextsItems (fun item selected i => ?_) _ items 0
          exact congrArg (List.map (Segment.index i :: ·)) (ih selected (some item))
        | _ => rfl

theorem resolve_mapTexts (selector : Selector) (f : String → String) (selected : Path → Bool)
    (doc : Value) : selector.resolve (doc.mapTexts f selected) = selector.resolve doc := by
  unfold resolve resolveSteps
  simp only [← Option.map_some, resolveBelow_mapTexts]

end Selector

namespace Generator

open Placeholder

/-- The locations of the places, among those that the selectors denote, that are present. -/
def locations (selectors : List Selector) (doc : Value) : List Path :=
  (selectors.flatMap (·.resolve doc)).filterMap doc.locate?

theorem locations_cons (selector : Selector) (rest : List Selector) (doc : Value) :
    locations (selector :: rest) doc =
      (selector.resolve doc).filterMap doc.locate? ++ locations rest doc := by
  rw [locations, List.flatMap_cons, List.filterMap_append, locations]

theorem mem_locations {selectors : List Selector} {doc : Value} {location : Path} :
    location ∈ locations selectors doc ↔
      ∃ selector ∈ selectors, ∃ path ∈ selector.resolve doc, doc.locate? path = some location := by
  simp only [locations, List.mem_filterMap, List.mem_flatMap]
  constructor
  · rintro ⟨path, ⟨selector, hselector, hpath⟩, hlocate⟩
    exact ⟨selector, hselector, path, hpath, hlocate⟩
  · rintro ⟨selector, hselector, path, hpath, hlocate⟩
    exact ⟨path, ⟨selector, hselector, hpath⟩, hlocate⟩

theorem locations_mapTexts (selectors : List Selector) (f : String → String)
    (selected : Path → Bool) (doc : Value) :
    locations selectors (doc.mapTexts f selected) = locations selectors doc := by
  have hlocate : (doc.mapTexts f selected).locate? = doc.locate? :=
    funext (Value.locate?_mapTexts f selected doc)
  simp only [locations, Selector.resolve_mapTexts, hlocate]

/-- The text with the placeholder of one variable replaced. -/
def replaceText (name : String) (value : Value) (text : String) : String :=
  String.ofList (replaceAll (token name) (replacement value) text.toList)

/-- If the path is present, it leads to a string that a second edit leaves as the first one does. -/
def Settles (f : String → String) (doc : Value) (path : Path) : Prop :=
  ∀ value, doc.get? path = some value → ∃ text, value = .string text ∧ f (f text) = f text

/-! ## One variable -/

section applyVariable

variable {combo : Fields Value} {name : String} {value doc : Value}

theorem editAt_mapTexts {path : Path} (h : Settles (replaceText name value) doc path)
    (selected : Path → Bool) :
    editAt combo name value (doc.mapTexts (replaceText name value) selected) path =
      doc.mapTexts (replaceText name value) fun q =>
        selected q || decide (doc.locate? path = some q) := by
  unfold editAt
  cases hlocate : doc.locate? path with
  | none =>
    have habsent : ¬(doc.mapTexts (replaceText name value) selected).Has path := by
      rw [← Value.exists_locate?_iff, Value.locate?_mapTexts, hlocate]
      simp
    rw [← Value.update?_isSome_iff (f := edit combo name value path), Option.not_isSome_iff_eq_none]
      at habsent
    simp [habsent]
  | some location =>
    obtain ⟨found, hfound⟩ := Option.isSome_iff_exists.1 (Value.exists_locate?_iff.1 ⟨_, hlocate⟩)
    obtain ⟨text, rfl, htext⟩ := h found hfound
    rw [Value.update?_mapTexts hlocate hfound htext fun _ => rfl]
    simp only [Option.getD_some, Option.some.injEq]

theorem foldl_editAt {paths : List Path}
    (h : ∀ path ∈ paths, Settles (replaceText name value) doc path) (selected : Path → Bool) :
    paths.foldl (editAt combo name value) (doc.mapTexts (replaceText name value) selected) =
      doc.mapTexts (replaceText name value) fun q =>
        selected q || decide (q ∈ paths.filterMap doc.locate?) := by
  induction paths generalizing selected with
  | nil => simp
  | cons path rest ih =>
    obtain ⟨hpath, hrest⟩ := List.forall_mem_cons.1 h
    rw [List.foldl_cons, editAt_mapTexts hpath, ih hrest]
    congr 1
    funext q
    cases hlocate : doc.locate? path with
    | none => simp [hlocate]
    | some location => simp [hlocate, Bool.or_assoc, eq_comm]

/-- Every selector is resolved in the document as it then is, and finds the same paths in it. -/
theorem applyVariable_eq_mapTexts {selectors : List Selector}
    (h : ∀ selector ∈ selectors, ∀ path ∈ selector.resolve doc,
      Settles (replaceText name value) doc path) :
    applyVariable combo selectors doc (name, value) =
      doc.mapTexts (replaceText name value) fun q => decide (q ∈ locations selectors doc) := by
  have hfold : ∀ selected : Path → Bool,
      selectors.foldl (editAlong combo name value) (doc.mapTexts (replaceText name value) selected)
        = doc.mapTexts (replaceText name value) fun q =>
          selected q || decide (q ∈ locations selectors doc) := by
    induction selectors with
    | nil => simp [locations]
    | cons selector rest ih =>
      obtain ⟨hselector, hrest⟩ := List.forall_mem_cons.1 h
      intro selected
      rw [List.foldl_cons, editAlong, Selector.resolve_mapTexts, foldl_editAt hselector, ih hrest]
      congr 1
      funext q
      rw [locations_cons, Bool.or_assoc]
      simp only [List.mem_append, Bool.decide_or]
  have hnone := hfold fun _ => false
  rw [Value.mapTexts_none] at hnone
  simpa only [applyVariable, Bool.false_or] using hnone

end applyVariable

/-! ## All variables -/

/-- The fields of a combo; one that is no mapping has none. -/
def fieldsOf : Value → Fields Value
  | .mapping fields => fields
  | _ => []

/-- The text with the pieces that spell it filled, all at once. -/
def fillText (fields : Fields Value) (pieces : String → List Piece) (text : String) : String :=
  String.ofList (render ((pieces text).map (Piece.fill fields)))

/-- If the path is present, it leads to a string that its pieces spell. -/
def SpelledAt (pieces : String → List Piece) (doc : Value) (path : Path) : Prop :=
  ∀ value, doc.get? path = some value →
    ∃ text, value = .string text ∧ Spells (pieces text) text.toList

theorem SpelledAt.spells {pieces : String → List Piece} {doc : Value} {path : Path}
    {text : String} (h : SpelledAt pieces doc path) (htext : doc.get? path = some (.string text)) :
    Spells (pieces text) text.toList := by
  obtain ⟨text', htext', hspells⟩ := h _ htext
  obtain rfl : text = text' := Value.string.inj htext'
  exact hspells

/-- Names and replacements have no braces. -/
def BraceFreeFields (fields : Fields Value) : Prop :=
  ∀ field ∈ fields, BraceFree field.1.toList ∧ BraceFree (replacement field.2)

theorem substitute_eq_foldl (selectors : List Selector) (template combo : Value) :
    substitute selectors template combo =
      (fieldsOf combo).foldl (applyVariable (fieldsOf combo) selectors) template := by
  cases combo <;> rfl

theorem fillText_nil {pieces : String → List Piece} {text : String}
    (h : Spells (pieces text) text.toList) : fillText [] pieces text = text := by
  have hfill : Piece.fill [] = id := funext Piece.fill_nil
  rw [fillText, hfill, List.map_id, h.render_eq, String.ofList_toList]

/-- Replacing one more placeholder in a filled text fills it with one more variable. -/
theorem replaceText_fillText {done : Fields Value} {name : String} {value : Value}
    {pieces : String → List Piece} {text : String} (hdone : BraceFreeFields done)
    (hname : BraceFree name.toList) (h : Spells (pieces text) text.toList) :
    replaceText name value (fillText done pieces text) =
      fillText (done ++ [(name, value)]) pieces text := by
  have hwell : ∀ piece ∈ (pieces text).map (Piece.fill done), piece.WellFormed := by
    intro piece hpiece
    obtain ⟨original, horiginal, rfl⟩ := List.mem_map.1 hpiece
    exact (h.wellFormed original horiginal).fill fun field hfield => (hdone field hfield).2
  have hfill : Piece.fill (done ++ [(name, value)]) =
      Piece.fill [(name, value)] ∘ Piece.fill done := funext (Piece.fill_append done _)
  rw [replaceText, fillText, fillText, String.toList_ofList, replaceAll_render hname value hwell,
    List.map_map, hfill]

/-- A second replacement changes nothing, since what is put in has no placeholders. -/
theorem replaceText_replaceText {done : Fields Value} {name : String} {value : Value}
    {pieces : String → List Piece} {text : String}
    (hdone : BraceFreeFields (done ++ [(name, value)]))
    (h : Spells (pieces text) text.toList) :
    replaceText name value (replaceText name value (fillText done pieces text)) =
      replaceText name value (fillText done pieces text) := by
  have hname : BraceFree name.toList := (hdone (name, value) (by simp)).1
  have hfill : Piece.fill (done ++ [(name, value)] ++ [(name, value)]) =
      Piece.fill (done ++ [(name, value)]) := by
    funext piece
    rw [Piece.fill_append, Piece.fill_append, Piece.fill_fill]
  rw [replaceText_fillText (fun field hfield => hdone field (by simp [hfield])) hname h,
    replaceText_fillText hdone hname h, fillText, hfill, fillText]

/-- Behind a pass that fills the texts with some variables, one more settles. -/
theorem settles_mapTexts {done : Fields Value} {name : String} {value template : Value}
    {pieces : String → List Piece}
    (hdone : BraceFreeFields (done ++ [(name, value)])) {path : Path}
    (hspelled : SpelledAt pieces template path) {selected : Path → Bool}
    (hselected : ∀ location, template.locate? path = some location → selected location = true) :
    Settles (replaceText name value) (template.mapTexts (fillText done pieces) selected) path := by
  intro found hfound
  obtain ⟨location, hlocate⟩ := Value.exists_locate?_iff.2 (Option.isSome_of_eq_some hfound)
  rw [Value.locate?_mapTexts] at hlocate
  rw [Value.get?_mapTexts hlocate] at hfound
  obtain ⟨original, horiginal, rfl⟩ := Option.map_eq_some_iff.1 hfound
  obtain ⟨text, rfl, htext⟩ := hspelled original horiginal
  refine ⟨fillText done pieces text, ?_, replaceText_replaceText hdone htext⟩
  simp [Value.mapTexts, hselected location hlocate]

section substitute

variable {selectors : List Selector} {template : Value} {pieces : String → List Piece}
  (hspelled : ∀ selector ∈ selectors, ∀ path ∈ selector.resolve template,
    SpelledAt pieces template path)

include hspelled

theorem spelledAt_of_mem_locations {location : Path}
    (hlocation : location ∈ locations selectors template) : SpelledAt pieces template location := by
  obtain ⟨selector, hselector, path, hpath, hlocate⟩ := mem_locations.1 hlocation
  unfold SpelledAt
  rw [Value.get?_of_locate? hlocate]
  exact hspelled selector hselector path hpath

/-- The variables are applied one after another. What they have made of the template so far is one
pass in which the texts are filled with all of them; the next one finds the same places, and in
each of them a text in which a second replacement would change nothing. -/
theorem foldl_applyVariable {combo fields : Fields Value} (hfields : BraceFreeFields fields) :
    fields.foldl (applyVariable combo selectors) template =
      template.mapTexts (fillText fields pieces) fun q =>
        decide (q ∈ locations selectors template) := by
  induction fields using List.reverseRecOn with
  | nil =>
    rw [List.foldl_nil]
    conv_lhs => rw [← Value.mapTexts_none id template]
    refine Value.mapTexts_congr fun location text htext => ?_
    by_cases hlocation : location ∈ locations selectors template
    · have hspells := (spelledAt_of_mem_locations hspelled hlocation).spells htext
      simp [hlocation, fillText_nil hspells]
    · simp [hlocation]
  | append_singleton done entry ih =>
    obtain ⟨name, value⟩ := entry
    have hdone : BraceFreeFields done := fun field hfield => hfields field (by simp [hfield])
    have hname : BraceFree name.toList := (hfields (name, value) (by simp)).1
    rw [List.foldl_append, ih hdone, List.foldl_cons, List.foldl_nil, applyVariable_eq_mapTexts,
      locations_mapTexts, Value.mapTexts_mapTexts]
    · refine Value.mapTexts_congr fun location text htext => ?_
      by_cases hlocation : location ∈ locations selectors template
      · have hspells := (spelledAt_of_mem_locations hspelled hlocation).spells htext
        simp [hlocation, replaceText_fillText hdone hname hspells]
      · simp [hlocation]
    · intro selector hselector path hpath
      rw [Selector.resolve_mapTexts] at hpath
      refine settles_mapTexts hfields (hspelled selector hselector path hpath) ?_
      intro location hlocate
      exact decide_eq_true (mem_locations.2 ⟨selector, hselector, path, hpath, hlocate⟩)

/-- The places that other selectors denote hold spelled texts as well, if they are at locations
that these selectors select. -/
theorem spelledAt_of_locations_subset {others : List Selector}
    (h : ∀ q, q ∈ locations others template → q ∈ locations selectors template) :
    ∀ selector ∈ others, ∀ path ∈ selector.resolve template, SpelledAt pieces template path := by
  intro selector hselector path hpath value hvalue
  obtain ⟨location, hlocate⟩ := Value.exists_locate?_iff.2 (Option.isSome_of_eq_some hvalue)
  have hlocation := h location (mem_locations.2 ⟨selector, hselector, path, hpath, hlocate⟩)
  rw [← Value.get?_of_locate? hlocate] at hvalue
  exact spelledAt_of_mem_locations hspelled hlocation value hvalue

theorem substitute_eq_mapTexts {combo : Value} (hfields : BraceFreeFields (fieldsOf combo)) :
    substitute selectors template combo =
      template.mapTexts (fillText (fieldsOf combo) pieces) fun q =>
        decide (q ∈ locations selectors template) := by
  rw [substitute_eq_foldl, foldl_applyVariable hspelled hfields]

end substitute

/-- **Replacing placeholders in turn is substituting all at once.** Every selected string has its
placeholders filled with all variables in one pass; the order of the fields, the order of the
expressions and repeated selection of a location make no difference. -/
theorem substitute_simultaneous {paths : List String} {template combo : Value}
    {pieces : String → List Piece} (hfields : BraceFreeFields (fieldsOf combo))
    (hspelled : ∀ selector ∈ paths.map Selector.ofText, ∀ path ∈ selector.resolve template,
      SpelledAt pieces template path) :
    substitute (paths.map Selector.ofText) template combo =
      template.mapTexts (fillText (fieldsOf combo) pieces)
        (fun q => decide (q ∈ locations (paths.map Selector.ofText) template)) ∧
    (∀ combo', (Fields.keys (fieldsOf combo)).Nodup → (fieldsOf combo').Perm (fieldsOf combo) →
      substitute (paths.map Selector.ofText) template combo' =
        substitute (paths.map Selector.ofText) template combo) ∧
    (∀ paths' : List String, paths'.Perm paths →
      substitute (paths'.map Selector.ofText) template combo =
        substitute (paths.map Selector.ofText) template combo) ∧
    (∀ paths' : List String, (∀ q, q ∈ locations (paths'.map Selector.ofText) template ↔
        q ∈ locations (paths.map Selector.ofText) template) →
      substitute (paths'.map Selector.ofText) template combo =
        substitute (paths.map Selector.ofText) template combo) := by
  have hresult := substitute_eq_mapTexts hspelled hfields
  have hlocations : ∀ paths' : List String,
      (∀ q, q ∈ locations (paths'.map Selector.ofText) template ↔
        q ∈ locations (paths.map Selector.ofText) template) →
      substitute (paths'.map Selector.ofText) template combo =
        substitute (paths.map Selector.ofText) template combo := by
    intro paths' hsame
    have hspelled' := spelledAt_of_locations_subset hspelled fun q => (hsame q).1
    rw [hresult, substitute_eq_mapTexts hspelled' hfields]
    simp only [hsame]
  refine ⟨hresult, fun combo' hkeys hperm => ?_, fun paths' hperm => ?_, hlocations⟩
  · have hfields' : BraceFreeFields (fieldsOf combo') := fun field hfield =>
      hfields field (hperm.subset hfield)
    have hfill : fillText (fieldsOf combo') pieces = fillText (fieldsOf combo) pieces := by
      funext text
      rw [fillText, fillText, Piece.fill_congr (Fields.get?_perm hkeys hperm)]
    rw [hresult, substitute_eq_mapTexts hspelled hfields', hfill]
  · refine hlocations paths' fun q => ?_
    simp only [mem_locations, List.mem_map, hperm.mem_iff]

/-- A text with two placeholders. -/
def greeting : List Piece :=
  [.plain ['D', 'e', 'a', 'r', ' '], .token "name", .plain [' '], .token "sign"]

/-- The text with the first of them filled. -/
def dearAnn : List Piece :=
  [.plain ['D', 'e', 'a', 'r', ' ', 'A', 'n', 'n', ' '], .token "sign"]

/-- A template in which the text stands twice. -/
def letter : Value :=
  .mapping [("to", .string (String.ofList (render greeting))),
    ("lines", .sequence [.string "Hello", .string (String.ofList (render greeting))]),
    ("size", .null)]

/-- Expressions that select one of its lines twice. -/
def letterPaths : List String :=
  ["lines.@each", "to", "lines.1", "absent"]

/-- A combo with one of the two names. -/
def letterCombo : Value :=
  .mapping [("name", .string "Ann"), ("size", .bool true)]

/-- The pieces that spell the texts of the template. -/
def letterPieces (text : String) : List Piece :=
  if text = "Hello" then [.plain text.toList] else greeting

theorem substitute_simultaneous_letter :
    BraceFreeFields (fieldsOf letterCombo) ∧
    (∀ selector ∈ letterPaths.map Selector.ofText, ∀ path ∈ selector.resolve letter,
      SpelledAt letterPieces letter path) ∧
    substitute (letterPaths.map Selector.ofText) letter letterCombo =
      .mapping [("to", .string (String.ofList (render dearAnn))),
        ("lines", .sequence [.string "Hello", .string (String.ofList (render dearAnn))]),
        ("size", .null)] := by
  have hfields : BraceFreeFields (fieldsOf letterCombo) := by
    unfold BraceFreeFields letterCombo fieldsOf
    decide
  have hresolve : (letterPaths.map Selector.ofText).flatMap (·.resolve letter) =
      [[.key "lines", .index 0], [.key "lines", .index 1], [.key "to"], [.key "lines", .key "1"],
        [.key "absent"]] := by
    decide +kernel
  have hspelled : ∀ selector ∈ letterPaths.map Selector.ofText, ∀ path ∈ selector.resolve letter,
      SpelledAt letterPieces letter path := by
    intro selector hselector path hpath value hvalue
    have hmem : path ∈ (letterPaths.map Selector.ofText).flatMap (·.resolve letter) :=
      List.mem_flatMap.2 ⟨selector, hselector, hpath⟩
    simp only [hresolve, List.mem_cons, List.not_mem_nil, or_false] at hmem
    rcases hmem with rfl | rfl | rfl | rfl | rfl
    · obtain rfl := Option.some.inj hvalue
      exact ⟨_, rfl, by decide⟩
    · obtain rfl := Option.some.inj hvalue
      exact ⟨_, rfl, by decide⟩
    · obtain rfl := Option.some.inj hvalue
      exact ⟨_, rfl, by decide⟩
    · obtain rfl := Option.some.inj hvalue
      exact ⟨_, rfl, by decide⟩
    · cases hvalue
  have hlocations : locations (letterPaths.map Selector.ofText) letter =
      [[.key "lines", .index 0], [.key "lines", .index 1], [.key "to"],
        [.key "lines", .index 1]] := by
    rw [locations, hresolve]
    rfl
  refine ⟨hfields, hspelled, (substitute_simultaneous hfields hspelled).1.trans ?_⟩
  rw [hlocations]
  rfl

end Generator

end Stencil
