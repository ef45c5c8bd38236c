import Mathlib.Data.List.Nodup
import Stencil.Generator.Basic
import Stencil.Proofs.Generator.Simultaneous

/-!
# Two generations in a row

Where all that the selectors find are strings, an edit puts a string in the place of a string: what
is found later does not change, and the combo serves no purpose but to list its variables. So the
variables of two combos may be applied one after another, whatever their texts hold, and a
generation from the results of another one is a single generation from the merged combos.

* `exists_editAt_eq_mapTexts`: an edit at a string is a pass over the strings, whatever the combo.
* `foldl_applyVariable_congr`: the combo from which the variables come does not matter.
* `substitute_substitute`: two substitutions in a row are one.
* `generate_adoptResults_generate`: two generations in a row are one.
-/

namespace Stencil.Generator

/-- Whatever the selectors find in the document is a string. -/
def SelectsStrings (selectors : List Selector) (doc : Value) : Prop :=
  ∀ selector ∈ selectors, ∀ path ∈ selector.resolve doc, ∀ value,
    doc.get? path = some value → ∃ text, value = .string text

/-- A pass over the strings leaves strings where the selectors find them, and nowhere else. -/
theorem SelectsStrings.mapTexts {selectors : List Selector} {doc : Value}
    (h : SelectsStrings selectors doc) (f : String → String) (selected : Path → Bool) :
    SelectsStrings selectors (doc.mapTexts f selected) := by
  intro selector hselector path hpath value hvalue
  rw [Selector.resolve_mapTexts] at hpath
  obtain ⟨location, hlocate⟩ := Value.exists_locate?_iff.2 (Option.isSome_of_eq_some hvalue)
  rw [Value.locate?_mapTexts] at hlocate
  rw [Value.get?_mapTexts hlocate] at hvalue
  obtain ⟨original, horiginal, rfl⟩ := Option.map_eq_some_iff.1 hvalue
  obtain ⟨text, rfl⟩ := h selector hselector path hpath original horiginal
  exact ⟨_, rfl⟩

/-- An edit at a string is a pass over the strings, the same for all combos. -/
theorem exists_editAt_eq_mapTexts {doc : Value} {path : Path}
    (h : ∀ value, doc.get? path = some value → ∃ text, value = .string text) (name : String)
    (value : Value) : ∃ (f : String → String) (selected : Path → Bool),
      ∀ combo, editAt combo name value doc path = doc.mapTexts f selected := by
  cases hfound : doc.get? path with
  | none =>
    refine ⟨id, fun _ => false, fun combo => ?_⟩
    have habsent : doc.update? (edit combo name value path) path = none := by
      rw [← Option.not_isSome_iff_eq_none, Value.update?_isSome_iff, Value.Has, hfound]
      simp
    rw [editAt, habsent, Value.mapTexts_none]
    rfl
  | some found =>
    obtain ⟨text, rfl⟩ := h found hfound
    obtain ⟨location, hlocate⟩ := Value.exists_locate?_iff.2 (Option.isSome_of_eq_some hfound)
    refine ⟨fun _ => replaceText name value text, fun q => location = q, fun combo => ?_⟩
    rw [editAt, Value.update?_eq_mapTexts hlocate hfound rfl]
    rfl

/-! ## The combo does not matter -/

section SelectsStrings

variable {selectors : List Selector} {template : Value}

/-- Edits along one selector. In every document on the way the selectors find what they find in the
template, so that each of the paths still leads to a string. -/
theorem editAlong_congr (h : SelectsStrings selectors template) {selector : Selector}
    (hselector : selector ∈ selectors) (combo combo' : Fields Value) (name : String)
    (value : Value) :
    editAlong combo name value template selector = editAlong combo' name value template selector ∧
      SelectsStrings selectors (editAlong combo name value template selector) := by
  unfold editAlong
  refine (List.foldl_rel (r := fun doc doc' => doc = doc' ∧ SelectsStrings selectors doc ∧
    ∀ selector : Selector, selector.resolve doc = selector.resolve template) ⟨rfl, h, fun _ => rfl⟩
    ?_).imp id And.left
  rintro path hpath doc _ ⟨rfl, hstrings, hresolve⟩
  rw [← hresolve selector] at hpath
  obtain ⟨f, selected, hedit⟩ :=
    exists_editAt_eq_mapTexts (hstrings selector hselector path hpath) name value
  rw [hedit, hedit]
  exact ⟨rfl, hstrings.mapTexts f selected,
    fun selector => (selector.resolve_mapTexts f selected doc).trans (hresolve selector)⟩

theorem applyVariable_congr (h : SelectsStrings selectors template) (combo combo' : Fields Value)
    (entry : String × Value) :
    applyVariable combo selectors template entry = applyVariable combo' selectors template entry ∧
      SelectsStrings selectors (applyVariable combo selectors template entry) := by
  unfold applyVariable
  refine List.foldl_rel (r := fun doc doc' => doc = doc' ∧ SelectsStrings selectors doc) ⟨rfl, h⟩ ?_
  rintro selector hselector doc _ ⟨rfl, hstrings⟩
  exact editAlong_congr hstrings hselector combo combo' entry.1 entry.2

/-- The combo from which the variables come does not matter, and what the selectors find in the end
are strings again. -/
theorem foldl_applyVariable_congr (h : SelectsStrings selectors template)
    (combo combo' fields : Fields Value) :
    fields.foldl (applyVariable combo selectors) template =
        fields.foldl (applyVariable combo' selectors) template ∧
      SelectsStrings selectors (fields.foldl (applyVariable combo selectors) template) := by
  refine List.foldl_rel (r := fun doc doc' => doc = doc' ∧ SelectsStrings selectors doc) ⟨rfl, h⟩ ?_
  rintro entry - doc _ ⟨rfl, hstrings⟩
  exact applyVariable_congr hstrings combo combo' entry

theorem SelectsStrings.substitute (h : SelectsStrings selectors template) (combo : Value) :
    SelectsStrings selectors (substitute selectors template combo) := by
  rw [substitute_eq_foldl]
  exact (foldl_applyVariable_congr h (fieldsOf combo) (fieldsOf combo) (fieldsOf combo)).2

/-- Two substitutions in a row are one with the variables of both. -/
theorem substitute_substitute (h : SelectsStrings selectors template) (first second : Value) :
    Generator.substitute selectors (Generator.substitute selectors template first) second =
      Generator.substitute selectors template (.mapping (fieldsOf first ++ fieldsOf second)) := by
  have hfirst := (foldl_applyVariable_congr h (fieldsOf first)
    (fieldsOf first ++ fieldsOf second) (fieldsOf first)).1
  have hsecond := (foldl_applyVariable_congr (h.substitute first) (fieldsOf second)
    (fieldsOf first ++ fieldsOf second) (fieldsOf second)).1
  rw [substitute_eq_foldl _ _ second, hsecond, substitute_eq_foldl, hfirst, substitute_eq_foldl,
    fieldsOf, List.foldl_append]

end SelectsStrings

/-! ## Generations -/

/-- The mapping of the fields of one combo with those of another written behind them. -/
def mergeCombos (first second : Value) : Value :=
  .mapping (Fields.ofEntries (fieldsOf first ++ fieldsOf second))

/-- The mergers of all pairs of combos, the first varying slowest. -/
def mergeAll (first second : List Value) : List Value :=
  first.flatMap fun combo => second.map (mergeCombos combo)

/-- Combos without a common name are merged by putting their fields together. -/
theorem mergeCombos_eq {first second : Value} (hfirst : (Fields.keys (fieldsOf first)).Nodup)
    (hsecond : (Fields.keys (fieldsOf second)).Nodup)
    (hapart : (Fields.keys (fieldsOf first)).Disjoint (Fields.keys (fieldsOf second))) :
    mergeCombos first second = .mapping (fieldsOf first ++ fieldsOf second) := by
  rw [mergeCombos, Fields.ofEntries_of_nodup]
  rw [Fields.keys, List.map_append]
  exact List.Nodup.append hfirst hsecond hapart

/-- What two products in a row make of the templates, when every substitution of the second product
goes on where one of the first has stopped. -/
theorem product_product {selectors : List Selector} {templates first second : List Value}
    (h : ∀ template ∈ templates, ∀ c ∈ first, ∀ d ∈ second,
      substitute selectors (substitute selectors template c) d =
        substitute selectors template (mergeCombos c d)) :
    product selectors (product selectors templates first) second =
      product selectors templates (mergeAll first second) := by
  simp only [product, mergeAll, List.flatMap_assoc, List.flatMap_map, List.map_flatMap,
    List.map_map]
  refine List.flatMap_congr fun template htemplate => List.flatMap_congr fun c hc => ?_
  exact List.map_congr_left fun d hd => h template htemplate c hc d hd

/-- **Two generations in a row are one.** If all that the expressions select in the templates are
strings, and no combo of the first generation has a name in common with one of the second, then
generating, making the results the templates and generating again gives what one generation gives
for the merged combos, in the same order. -/
theorem generate_adoptResults_generate {g : Generator} {paths : List String}
    {first second : List Value}
    (hstrings : ∀ template ∈ g.templates, SelectsStrings (paths.map Selector.ofText) template)
    (hfirst : ∀ combo ∈ first, (Fields.keys (fieldsOf combo)).Nodup)
    (hsecond : ∀ combo ∈ second, (Fields.keys (fieldsOf combo)).Nodup)
    (hapart : ∀ c ∈ first, ∀ d ∈ second,
      (Fields.keys (fieldsOf c)).Disjoint (Fields.keys (fieldsOf d))) :
    ((g.generate paths first).adoptResults.generate paths second).results =
      (g.generate paths (mergeAll first second)).results := by
  refine product_product fun template htemplate c hc d hd => ?_
  rw [substitute_substitute (hstrings template htemplate),
    mergeCombos_eq (hfirst c hc) (hsecond d hd) (hapart c hc d hd)]

/-- A card with two places to fill. -/
def card : Value :=
  .mapping [("to", .string "{{name}}, {{sign}}"), ("size", .null)]

/-- Combos for the first generation. One of the texts is itself a place to fill; the last combo has
no fields. -/
def cardNames : List Value :=
  [.mapping [("name", .string "Ann")], .mapping [("name", .string "{{sign}}")], .null]

/-- Combos for the second generation. -/
def cardSigns : List Value :=
  [.mapping [("sign", .string "Bo")], .mapping [("sign", .number (.integer 7))]]

theorem generate_adoptResults_generate_card :
    (∀ template ∈ [card], SelectsStrings (["to"].map Selector.ofText) template) ∧
    (∀ combo ∈ cardNames, (Fields.keys (fieldsOf combo)).Nodup) ∧
    (∀ combo ∈ cardSigns, (Fields.keys (fieldsOf combo)).Nodup) ∧
    (∀ c ∈ cardNames, ∀ d ∈ cardSigns,
      (Fields.keys (fieldsOf c)).Disjoint (Fields.keys (fieldsOf d))) ∧
    ((generate ⟨[card], []⟩ ["to"] cardNames).adoptResults.generate ["to"] cardSigns).results =
      (generate ⟨[card], []⟩ ["to"] (mergeAll cardNames cardSigns)).results ∧
    (generate ⟨[card], []⟩ ["to"] (mergeAll cardNames cardSigns)).results.map
        (fun doc => (doc.get? [.key "to"]).map Placeholder.replacement) =
      ["Ann, Bo", "Ann, 7", "Bo, Bo", "7, 7", "{{name}}, Bo", "{{name}}, 7"].map
        (fun text => some text.toList) := by
  have hresolve : (["to"].map Selector.ofText).flatMap (·.resolve card) = [[.key "to"]] := by
    decide +kernel
  have hstrings : ∀ template ∈ [card], SelectsStrings (["to"].map Selector.ofText) template := by
    intro template htemplate selector hselector path hpath value hvalue
    obtain rfl := List.mem_singleton.1 htemplate
    have hmem : path ∈ (["to"].map Selector.ofText).flatMap (·.resolve card) :=
      List.mem_flatMap.2 ⟨selector, hselector, hpath⟩
    rw [hresolve] at hmem
    obtain rfl := List.mem_singleton.1 hmem
    exact ⟨_, (Option.some.inj hvalue).symm⟩
  have hfirst : ∀ combo ∈ cardNames, (Fields.keys (fieldsOf combo)).Nodup := by
    simp [cardNames, fieldsOf, Fields.keys]
  have hsecond : ∀ combo ∈ cardSigns, (Fields.keys (fieldsOf combo)).Nodup := by
    simp [cardSigns, fieldsOf, Fields.keys]
  have hapart : ∀ c ∈ cardNames, ∀ d ∈ cardSigns,
      (Fields.keys (fieldsOf c)).Disjoint (Fields.keys (fieldsOf d)) := by
    simp [cardNames, cardSigns, fieldsOf, Fields.keys]
  exact ⟨hstrings, hfirst, hsecond, hapart,
    generate_adoptResults_generate hstrings hfirst hsecond hapart, by decide +kernel⟩

end Stencil.Generator
