import Stencil.Proofs.Generator.Frame
import Stencil.Proofs.Generator.Overlaps

/-!
# What becomes of a selected value that is no string

A value that is no string is overwritten by the entry of the combo that is named like its path, once
for every variable and every time that its place is found. From then on the entry stands there, and
is overwritten by itself, or is a text in which there is nothing to fill. The edits at other places
do not come near, if no alternative leads to a place around this one or inside it.

* `Selector.LevelWith`: steps that match no path above or below a path.
* `Selector.get?_modifyAt_of_levelWith`: such steps lead to the place itself or leave it alone.
* `HoldsAt`: a document that edits have reached, with a value of some kind at a place; one lemma for
  each loop of a substitution.
* `substitute_overwrites`: a selected value that is no string ends as the entry for its path.
-/

namespace Stencil

namespace Selector

/-! ## Steps that lead past a place -/

theorem Step.Finds.meets_self {step : Step} {found : Option Value} {segment : Segment}
    (h : step.Finds found segment) : step.Meets segment := by
  cases step with
  | literal key =>
    obtain rfl : segment = .key key := h
    rfl
  | each =>
    obtain ⟨position, _, rfl, -⟩ := h
    rfl

/-- Steps match the paths that they denote. -/
theorem matches_of_mem_resolveBelow {steps : List Step} {value : Option Value} {path : Path}
    (h : path ∈ resolveBelow value steps) : Matches steps path := by
  induction steps generalizing value path with
  | nil =>
    obtain rfl : path = [] := by simpa [resolveBelow] using h
    exact List.Forall₂.nil
  | cons step steps ih =>
    obtain ⟨segment, below, rfl, hfinds, hbelow⟩ := mem_resolveBelow_cons.1 h
    exact matches_cons hfinds.meets_self (ih hbelow)

/-- Whether steps match no beginning of a path and no path that goes on behind it. -/
structure LevelWith (steps : List Step) (path : Path) : Prop where
  above : ∀ r, r <+: path → r ≠ path → ¬Matches steps r
  below : ∀ r, path <+: r → r ≠ path → ¬Matches steps r

theorem LevelWith.tail {step : Step} {steps : List Step} {segment : Segment} {path : Path}
    (h : LevelWith (step :: steps) (segment :: path)) (hmeets : step.Meets segment) :
    LevelWith steps path where
  above r hr hne hmatch :=
    h.above (segment :: r) (by simpa using hr) (by simpa using hne) (matches_cons hmeets hmatch)
  below r hr hne hmatch :=
    h.below (segment :: r) (by simpa using hr) (by simpa using hne) (matches_cons hmeets hmatch)

/-- Steps of the same number as the segments of a path match no shorter and no longer path. -/
theorem levelWith_of_length_eq {steps : List Step} {path : Path}
    (h : steps.length = path.length) : LevelWith steps path where
  above _ hr hne hmatch := hne (hr.eq_of_length (hmatch.length_eq.symm.trans h))
  below _ hr hne hmatch := hne (hr.eq_of_length (h.symm.trans hmatch.length_eq)).symm

/-- **Steps that are level with a path lead to its place or leave it alone.** The steps were
resolved in `found`, and the edited `doc` has the shape of `found` above the path. -/
theorem get?_modifyAt_of_levelWith {f : Value → Value} {steps : List Step} {found doc : Value}
    {path p : Path} (hpath : path ∈ resolveBelow (some found) steps) (hlevel : LevelWith steps p)
    (hshape : ∀ r, r <+: p → r ≠ p →
      (found.get? r).map Value.shape = (doc.get? r).map Value.shape) :
    (doc.modifyAt f path).get? p = doc.get? p ∨
      path.map Segment.text = p.map Segment.text ∧
        (doc.modifyAt f path).get? p = (doc.get? p).map f := by
  induction steps generalizing found doc path p with
  | nil =>
    obtain rfl : path = [] := by simpa [resolveBelow] using hpath
    cases p with
    | nil => exact Or.inr ⟨rfl, rfl⟩
    | cons t p => exact absurd List.Forall₂.nil (hlevel.above [] List.nil_prefix (by simp))
  | cons step steps ih =>
    have hmatch := matches_of_mem_resolveBelow hpath
    obtain ⟨s, below, rfl, hfinds, hbelow⟩ := mem_resolveBelow_cons.1 hpath
    cases p with
    | nil => exact absurd hmatch (hlevel.below _ List.nil_prefix (by simp))
    | cons t p =>
      rw [Value.get?_cons, Value.get?_cons]
      by_cases hslot : doc.slot? s = doc.slot? t
      · rw [Value.child?_modifyAt_cons_of_eq hslot]
        cases hchild : doc.child? t with
        | none => exact Or.inl rfl
        | some child =>
          -- `t` reads a child in `found` as well, the one below which the rest was resolved
          have hroot : found.shape = doc.shape := by simpa using hshape [] List.nil_prefix (by simp)
          obtain ⟨child₀, hchild₀⟩ := Option.isSome_iff_exists.1
            ((Value.child?_isSome_of_shape hroot t).2 (Option.isSome_of_eq_some hchild))
          have hslot₀ : found.slot? s = found.slot? t := by
            simpa only [Value.slot?_eq_of_shape hroot] using hslot
          have hs₀ : found.child? s = some child₀ := (Value.child?_congr hslot₀).trans hchild₀
          have htext : s.text = t.text := by
            by_contra hne
            exact Value.slot?_ne_of_text_ne ((Value.child?_congr hslot).trans hchild) hne hslot
          have hrest := @ih child₀ child below p (by simpa [hs₀] using hbelow)
            (hlevel.tail (hfinds.meets hs₀ hslot₀.symm)) fun r hr hne => by
              simpa [hchild, hchild₀] using hshape (t :: r) (by simpa using hr) (by simpa using hne)
          refine hrest.imp id ?_
          rintro ⟨htexts, h⟩
          exact ⟨by simp [htext, htexts], h⟩
      · exact Or.inl (by rw [Value.child?_modifyAt_cons_of_ne hslot])

/-- Whether a path is denoted is told by the shapes above it. -/
theorem mem_resolveBelow_of_shape {steps : List Step} {v w : Option Value} {path : Path}
    (h : path ∈ resolveBelow v steps) (hshape : ∀ r, r <+: path → r ≠ path →
      (v.bind (Value.get? · r)).map Value.shape = (w.bind (Value.get? · r)).map Value.shape) :
    path ∈ resolveBelow w steps := by
  induction steps generalizing v w path with
  | nil => exact h
  | cons step steps ih =>
    obtain ⟨s, below, rfl, hfinds, hbelow⟩ := mem_resolveBelow_cons.1 h
    refine mem_resolveBelow_cons.2 ⟨s, below, rfl, ?_, ih hbelow fun r hr hne => ?_⟩
    · cases step with
      | literal key => exact hfinds
      | each =>
        obtain ⟨position, items, rfl, rfl, hlt⟩ := hfinds
        have hroot := hshape [] List.nil_prefix (by simp)
        cases w with
        | none => simp at hroot
        | some w =>
          cases w with
          | sequence items' =>
            have hlength : items.length = items'.length := by simpa [Value.shape] using hroot
            exact ⟨position, items', rfl, rfl, hlength ▸ hlt⟩
          | _ => simp [Value.shape] at hroot
    · have hnext := hshape (s :: r) (by simpa using hr) (by simpa using hne)
      simpa only [Value.get?_cons, Option.bind_assoc] using hnext

end Selector

namespace Generator

open Selector

section HoldsAt

variable {selectors : List Selector} {template : Value} {p : Path}

/-- The steps of all selectors are level with a path. -/
def AllLevelWith (selectors : List Selector) (p : Path) : Prop :=
  ∀ selector ∈ selectors, ∀ steps ∈ selector.steps, LevelWith steps p

theorem Reaches.shape_eq_above {doc : Value} (h : Reaches selectors template doc)
    (hlevel : AllLevelWith selectors p) {r : Path} (hr : r <+: p) (hne : r ≠ p) :
    (doc.get? r).map Value.shape = (template.get? r).map Value.shape := by
  refine h.shape_eq (fun selector hs steps hsteps r' hr' => ?_) r (List.prefix_refl r)
  refine (hlevel selector hs steps hsteps).above r' (hr'.trans hr) ?_
  rintro rfl
  exact hne (hr.eq_of_length_le hr'.length_le)

/-- A path that is found in the template is found in every document reached. -/
theorem Reaches.mem_resolve {doc : Value} (h : Reaches selectors template doc)
    (hlevel : AllLevelWith selectors p) {selector : Selector} (hp : p ∈ selector.resolve template) :
    p ∈ selector.resolve doc := by
  obtain ⟨steps, hsteps, hmem⟩ := List.mem_flatMap.1 hp
  refine List.mem_flatMap.2 ⟨steps, hsteps, mem_resolveBelow_of_shape hmem fun r hr hne => ?_⟩
  exact (h.shape_eq_above hlevel hr hne).symm

/-- A document that edits along the selectors have reached, with a value of some kind at a path. -/
structure HoldsAt (selectors : List Selector) (template : Value) (p : Path) (kind : Value → Prop)
    (doc : Value) : Prop where
  reaches : Reaches selectors template doc
  value : ∃ value, doc.get? p = some value ∧ kind value

variable {combo : Fields Value} {kind : Value → Prop} (hlevel : AllLevelWith selectors p)

namespace HoldsAt

variable {doc : Value} (h : HoldsAt selectors template p kind doc)

include hlevel h

/-- An edit at a path that has been found leaves the value at `p` alone or edits it. -/
theorem editAt {found : Value} {selector : Selector} {path : Path} {name : String} {value : Value}
    (hkind : ∀ v, kind v → kind (edit combo name value p v))
    (hfound : Reaches selectors template found) (hs : selector ∈ selectors)
    (hpath : path ∈ selector.resolve found) :
    HoldsAt selectors template p kind (Generator.editAt combo name value doc path) := by
  refine ⟨.edit _ hfound h.reaches hs hpath, ?_⟩
  obtain ⟨steps, hsteps, hmem⟩ := List.mem_flatMap.1 hpath
  obtain ⟨v, hv, hkindv⟩ := h.value
  have hcases := get?_modifyAt_of_levelWith (f := edit combo name value path) hmem
    (hlevel selector hs steps hsteps) fun r hr hne =>
      (hfound.shape_eq_above hlevel hr hne).trans (h.reaches.shape_eq_above hlevel hr hne).symm
  rw [editAt_eq_modifyAt]
  rcases hcases with hsame | ⟨htext, hedit⟩
  · exact ⟨v, hsame.trans hv, hkindv⟩
  · rw [edit_of_text_eq htext] at hedit ⊢
    rw [hv] at hedit
    exact ⟨_, hedit, hkind v hkindv⟩

theorem editAlong {selector : Selector} {name : String} {value : Value}
    (hkind : ∀ v, kind v → kind (edit combo name value p v)) (hs : selector ∈ selectors) :
    HoldsAt selectors template p kind (Generator.editAlong combo name value doc selector) := by
  unfold Generator.editAlong
  exact List.foldlRecOn _ _ h fun _ hb _ hpath => hb.editAt hlevel hkind h.reaches hs hpath

theorem applyVariable {entry : String × Value}
    (hkind : ∀ v, kind v → kind (edit combo entry.1 entry.2 p v)) :
    HoldsAt selectors template p kind (Generator.applyVariable combo selectors doc entry) := by
  unfold Generator.applyVariable
  exact List.foldlRecOn _ _ h fun _ hb _ hs => hb.editAlong hlevel hkind hs

end HoldsAt

/-! ## The value that ends at the place -/

/-- The entry of a combo that is named like a path, or null. -/
def entryFor (combo : Fields Value) (p : Path) : Value :=
  (Fields.get? p.text combo).getD .null

/-- Whether any edit for the combo turns a value at a path into the entry for the path. -/
def Overwritable (combo : Fields Value) (p : Path) (value : Value) : Prop :=
  ∀ field ∈ combo, edit combo field.1 field.2 p value = entryFor combo p

theorem overwritable_of_ne_string {value : Value} (h : ∀ text, value ≠ .string text)
    (combo : Fields Value) (p : Path) : Overwritable combo p value := by
  intro field _
  cases value with
  | string text => exact absurd rfl (h text)
  | _ => rfl

/-- A text without a placeholder of the combo stays as it is, so it is overwritten by itself. -/
theorem overwritable_entryFor {combo : Fields Value} {p : Path}
    (h : ∀ text, Fields.get? p.text combo = some (.string text) →
      ∀ name ∈ Fields.keys combo, ¬Placeholder.token name <:+: text.toList) :
    Overwritable combo p (entryFor combo p) := by
  intro field hfield
  cases hentry : entryFor combo p with
  | string text =>
    have hget : Fields.get? p.text combo = some (.string text) := by
      cases hget : Fields.get? p.text combo <;> simp_all [entryFor]
    have hnot := h text hget field.1 (List.mem_map_of_mem hfield)
    exact edit_string_of_settled p fun hinfix => absurd hinfix hnot
  | _ => exact hentry

/-- A run that keeps a property of its state, and at one of its steps gains another one that it
keeps as well, ends with the other one. -/
theorem foldl_gains {σ α : Type} {pending done : σ → Prop} {step : σ → α → σ} {l : List α} {a : α}
    (ha : a ∈ l) (hpending : ∀ s, pending s → ∀ b ∈ l, pending (step s b))
    (hgain : ∀ s, pending s → done (step s a)) (hdone : ∀ s, done s → ∀ b ∈ l, done (step s b))
    {s : σ} (hs : pending s) : done (l.foldl step s) := by
  obtain ⟨before, after, rfl⟩ := List.append_of_mem ha
  rw [List.foldl_append, List.foldl_cons]
  have hbefore : pending (before.foldl step s) :=
    List.foldlRecOn _ _ hs fun s h b hb => hpending s h b (List.mem_append_left _ hb)
  exact List.foldlRecOn _ _ (hgain _ hbefore) fun s h b hb =>
    hdone s h b (List.mem_append_right _ (List.mem_cons_of_mem _ hb))

section Overwritable

variable (hentry : Overwritable combo p (entryFor combo p)) {field : String × Value}
  (hfield : field ∈ combo)

include hentry hfield

theorem overwritable_edit (v : Value) (h : Overwritable combo p v) :
    Overwritable combo p (edit combo field.1 field.2 p v) := by
  rwa [h field hfield]

theorem edit_eq_entryFor (v : Value) (h : v = entryFor combo p) :
    edit combo field.1 field.2 p v = entryFor combo p := by
  rw [h, hentry field hfield]

end Overwritable

/-- A document reached in which the value at `p` is still to be overwritten. -/
abbrev Pending (selectors : List Selector) (template : Value) (p : Path) (combo : Fields Value) :
    Value → Prop :=
  HoldsAt selectors template p (Overwritable combo p)

/-- A document reached in which the entry for `p` stands there. -/
abbrev Overwritten (selectors : List Selector) (template : Value) (p : Path)
    (combo : Fields Value) : Value → Prop :=
  HoldsAt selectors template p (· = entryFor combo p)

section overwritten

variable {selector : Selector} (hs : selector ∈ selectors) (hp : p ∈ selector.resolve template)
  (hentry : Overwritable combo p (entryFor combo p))

include hlevel hs hp

/-- The edit at the place itself. -/
theorem overwritten_editAt {field : String × Value} (hfield : field ∈ combo) {doc : Value}
    (h : Pending selectors template p combo doc) :
    Overwritten selectors template p combo (editAt combo field.1 field.2 doc p) := by
  obtain ⟨v, hv, hoverwritable⟩ := h.value
  refine ⟨.edit _ h.reaches h.reaches hs (h.reaches.mem_resolve hlevel hp), _, ?_, rfl⟩
  have hget := Value.get?_modifyAt_append (edit combo field.1 field.2 p) doc p []
  rw [List.append_nil, hv, Option.map_some, Value.modifyAt_nil, hoverwritable field hfield] at hget
  exact hget

include hentry

/-- The edits along a selector that finds the place. -/
theorem overwritten_editAlong {field : String × Value} (hfield : field ∈ combo) {doc : Value}
    (h : Pending selectors template p combo doc) :
    Overwritten selectors template p combo (editAlong combo field.1 field.2 doc selector) := by
  refine foldl_gains (h.reaches.mem_resolve hlevel hp) (fun doc' h' path hpath => ?_)
    (fun doc' h' => overwritten_editAt hlevel hs hp hfield h') (fun doc' h' path hpath => ?_) h
  · exact h'.editAt hlevel (overwritable_edit hentry hfield) h.reaches hs hpath
  · exact h'.editAt hlevel (edit_eq_entryFor hentry hfield) h.reaches hs hpath

/-- One variable, along all selectors. -/
theorem overwritten_applyVariable {field : String × Value} (hfield : field ∈ combo) {doc : Value}
    (h : Pending selectors template p combo doc) :
    Overwritten selectors template p combo (applyVariable combo selectors doc field) := by
  refine foldl_gains hs (fun doc' h' selector' hs' => ?_)
    (fun doc' h' => overwritten_editAlong hlevel hs hp hentry hfield h')
    (fun doc' h' selector' hs' => ?_) h
  · exact h'.editAlong hlevel (overwritable_edit hentry hfield) hs'
  · exact h'.editAlong hlevel (edit_eq_entryFor hentry hfield) hs'

/-- All variables of a combo that has some. -/
theorem overwritten_substitute (hcombo : combo ≠ []) {value : Value}
    (hvalue : template.get? p = some value) (hstring : ∀ text, value ≠ .string text) :
    Overwritten selectors template p combo (substitute selectors template (.mapping combo)) := by
  obtain ⟨field, hfield⟩ := List.exists_mem_of_ne_nil combo hcombo
  refine foldl_gains hfield (fun doc h field' hfield' => ?_)
    (fun doc h => overwritten_applyVariable hlevel hs hp hentry hfield h)
    (fun doc h field' hfield' => ?_)
    ⟨.refl, value, hvalue, overwritable_of_ne_string hstring combo p⟩
  · exact h.applyVariable hlevel (overwritable_edit hentry hfield')
  · exact h.applyVariable hlevel (edit_eq_entryFor hentry hfield')

end overwritten

end HoldsAt

/-- **A selected value that is no string ends as the entry for its path.** Let a path expression find
a path in the template, at which there is no string, and let no alternative match a path around that
place or inside it. Then the document made with a combo that has fields holds there the entry of the
combo that is named like the path, or null if there is none, provided that the entry is no text in
which there is something to fill. A combo without fields changes nothing. -/
theorem substitute_overwrites (paths : List String) (template : Value) :
    (∀ (combo : Fields Value) (p : Path), combo ≠ [] →
      (∃ path ∈ paths, p ∈ (Selector.ofText path).resolve template) →
      (∃ value, template.get? p = some value ∧ ∀ text, value ≠ .string text) →
      (∀ alternative ∈ alternativesOf paths, LevelWith (stepsOfText alternative) p) →
      (∀ text, Fields.get? p.text combo = some (.string text) →
        ∀ name ∈ Fields.keys combo, ¬Placeholder.token name <:+: text.toList) →
      (substitute (paths.map Selector.ofText) template (.mapping combo)).get? p =
        some ((Fields.get? p.text combo).getD .null)) ∧
    (∀ combo : Value, (∀ fields, combo = .mapping fields → fields = []) →
      substitute (paths.map Selector.ofText) template combo = template) := by
  refine ⟨?_, fun combo hcombo => ?_⟩
  · rintro combo p hcombo ⟨path, hpath, hp⟩ ⟨value, hvalue, hstring⟩ hlevel hfree
    have hall : AllLevelWith (paths.map Selector.ofText) p := fun selector hs steps hsteps => by
      obtain ⟨alternative, halternative, rfl⟩ := exists_of_mem_steps hs hsteps
      exact hlevel alternative halternative
    obtain ⟨-, entry, hget, rfl⟩ := overwritten_substitute hall (List.mem_map_of_mem hpath) hp
      (overwritable_entryFor hfree) hcombo hvalue hstring
    exact hget
  · cases combo with
    | mapping fields =>
      obtain rfl := hcombo fields rfl
      rfl
    | _ => rfl

/-- A table of two rows with a note. -/
def table : Value :=
  .mapping [("rows", .sequence [.null, .mapping [("paid", .bool true)]]),
    ("head", .mapping [("note", .string "{{name}}")])]

/-- Expressions of which two find the second row. -/
def tablePaths : List String :=
  ["rows.@each", "\x7bhead,foot\x7d.note", "rows.1"]

/-- A combo with an entry for the second row that looks like a text to fill. -/
def tableCombo : Fields Value :=
  [("name", .string "Ann"), ("rows.1", .string "{{guest}}")]

theorem substitute_overwrites_table :
    let p : Path := [.key "rows", .index 1]
    (tableCombo ≠ [] ∧
      (∃ path ∈ tablePaths, p ∈ (Selector.ofText path).resolve table) ∧
      (∃ value, table.get? p = some value ∧ ∀ text, value ≠ .string text) ∧
      (∀ alternative ∈ alternativesOf tablePaths, LevelWith (stepsOfText alternative) p) ∧
      ∀ text, Fields.get? p.text tableCombo = some (.string text) →
        ∀ name ∈ Fields.keys tableCombo, ¬Placeholder.token name <:+: text.toList) ∧
    (substitute (tablePaths.map Selector.ofText) table (.mapping tableCombo)).get? p =
      some (.string "{{guest}}") := by
  intro p
  have hfound : ∃ path ∈ tablePaths, p ∈ (Selector.ofText path).resolve table :=
    ⟨"rows.@each", by decide, by decide +kernel⟩
  have hvalue : ∃ value, table.get? p = some value ∧ ∀ text, value ≠ .string text :=
    ⟨.mapping [("paid", .bool true)], rfl, by simp⟩
  have hlength : ∀ alternative ∈ alternativesOf tablePaths, (stepsOfText alternative).length = 2 := by
    decide +kernel
  have hlevel : ∀ alternative ∈ alternativesOf tablePaths, LevelWith (stepsOfText alternative) p :=
    fun alternative h => levelWith_of_length_eq (hlength alternative h)
  have hname : p.text = "rows.1" := by decide +kernel
  have hentry : Fields.get? p.text tableCombo = some (.string "{{guest}}") := by
    rw [hname]
    rfl
  have hfree : ∀ text, Fields.get? p.text tableCombo = some (.string text) →
      ∀ name ∈ Fields.keys tableCombo, ¬Placeholder.token name <:+: text.toList := by
    intro text htext
    obtain rfl : "{{guest}}" = text := by simpa [hentry] using htext
    decide +kernel
  have hget := (substitute_overwrites tablePaths table).1 tableCombo p (List.cons_ne_nil _ _) hfound
    hvalue hlevel hfree
  rw [hentry] at hget
  exact ⟨⟨List.cons_ne_nil _ _, hfound, hvalue, hlevel, hfree⟩, hget⟩

end Generator

end Stencil
