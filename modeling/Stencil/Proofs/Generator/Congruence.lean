import Stencil.Generator.Bench
import Stencil.Proofs.Value.Equality

/-!
# The order of fields does not matter to a generator

Generators whose templates and results are alike, place by place, stay so when the same is done to
both: what a selector finds, what an edit, a rename and a structural deduplication make of a document
is told by its keys, not by their order. Only combos must be the same in both, field by field, since
their order is the order in which variables are applied, and their compact texts are filled in.

* `Value.Alike.resolve`: a selector finds the same paths in alike documents.
* `Value.Alike.substitute`, `Value.Alike.renameValue`: what is made of alike documents is alike.
* `Generator.keepStructural_alike`: of alike lists the same places are kept.
* `Bench.perform_alike`, `Bench.performAll_alike`: one operation, and all histories.
* `Bench.performAll_take_equal`: structurally equal generators are so after every step.
-/

namespace Stencil

/-! ## Selectors -/

namespace Selector

theorem flatMap_zipIdx_congr {α β γ : Type} {R : α → β → Prop} {f : α × Nat → List γ}
    {g : β × Nat → List γ} {xs : List α} {ys : List β} (h : List.Forall₂ R xs ys)
    (hitem : ∀ x y i, R x y → f (x, i) = g (y, i)) (k : Nat) :
    (xs.zipIdx k).flatMap f = (ys.zipIdx k).flatMap g := by
  induction h generalizing k with
  | nil => rfl
  | cons hxy _ ih => simp only [List.zipIdx_cons, List.flatMap_cons, hitem _ _ k hxy, ih]

/-- The steps denote the same paths in alike values. -/
theorem resolveBelow_alike {v w : Option Value} (h : Option.Rel Value.Alike v w)
    (steps : List Step) : resolveBelow v steps = resolveBelow w steps := by
  induction steps generalizing v w with
  | nil => rfl
  | cons step rest ih =>
    cases step with
    | literal key =>
      have hchild := Value.optionRel_bind h fun _ _ h => h.child? (.key key)
      simp only [resolveBelow, ih hchild]
    | each =>
      cases h with
      | none => rfl
      | some h =>
        cases h with
        | sequence hlength h =>
          refine flatMap_zipIdx_congr (Value.alike_sequence_iff.1 (.sequence hlength h)) ?_ 0
          exact fun x y i hxy => congrArg (List.map (Segment.index i :: ·)) (ih (.some hxy))
        | _ => rfl

end Selector

/-! ## Renaming one field -/

namespace Generator

variable {fields : Fields Value} (hkeys : (Fields.keys fields).Nodup) (pair : String × String)

include hkeys

theorem nodup_keys_renameField : (Fields.keys (renameField fields pair)).Nodup := by
  rw [renameField]
  split
  · exact hkeys
  · split
    · exact Fields.nodup_keys_insert (Fields.nodup_keys_erase hkeys pair.1) pair.2 _
    · exact hkeys

/-- What a key finds after a rename: nothing under the old name, under the new name what was under
the old one, if there was something, and the same as before under all others. -/
theorem get?_renameField (key : String) :
    Fields.get? key (renameField fields pair) =
      if pair.1 = pair.2 then Fields.get? key fields
      else if key = pair.1 then none
      else if key = pair.2 then (Fields.get? pair.1 fields).or (Fields.get? pair.2 fields)
      else Fields.get? key fields := by
  by_cases hpair : pair.1 = pair.2
  · rw [renameField, if_pos hpair, if_pos hpair]
  rw [if_neg hpair]
  cases hbefore : Fields.get? pair.1 fields with
  | none =>
    have hrename : renameField fields pair = fields := by rw [renameField, if_neg hpair, hbefore]
    rw [hrename, Option.none_or]
    by_cases hold : key = pair.1
    · rw [if_pos hold, hold, hbefore]
    · by_cases hnew : key = pair.2
      · rw [if_neg hold, if_pos hnew, hnew]
      · rw [if_neg hold, if_neg hnew]
  | some value =>
    have hrename : renameField fields pair = (Fields.erase pair.1 fields).insert pair.2 value := by
      rw [renameField, if_neg hpair, hbefore]
    rw [hrename, Option.some_or]
    by_cases hold : key = pair.1
    · rw [if_pos hold, hold, Fields.get?_insert_of_ne hpair, Fields.get?_erase_self hkeys]
    · by_cases hnew : key = pair.2
      · rw [if_neg hold, if_pos hnew, hnew, Fields.get?_insert_self]
      · rw [if_neg hold, if_neg hnew, Fields.get?_insert_of_ne hnew,
          Fields.get?_erase_of_ne hkeys _ hold]

end Generator

namespace Value.Alike

variable {v w : Value}

theorem resolve (h : v.Alike w) (selector : Selector) : selector.resolve v = selector.resolve w := by
  simp only [Selector.resolve, Selector.resolveSteps, Selector.resolveBelow_alike (.some h)]

/-! ## Substitution -/

theorem edit (h : v.Alike w) {combo : Fields Value}
    (hcombo : ∀ field ∈ combo, field.2.KeysDistinct) (name : String) (value : Value) (path : Path) :
    (Generator.edit combo name value path v).Alike (Generator.edit combo name value path w) := by
  have hentry : ((Fields.get? path.text combo).getD .null).KeysDistinct := by
    cases hfound : Fields.get? path.text combo with
    | none => exact .null
    | some entry => exact hcombo _ (Fields.mem_of_get? hfound)
  cases h with
  | string text => exact .string _
  | _ => exact hentry.alike_self

section substitute

variable {combo : Fields Value} (hcombo : ∀ field ∈ combo, field.2.KeysDistinct)

include hcombo

theorem editAt (h : v.Alike w) (name : String) (value : Value) (path : Path) :
    (Generator.editAt combo name value v path).Alike (Generator.editAt combo name value w path) := by
  have hedit := fun x y (hxy : Alike x y) => hxy.edit hcombo name value path
  exact optionRel_getD (h.update? hedit path) h

theorem editAlong (h : v.Alike w) (name : String) (value : Value) (selector : Selector) :
    (Generator.editAlong combo name value v selector).Alike
      (Generator.editAlong combo name value w selector) := by
  rw [Generator.editAlong, Generator.editAlong, h.resolve selector]
  exact List.foldl_rel h fun path _ v w h => h.editAt hcombo name value path

theorem applyVariable (h : v.Alike w) (selectors : List Selector) (entry : String × Value) :
    (Generator.applyVariable combo selectors v entry).Alike
      (Generator.applyVariable combo selectors w entry) :=
  List.foldl_rel h fun selector _ _ _ h => h.editAlong hcombo entry.1 entry.2 selector

end substitute

theorem substitute (h : v.Alike w) (selectors : List Selector) {combo : Value}
    (hcombo : combo.KeysDistinct) :
    (Generator.substitute selectors v combo).Alike (Generator.substitute selectors w combo) := by
  cases hcombo with
  | mapping _ hvalues =>
    exact List.foldl_rel h fun entry _ _ _ h => h.applyVariable hvalues selectors entry
  | _ => exact h

/-! ## Renaming -/

/-- A rename finds the same value in alike mappings and writes it to the same key. -/
theorem renameField {fs gs : Fields Value} (h : (Value.mapping fs).Alike (Value.mapping gs))
    (pair : String × String) :
    (Value.mapping (Generator.renameField fs pair)).Alike (Value.mapping (Generator.renameField gs pair)) := by
  obtain ⟨hfs, hgs, hvalues⟩ := alike_mapping_iff.1 h
  refine alike_mapping_iff.2 ⟨Generator.nodup_keys_renameField hfs pair,
    Generator.nodup_keys_renameField hgs pair, fun key => ?_⟩
  rw [Generator.get?_renameField hfs, Generator.get?_renameField hgs]
  split
  · exact hvalues key
  · split
    · exact .none
    · split
      · exact optionRel_or (hvalues pair.1) (hvalues pair.2)
      · exact hvalues key

theorem renameValue (h : v.Alike w) (pairs : List (String × String)) :
    (Generator.renameValue pairs v).Alike (Generator.renameValue pairs w) := by
  cases h with
  | @mapping fs gs hfs hgs hkeys h =>
    exact List.foldl_rel (r := fun fs gs => (Value.mapping fs).Alike (Value.mapping gs))
      (.mapping hfs hgs hkeys h) fun pair _ _ _ h => h.renameField pair
  | sequence hlength h => exact .sequence hlength h
  | null => exact .null
  | bool value => exact .bool value
  | number h => exact .number h
  | string text => exact .string text

end Value.Alike

namespace Generator

/-! ## Lists of values -/

variable {g h : Generator} {values values' : List Value}

/-- The values of two lists are alike, place by place. -/
abbrev ListAlike : List Value → List Value → Prop :=
  List.Forall₂ Value.Alike

theorem allDocuments_congr (halike : ListAlike values values') :
    Value.AllDocuments values ↔ Value.AllDocuments values' := by
  induction halike with
  | nil => exact Iff.rfl
  | cons h _ ih =>
    simp only [Value.AllDocuments, List.forall_mem_cons] at ih ⊢
    rw [h.isDocument_iff, ih]

theorem product_alike (selectors : List Selector) {combos : List Value}
    (hcombos : ∀ combo ∈ combos, combo.KeysDistinct) (halike : ListAlike values values') :
    ListAlike (product selectors values combos) (product selectors values' combos) := by
  induction halike with
  | nil => exact .nil
  | cons h _ ih =>
    simp only [product, List.flatMap_cons]
    refine List.rel_append ?_ ih
    rw [List.forall₂_map_left_iff, List.forall₂_map_right_iff, List.forall₂_same]
    exact fun combo hcombo => h.substitute selectors (hcombos combo hcombo)

theorem map_renameValue_alike (pairs : List (String × String)) (halike : ListAlike values values') :
    ListAlike (values.map (renameValue pairs)) (values'.map (renameValue pairs)) :=
  List.rel_map (fun _ _ h => h.renameValue pairs) halike

theorem any_equal_congr {value value' : Value} (halike : ListAlike values values')
    (hvalue : value.Alike value') :
    values.any (·.equal value) = values'.any (·.equal value') := by
  induction halike with
  | nil => rfl
  | cons h _ ih => rw [List.any_cons, List.any_cons, h.equal_congr hvalue, ih]

/-- Of alike lists the same places are kept. -/
theorem keepStructural_alike {kept kept' : List Value} (hkept : ListAlike kept kept')
    (halike : ListAlike values values') :
    ListAlike (keepStructural kept values) (keepStructural kept' values') := by
  induction halike generalizing kept kept' with
  | nil => exact hkept
  | cons h _ ih =>
    rw [keepStructural, keepStructural, any_equal_congr hkept h]
    split
    · exact ih hkept
    · exact ih (List.rel_append hkept (.cons h .nil))

/-! ## Generators -/

/-- In no template and no result a mapping has a key twice. -/
structure KeysDistinct (g : Generator) : Prop where
  templates : ∀ value ∈ g.templates, value.KeysDistinct
  results : ∀ value ∈ g.results, value.KeysDistinct

/-- The templates and the results of two generators are alike, place by place. -/
structure Alike (g h : Generator) : Prop where
  templates : ListAlike g.templates h.templates
  results : ListAlike g.results h.results

theorem alike_empty : empty.Alike empty :=
  ⟨.nil, .nil⟩

/-- Lists of values with distinct keys are alike when they are structurally equal. -/
theorem listAlike_iff : ListAlike values values' ↔
    (∀ value ∈ values, value.KeysDistinct) ∧ (∀ value ∈ values', value.KeysDistinct) ∧
      Value.equalItems values values' = true := by
  induction values generalizing values' with
  | nil => cases values' <;> simp [ListAlike, Value.equalItems]
  | cons value rest ih =>
    cases values' with
    | nil => simp [ListAlike, Value.equalItems]
    | cons value' rest' =>
      simp only [List.forall₂_cons, Value.alike_iff, ih, List.forall_mem_cons, Value.equalItems,
        Bool.and_eq_true]
      tauto

/-- Generators with distinct keys are alike when they are structurally equal. -/
theorem alike_iff : g.Alike h ↔ g.KeysDistinct ∧ h.KeysDistinct ∧ g.equal h = true := by
  simp only [equal, Bool.and_eq_true]
  constructor
  · rintro ⟨htemplates, hresults⟩
    rw [listAlike_iff] at htemplates hresults
    exact ⟨⟨htemplates.1, hresults.1⟩, ⟨htemplates.2.1, hresults.2.1⟩, htemplates.2.2, hresults.2.2⟩
  · rintro ⟨hg, hh, htemplates, hresults⟩
    exact ⟨listAlike_iff.2 ⟨hg.templates, hh.templates, htemplates⟩,
      listAlike_iff.2 ⟨hg.results, hh.results, hresults⟩⟩

namespace Alike

theorem setTemplates (halike : g.Alike h) (htemplates : ListAlike values values') :
    (g.setTemplates values).Alike (h.setTemplates values') := by
  simp only [Generator.setTemplates, allDocuments_congr htemplates]
  split
  · exact ⟨htemplates, halike.results⟩
  · exact halike

theorem generate (halike : g.Alike h) (paths : List String) {combos : List Value}
    (hcombos : ∀ combo ∈ combos, combo.KeysDistinct) :
    (g.generate paths combos).Alike (h.generate paths combos) :=
  ⟨halike.templates, product_alike _ hcombos halike.templates⟩

theorem concat (halike : g.Alike h) (hdocuments : ListAlike values values') :
    (g.concat values).Alike (h.concat values') := by
  simp only [Generator.concat, allDocuments_congr hdocuments]
  split
  · exact ⟨halike.templates, List.rel_append halike.results hdocuments⟩
  · exact halike

theorem concatValue (halike : g.Alike h) {value value' : Value} (hvalue : value.Alike value') :
    (g.concatValue value).Alike (h.concatValue value') := by
  cases hvalue with
  | sequence hlength hitems =>
    exact halike.concat (Value.alike_sequence_iff.1 (.sequence hlength hitems))
  | _ => exact halike

theorem concatResults (halike : g.Alike h) {g' h' : Generator} (halike' : g'.Alike h') :
    (g.concatResults g').Alike (h.concatResults h') :=
  ⟨halike.templates, List.rel_append halike.results halike'.results⟩

theorem rename (halike : g.Alike h) (pairs : List (String × String)) :
    (g.rename pairs).Alike (h.rename pairs) :=
  ⟨halike.templates, map_renameValue_alike pairs halike.results⟩

theorem dedup (halike : g.Alike h) : (g.dedup .structural).Alike (h.dedup .structural) :=
  ⟨halike.templates, keepStructural_alike .nil halike.results⟩

theorem adoptResults (halike : g.Alike h) : g.adoptResults.Alike h.adoptResults :=
  ⟨halike.results, .nil⟩

theorem clearResults (halike : g.Alike h) : g.clearResults.Alike h.clearResults :=
  ⟨halike.templates, .nil⟩

theorem clearTemplates (halike : g.Alike h) : g.clearTemplates.Alike h.clearTemplates :=
  ⟨.nil, halike.results⟩

end Alike

end Generator

/-! ## Histories -/

/-- Two operations do the same when one can be had from the other by replacing documents that it
brings along by alike ones. Combos stay as they are, their fields being variables in order, and so
do not come from other generators; nor are results dropped for their compact texts. -/
inductive Operation.Alike : Operation → Operation → Prop
  | create {xs ys : List Value} :
    Generator.ListAlike xs ys → Alike (.create xs) (.create ys)
  | setTemplates {xs ys : List Value} :
    Generator.ListAlike xs ys → Alike (.setTemplates xs) (.setTemplates ys)
  | generate (paths : List String) {combos : List Value} :
    (∀ combo ∈ combos, combo.KeysDistinct) →
    Alike (.generate paths (.listed combos)) (.generate paths (.listed combos))
  | generateValue (paths : List String) {value : Value} :
    value.KeysDistinct → Alike (.generate paths (.value value)) (.generate paths (.value value))
  | concat {xs ys : List Value} :
    Generator.ListAlike xs ys → Alike (.concat (.listed xs)) (.concat (.listed ys))
  | concatValue {v w : Value} : v.Alike w → Alike (.concat (.value v)) (.concat (.value w))
  | concatResults (name : String) : Alike (.concat (.results name)) (.concat (.results name))
  | rename (pairs : List (String × String)) : Alike (.rename pairs) (.rename pairs)
  | dedup : Alike (.dedup .structural) (.dedup .structural)
  | adoptResults : Alike .adoptResults .adoptResults
  | clearResults : Alike .clearResults .clearResults
  | clearTemplates : Alike .clearTemplates .clearTemplates
  | copy (name : String) : Alike (.copy name) (.copy name)
  | takeResults : Alike .takeResults .takeResults

namespace Bench

variable {bench bench' : Bench}

theorem keysDistinct_combosOfValue {value : Value} (h : value.KeysDistinct) :
    ∀ combo ∈ Generator.combosOfValue value, combo.KeysDistinct := by
  cases value with
  | sequence items =>
    cases h with
    | sequence hitems => exact hitems
  | _ => exact fun combo hcombo => List.mem_singleton.1 hcombo ▸ h

/-- Operations that do the same make alike generators of alike ones. -/
theorem apply_alike (hbench : ∀ name, (bench.generator name).Alike (bench'.generator name))
    {g h : Generator} (halike : g.Alike h) {operation operation' : Operation}
    (hoperation : operation.Alike operation') :
    (bench.apply g operation).Alike (bench'.apply h operation') := by
  cases hoperation with
  | create htemplates => exact Generator.alike_empty.setTemplates htemplates
  | setTemplates htemplates => exact halike.setTemplates htemplates
  | generate paths hcombos => exact halike.generate paths hcombos
  | generateValue paths hvalue => exact halike.generate paths (keysDistinct_combosOfValue hvalue)
  | concat hdocuments => exact halike.concat hdocuments
  | concatValue hvalue => exact halike.concatValue hvalue
  | concatResults name => exact halike.concatResults (hbench name)
  | rename pairs => exact halike.rename pairs
  | dedup => exact halike.dedup
  | adoptResults => exact halike.adoptResults
  | clearResults => exact halike.clearResults
  | clearTemplates => exact halike.clearTemplates
  | copy name => exact hbench name
  | takeResults => exact Generator.alike_empty

/-- One operation on either bench leaves all generators alike. -/
theorem perform_alike (hbench : ∀ name, (bench.generator name).Alike (bench'.generator name))
    (name : String) {operation operation' : Operation} (hoperation : operation.Alike operation')
    (other : String) :
    ((bench.perform name operation).generator other).Alike
      ((bench'.perform name operation').generator other) := by
  by_cases hother : other = name
  · rw [hother, generator_perform_self, generator_perform_self]
    exact apply_alike hbench (hbench name) hoperation
  · rw [generator_perform_of_ne bench hother, generator_perform_of_ne bench' hother]
    exact hbench other

/-- Histories that do the same on the same names leave all generators alike. -/
theorem performAll_alike (hbench : ∀ name, (bench.generator name).Alike (bench'.generator name))
    {operations operations' : List (String × Operation)}
    (hoperations : List.Forall₂ (fun p q => p.1 = q.1 ∧ p.2.Alike q.2) operations operations')
    (name : String) :
    ((bench.performAll operations).generator name).Alike
      ((bench'.performAll operations').generator name) := by
  induction hoperations generalizing bench bench' with
  | nil => exact hbench name
  | @cons p q _ _ hpq _ ih =>
    obtain ⟨name, operation⟩ := p
    obtain ⟨_, operation'⟩ := q
    obtain ⟨rfl, hoperation⟩ := hpq
    exact ih (perform_alike hbench name hoperation)

/-- **Structural equality is a congruence.** Let the generators on one bench be structurally equal to
those of the same names on another, no mapping having a key twice. Then so they are after every step
of two histories that do the same, and as many templates and results are in both. -/
theorem performAll_take_equal
    (hkeys : ∀ name, (bench.generator name).KeysDistinct)
    (hkeys' : ∀ name, (bench'.generator name).KeysDistinct)
    (hequal : ∀ name, (bench.generator name).equal (bench'.generator name) = true)
    {operations operations' : List (String × Operation)}
    (hoperations : List.Forall₂ (fun p q => p.1 = q.1 ∧ p.2.Alike q.2) operations operations')
    (steps : ℕ) (name : String) :
    let g := (bench.performAll (operations.take steps)).generator name
    let h := (bench'.performAll (operations'.take steps)).generator name
    g.equal h = true ∧ g.templates.length = h.templates.length ∧
      g.results.length = h.results.length := by
  intro g h
  have hbench := fun name => Generator.alike_iff.2 ⟨hkeys name, hkeys' name, hequal name⟩
  have halike : g.Alike h := performAll_alike hbench (List.forall₂_take steps hoperations) name
  exact ⟨(Generator.alike_iff.1 halike).2.2, halike.templates.length_eq, halike.results.length_eq⟩

/-- A ticket with a place for a name. -/
def ticket : Value :=
  .mapping [("to", .string "{{name}}"), ("seat", .null), ("paid", .bool true)]

/-- The ticket with its fields in another order. -/
def ticketReordered : Value :=
  .mapping [("seat", .null), ("paid", .bool true), ("to", .string "{{name}}")]

/-- Fills a ticket twice, renames a field, appends a further ticket and drops what is repeated. -/
def ticketHistory (further : Value) : List (String × Operation) :=
  let combo := Value.mapping [("name", .string "Ann")]
  [("tickets", .generate ["to"] (.listed [combo, combo])), ("tickets", .rename [("to", "for")]),
    ("tickets", .concat (.listed [further])), ("tickets", .dedup .structural)]

theorem ticket_alike : ticket.Alike ticketReordered := by
  have hkeys : ticket.KeysDistinct := .mapping (by decide) (by simp)
  have hkeys' : ticketReordered.KeysDistinct := .mapping (by decide) (by simp)
  exact hkeys.alike_of_equal hkeys' (by decide)

theorem ticketHistory_alike {v w : Value} (h : v.Alike w) :
    List.Forall₂ (fun p q => p.1 = q.1 ∧ p.2.Alike q.2) (ticketHistory v) (ticketHistory w) := by
  have hcombo : (Value.mapping [("name", .string "Ann")]).KeysDistinct :=
    .mapping (by decide) (by simp)
  exact .cons ⟨rfl, .generate _ (by simp [hcombo])⟩ <| .cons ⟨rfl, .rename _⟩ <|
    .cons ⟨rfl, .concat (.cons h .nil)⟩ <| .cons ⟨rfl, .dedup⟩ .nil

theorem performAll_take_equal_ticket :
    let bench : Bench := [("tickets", ⟨[ticket], []⟩)]
    let bench' : Bench := [("tickets", ⟨[ticketReordered], []⟩)]
    let operations := ticketHistory ticket
    let operations' := ticketHistory ticketReordered
    ((∀ name, (bench.generator name).KeysDistinct) ∧
      (∀ name, (bench'.generator name).KeysDistinct) ∧
      (∀ name, (bench.generator name).equal (bench'.generator name) = true) ∧
      List.Forall₂ (fun p q => p.1 = q.1 ∧ p.2.Alike q.2) operations operations') ∧
    (let g := (bench.performAll (operations.take 4)).generator "tickets"
      let h := (bench'.performAll (operations'.take 4)).generator "tickets"
      g.equal h = true ∧ g.templates.length = h.templates.length ∧
        g.results.length = h.results.length) ∧
    ((bench.performAll operations).generator "tickets").results.length = 2 := by
  intro bench bench' operations operations'
  have halike : ∀ name, (bench.generator name).Alike (bench'.generator name) := by
    intro name
    by_cases hname : "tickets" = name
    · subst hname
      exact ⟨.cons ticket_alike .nil, .nil⟩
    · simp only [bench, bench', generator, Fields.get?, if_neg hname]
      exact Generator.alike_empty
  have hkeys := fun name => (Generator.alike_iff.1 (halike name)).1
  have hkeys' := fun name => (Generator.alike_iff.1 (halike name)).2.1
  have hequal := fun name => (Generator.alike_iff.1 (halike name)).2.2
  have hoperations := ticketHistory_alike ticket_alike
  exact ⟨⟨hkeys, hkeys', hequal, hoperations⟩,
    performAll_take_equal hkeys hkeys' hequal hoperations 4 "tickets", by decide +kernel⟩

end Bench

end Stencil
