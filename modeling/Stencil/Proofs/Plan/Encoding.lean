import Stencil.Plan.Decode
import Stencil.Plan.Encode
import Stencil.Proofs.Json.Reading

/-!
# Plans are read back from their values

The value of a plan shows all its settings, and the tree of this value spells the plan again.
Sources carry no tag, so this rests on their shapes: documents are a list, a file and a stage are a
record with one text, and whatever the documents look like is inside the list. What could get lost
is a repeated key in a document, which no document that is read has, and a plan whose tree is higher
than a dialect allows.

* `Plan.KeysDistinct`: no document of a plan has a key twice.
* `Plan.slots?_ofValue`: the fields of a record are found by their names.
* `Plan.source?_toValue`, `Plan.stage?_toValue`, `Plan.output?_toValue`: the parts of a plan.
* `Plan.ofWritten?_toValue`: the tree of the value of a plan spells the plan.
* `Plan.keysDistinct_of_text`: no plan that is read has a document with a key twice.
* `Plan.eq_of_compactText_eq`: plans are told by the texts of their values.
* `Plan.survives_encoding`: every plan is decoded from its value, and from the text of its value.
-/

namespace Stencil

open Written (ofValue spell spellField)

/-- No document that is written in the source has repeated keys. -/
def Source.KeysDistinct (source : Source) : Prop :=
  ∀ documents, source = .inline documents → ∀ document ∈ documents, document.KeysDistinct

/-- No document that is written in the stage has repeated keys. -/
structure Stage.KeysDistinct (stage : Stage) : Prop where
  templates : stage.templates.KeysDistinct
  combos : stage.combos.KeysDistinct

/-- No document that is written in the plan has repeated keys. -/
def Plan.KeysDistinct (plan : Plan) : Prop :=
  ∀ stage ∈ plan.stages, stage.KeysDistinct

namespace Plan

/-! ## Lists that are decoded item by item -/

theorem mapM_eq_some_iff {α β : Type} {f : α → Option β} {xs : List α} {ys : List β} :
    xs.mapM f = some ys ↔ List.Forall₂ (fun x y => f x = some y) xs ys := by
  induction xs generalizing ys with
  | nil => simp [eq_comm]
  | cons x xs ih =>
    simp only [List.mapM_cons, Option.bind_eq_bind, Option.bind_eq_some_iff, Option.pure_def,
      Option.some.injEq, List.forall₂_cons_left_iff, ih]
    aesop

/-- Decoding undoes an encoding item by item. -/
theorem mapM_map_eq_some {α β : Type} {f : β → Option α} {g : α → β} {xs : List α}
    (h : ∀ x ∈ xs, f (g x) = some x) : (xs.map g).mapM f = some xs :=
  mapM_eq_some_iff.2 (List.forall₂_map_left_iff.2 (List.forall₂_same.2 h))

theorem exists_of_mapM_eq_some {α β : Type} {f : α → Option β} {xs : List α} {ys : List β}
    (h : xs.mapM f = some ys) {y : β} (hy : y ∈ ys) : ∃ x ∈ xs, f x = some y := by
  have hsteps := mapM_eq_some_iff.1 h
  clear h
  induction hsteps with
  | nil => cases hy
  | @cons x _ xs _ hx _ ih =>
    rcases List.mem_cons.1 hy with rfl | hy
    · exact ⟨x, List.mem_cons_self, hx⟩
    · obtain ⟨x', hmem, hx'⟩ := ih hy
      exact ⟨x', List.mem_cons_of_mem _ hmem, hx'⟩

/-! ## Parts of plans -/

theorem text?_string (text : String) : text? (ofValue (.string text)) = some text := rfl

theorem bool?_bool (value : Bool) : bool? (ofValue (.bool value)) = some value := rfl

theorem texts?_ofTexts (texts : List String) :
    texts? (ofValue (Value.ofTexts texts)) = some texts := by
  rw [Value.ofTexts, ofValue, spell, Written.spellItems_eq_map, List.map_map, texts?]
  exact mapM_map_eq_some fun _ _ => rfl

theorem optionalText?_toValue (text : Option String) :
    optionalText? (ofValue (optionalTextValue text)) = some text := by
  cases text <;> rfl

theorem policy?_name (dialect : Dialect) (policy : DedupPolicy) :
    policy? dialect (ofValue (.string policy.name)) = some policy := by
  cases policy <;> rfl

theorem renameTable?_toValue (table : RenameTable) :
    renameTable? (ofValue table.toValue) = some table := by
  have hpairs : (table.toList.map fun pair => spellField some (pair.1, .string pair.2)).mapM
      textEntry? = some table.toList := mapM_map_eq_some fun _ _ => rfl
  rw [RenameTable.toValue, ofValue, spell, Written.spellFields_eq_map, List.map_map, renameTable?]
  exact (congrArg _ hpairs).trans (congrArg some table.ofPairs_toList)

/-- The entries with a given name, in the record of fields with distinct keys. -/
theorem filter_spellField {fields : Fields Value} (hkeys : (Fields.keys fields).Nodup)
    (name : String) :
    (fields.map (spellField some)).filter (fun entry => entry.1 = some name) =
      ((Fields.get? name fields).map fun value => (some name, ofValue value)).toList := by
  induction fields with
  | nil => rfl
  | cons field rest ih =>
    obtain ⟨key, value⟩ := field
    rw [Fields.keys_cons, List.nodup_cons] at hkeys
    rw [List.map_cons, Fields.get?, spellField]
    by_cases hkey : key = name
    · subst hkey
      simp [ih hkeys.2, Fields.get?_eq_none_iff.2 hkeys.1, ofValue]
    · simp [hkey, ih hkeys.2]

/-- A record with distinct keys gives to each name what is in its field. -/
theorem slots?_ofValue (dialect : Dialect) (names : List String) {fields : Fields Value}
    (hkeys : (Fields.keys fields).Nodup) :
    slots? dialect names (ofValue (.mapping fields)) =
      some fun name => (Fields.get? name fields).map ofValue := by
  have hany : (fields.map (spellField some)).any (·.1.isNone) = false := by
    simp [spellField]
  have hone : names.all (fun name => ((Fields.get? name fields).map fun value =>
      (some name, ofValue value)).toList.length ≤ 1) = true := by
    simp only [List.all_eq_true, decide_eq_true_eq]
    intro name _
    cases Fields.get? name fields <;> simp
  rw [ofValue, spell, Written.spellFields_eq_map, slots?]
  simp only [hany, Bool.false_eq_true, if_false, filter_spellField hkeys, hone, if_true]
  congr 1
  funext name
  cases Fields.get? name fields <;> rfl

/-- Whether a dialect allows so many lists and records inside each other. -/
def Dialect.Allows (dialect : Dialect) (height : Nat) : Prop :=
  ∀ limit ∈ dialect.maxHeight, height ≤ limit

theorem Dialect.Allows.mono {dialect : Dialect} {low high : Nat} (h : dialect.Allows high)
    (hle : low ≤ high) : dialect.Allows low := fun limit hlimit => Nat.le_trans hle (h limit hlimit)

theorem source?_toValue {dialect : Dialect} {source : Source} (hkeys : source.KeysDistinct)
    (hheight : dialect.Allows ((ofValue source.toValue).height + sourceDepth)) :
    source? dialect (ofValue source.toValue) = some source := by
  have hlimit : dialect.maxHeight.any
      (fun limit => limit < (ofValue source.toValue).height + sourceDepth) = false := by
    cases hmax : dialect.maxHeight with
    | none => rfl
    | some limit => simpa using hheight limit hmax
  rw [source?, hlimit]
  cases source with
  | inline documents =>
    have hdistinct : (Source.inline documents).toValue.KeysDistinct := .sequence (hkeys _ rfl)
    rw [if_neg Bool.false_ne_true, Written.value?_ofValue hdistinct]
    rfl
  | file path => rfl
  | stage name => rfl

theorem stage?_toValue {dialect : Dialect} {stage : Stage} (hkeys : stage.KeysDistinct)
    (hheight : dialect.Allows ((ofValue stage.toValue).height + 2)) :
    stage? dialect (ofValue stage.toValue) = some stage := by
  have htemplates : source? dialect (ofValue stage.templates.toValue) = some stage.templates :=
    source?_toValue hkeys.templates (hheight.mono (Nat.add_le_add_right
      (Written.height_field_lt (.tail _ (.tail _ (.head _)))) 2))
  have hcombos : source? dialect (ofValue stage.combos.toValue) = some stage.combos :=
    source?_toValue hkeys.combos (hheight.mono (Nat.add_le_add_right
      (Written.height_field_lt (.tail _ (.tail _ (.tail _ (.head _))))) 2))
  rw [stage?, Stage.toValue, slots?_ofValue]
  · simp [Fields.get?, fieldD, text?_string, texts?_ofTexts, htemplates, hcombos,
      renameTable?_toValue, bool?_bool]
  · exact show stageFields.Nodup by decide

theorem output?_toValue (dialect : Dialect) (output : OutputSettings) :
    output? dialect (ofValue output.toValue) = some output := by
  rw [output?, OutputSettings.toValue, slots?_ofValue]
  · simp [Fields.get?, fieldD, bool?_bool, policy?_name, optionalText?_toValue]
  · exact show outputFields.Nodup by decide

theorem stages?_toValue {dialect : Dialect} {stages : List Stage}
    (hkeys : ∀ stage ∈ stages, stage.KeysDistinct)
    (hheight : dialect.Allows ((ofValue (.sequence (stages.map Stage.toValue))).height + 1)) :
    stages? dialect (ofValue (.sequence (stages.map Stage.toValue))) = some stages := by
  have hstage : ∀ stage ∈ stages, stage? dialect (ofValue stage.toValue) = some stage :=
    fun stage hmem => stage?_toValue (hkeys stage hmem) (hheight.mono (Nat.add_le_add_right
      (Written.height_item_lt (List.mem_map_of_mem hmem)) 1))
  rw [ofValue, spell, Written.spellItems_eq_map, List.map_map, stages?]
  exact mapM_map_eq_some hstage

/-- **A plan is decoded from its value** in every dialect that allows its height. -/
theorem ofWritten?_toValue {dialect : Dialect} {plan : Plan} (hkeys : plan.KeysDistinct)
    (hheight : dialect.Allows (ofValue plan.toValue).height) :
    ofWritten? dialect (ofValue plan.toValue) = some plan := by
  have hstages := @stages?_toValue dialect plan.stages hkeys
    (hheight.mono (Written.height_field_lt (.tail _ (.head _))))
  rw [ofWritten?, Plan.toValue, slots?_ofValue]
  · simp [Fields.get?, fieldD, output?_toValue, hstages]
  · exact show planFields.Nodup by decide

/-! ## Plans that are decoded -/

theorem keysDistinct_of_source? {dialect : Dialect} {tree : Written} {source : Source}
    (h : source? dialect tree = some source) : source.KeysDistinct := by
  intro documents hdocuments
  rw [source?] at h
  obtain ⟨-, h⟩ := Option.ite_none_left_eq_some.1 h
  obtain ⟨value, hvalue, h⟩ := Option.bind_eq_some_iff.1 h
  subst hdocuments
  split at h
  · cases h
    cases Written.keysDistinct_of_value? hvalue with
    | sequence hdistinct => exact hdistinct
  · -- A record names a file or a stage.
    rename_i entries _ _
    cases hfile : onlyText? "file" entries <;> simp [hfile] at h
  · cases h

theorem keysDistinct_of_stage? {dialect : Dialect} {tree : Written} {stage : Stage}
    (h : stage? dialect tree = some stage) : stage.KeysDistinct := by
  obtain ⟨slot, -, h⟩ := Option.bind_eq_some_iff.1 h
  simp only [Option.bind_eq_bind, Option.bind_eq_some_iff, Option.pure_def,
    Option.some.injEq] at h
  obtain ⟨_, -, _, -, templates, ⟨_, -, htemplates⟩, combos, ⟨_, -, hcombos⟩, h⟩ := h
  obtain ⟨_, -, _, -, _, -, rfl⟩ := h
  exact ⟨keysDistinct_of_source? htemplates, keysDistinct_of_source? hcombos⟩

/-- No plan that a tree spells has a document with repeated keys. -/
theorem keysDistinct_of_ofWritten? {dialect : Dialect} {tree : Written} {plan : Plan}
    (h : ofWritten? dialect tree = some plan) : plan.KeysDistinct := by
  obtain ⟨slot, -, h⟩ := Option.bind_eq_some_iff.1 h
  simp only [Option.bind_eq_bind, Option.bind_eq_some_iff, Option.pure_def,
    Option.some.injEq] at h
  obtain ⟨output, -, stages, hstages, rfl⟩ := h
  intro stage hstage
  unfold fieldD at hstages
  split at hstages
  · unfold stages? at hstages
    split at hstages
    · obtain ⟨item, -, hitem⟩ := exists_of_mapM_eq_some hstages hstage
      exact keysDistinct_of_stage? hitem
    · cases hstages
  · cases hstages
    cases hstage

/-! ## Values and texts -/

/-- Plans that are values already. They nest as deep as they like. -/
def Dialect.memory : Dialect :=
  ⟨false, false, none⟩

/-- The plan that a value spells. -/
def ofValue? (value : Value) : Option Plan :=
  ofWritten? .memory (ofValue value)

theorem ofValue?_toValue {plan : Plan} (hkeys : plan.KeysDistinct) :
    ofValue? plan.toValue = some plan :=
  ofWritten?_toValue hkeys nofun

/-- Plans are told by the texts of their values. -/
theorem eq_of_compactText_eq {plan other : Plan} (hplan : plan.KeysDistinct)
    (hother : other.KeysDistinct)
    (h : Json.compactText plan.toValue = Json.compactText other.toValue) : plan = other := by
  have hvalue := ofValue?_toValue hplan
  rw [Json.compactText_injective h, ofValue?_toValue hother] at hvalue
  exact (Option.some.inj hvalue).symm

/-- No plan that a TOML or JSON text spells has a document with repeated keys. -/
theorem keysDistinct_of_text {text : String} {plan : Plan}
    (h : ofToml? text = some plan ∨ ofJson? text = some plan) : plan.KeysDistinct := by
  rcases h with h | h
  · obtain ⟨_, -, htree⟩ := Option.bind_eq_some_iff.1 h
    exact keysDistinct_of_ofWritten? htree
  · obtain ⟨_, -, htree⟩ := Option.bind_eq_some_iff.1 h
    exact keysDistinct_of_ofWritten? htree

/-- A plan whose value is read back from its text is decoded from this text. -/
theorem ofJson?_compactText {plan : Plan}
    (hread : Json.valueOfText? (Json.compactText plan.toValue) = some plan.toValue)
    (hkeys : plan.KeysDistinct) : ofJson? (Json.compactText plan.toValue) = some plan := by
  obtain ⟨htree, hheight⟩ := Json.writtenOfText?_of_valueOfText? hread
  rw [ofJson?, htree, Option.bind_some]
  refine ofWritten?_toValue hkeys fun limit hlimit => ?_
  obtain rfl := Option.some.inj hlimit
  exact hheight

/-- **A plan survives its own JSON form.** Its value, with all defaults filled in, spells the plan
again, whatever its stages, sources, documents, renames and settings, where no document has a key
twice. So it is with every plan that a TOML or JSON text spells, and the text of its value spells
the same plan, provided that the JSON reader gives back the value that the writer was given. -/
theorem survives_encoding :
    (∀ plan : Plan, plan.KeysDistinct → ofValue? plan.toValue = some plan) ∧
    ∀ (text : String) (plan : Plan), ofToml? text = some plan ∨ ofJson? text = some plan →
      ofValue? plan.toValue = some plan ∧
      (Json.valueOfText? (Json.compactText plan.toValue) = some plan.toValue →
        ofJson? (Json.compactText plan.toValue) = some plan) := by
  refine ⟨fun plan => ofValue?_toValue, fun text plan hplan => ?_⟩
  have hkeys := keysDistinct_of_text hplan
  exact ⟨ofValue?_toValue hkeys, fun hread => ofJson?_compactText hread hkeys⟩

/-- A plan whose documents look like sources. -/
def lookalikes : Plan where
  output := { pretty := false, dedup := .serialized }
  stages := [{
    name := "a"
    paths := ["file"]
    templates := .inline [.mapping [("file", .string "t")], .mapping [("stage", .string "a")],
      .sequence [.sequence []], .null]
    combos := .stage "b"
    concat := ["c", "b"]
    rename := .ofPairs [("y", "x"), ("x", "y")]
    unique := true }]

theorem keysDistinct_lookalikes : lookalikes.KeysDistinct := by
  intro stage hstage
  obtain rfl := List.mem_singleton.1 hstage
  refine ⟨fun documents hdocuments => ?_, nofun⟩
  cases hdocuments
  simp only [List.forall_mem_cons]
  refine ⟨.mapping (by decide) (by simp), .mapping (by decide) (by simp), ?_, .null, nofun⟩
  exact .sequence fun item hitem => (List.mem_singleton.1 hitem) ▸ .sequence nofun

/-- A plan in TOML that leaves the defaults out and has a field too many. -/
def lookalikeToml : String :=
  "[[stage]]\nname = \"a\"\ntemplates = [\x7bfile = \"t\"\x7d, [7]]\n" ++
    "combos = \x7bstage = \"b\"\x7d\nnote = 0\n"

/-- The same plan in JSON, with another field too many. -/
def lookalikeJson : String :=
  "\x7b\"stage\":[\x7b\"name\":\"a\",\"templates\":[\x7b\"file\":\"t\"\x7d,[7]]," ++
    "\"combos\":\x7b\"stage\":\"b\"\x7d,\"note\":null\x7d]\x7d"

/-- The text of the value of this plan. -/
def lookalikeValueText : String :=
  "\x7b\"output\":\x7b\"pretty\":true,\"dedup\":\"structural\",\"stage\":null\x7d," ++
    "\"stage\":[\x7b\"name\":\"a\",\"paths\":[],\"templates\":[\x7b\"file\":\"t\"\x7d,[7]]," ++
    "\"combos\":\x7b\"stage\":\"b\"\x7d,\"concat\":[],\"rename\":\x7b\x7d," ++
    "\"unique\":false\x7d]\x7d"

theorem survives_encoding_lookalikes :
    lookalikes.KeysDistinct ∧ ofValue? lookalikes.toValue = some lookalikes ∧
    ∃ plan, ofToml? lookalikeToml = some plan ∧ ofJson? lookalikeJson = some plan ∧
      Json.compactText plan.toValue = lookalikeValueText ∧
      Json.valueOfText? lookalikeValueText = some plan.toValue ∧
      ofValue? plan.toValue = some plan ∧ ofJson? lookalikeValueText = some plan := by
  have htoml : (ofToml? lookalikeToml).map (fun plan => Json.compactText plan.toValue) =
      some lookalikeValueText := by decide +kernel
  have hjson : (ofJson? lookalikeJson).map (fun plan => Json.compactText plan.toValue) =
      some lookalikeValueText := by decide +kernel
  have hread : (Json.valueOfText? lookalikeValueText).map Json.compactText =
      some lookalikeValueText := by decide +kernel
  obtain ⟨plan, hplan, hprinted⟩ := Option.map_eq_some_iff.1 htoml
  obtain ⟨other, hother, hprinted'⟩ := Option.map_eq_some_iff.1 hjson
  obtain ⟨value, hvalue, hvalueText⟩ := Option.map_eq_some_iff.1 hread
  obtain rfl := eq_of_compactText_eq (keysDistinct_of_text (.inl hplan))
    (keysDistinct_of_text (.inr hother)) (hprinted.trans hprinted'.symm)
  obtain rfl := Json.compactText_injective (hvalueText.trans hprinted.symm)
  obtain ⟨hmemory, htext⟩ := survives_encoding.2 lookalikeToml plan (.inl hplan)
  have hagain := htext (hprinted ▸ hvalue)
  rw [hprinted] at hagain
  have hlookalikes := survives_encoding.1 lookalikes keysDistinct_lookalikes
  exact ⟨keysDistinct_lookalikes, hlookalikes, plan, hplan, hother, hprinted, hvalue, hmemory,
    hagain⟩

end Plan

end Stencil
