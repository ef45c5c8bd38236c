import Stencil.Proofs.Value.Equality
import Stencil.Written

/-!
# The tree of a value

A value is written as a tree of the same shape, and such a tree denotes the value again, provided
that no mapping has a key twice, which no value that a tree denotes has. How numbers are written is
left open, so that trees are covered in which a reader of text has found some of the numbers only:
one that denotes its value holds all of them.

* `Written.ofValue`: the tree of a value, and `Written.spell` with any notation for numbers.
* `Written.value?_ofValue`: the tree of a value without repeated keys denotes it.
* `Written.keysDistinct_of_value?`: what a tree denotes has no repeated keys.
* `Written.spell_eq_ofValue`: a tree that denotes its value holds all its numbers.
* `Written.height_item_lt`, `Written.height_field_lt`: what is inside a value has a lower tree.
-/

namespace Stencil

namespace Written

mutual

/-- The tree of a value, with each number as `numeral` writes it. -/
def spell (numeral : Number → Option Number) : Value → Written
  | .null => .null
  | .bool value => .bool value
  | .number n => .number (numeral n)
  | .string text => .string (some text)
  | .sequence items => .list (spellItems numeral items)
  | .mapping fields => .record (spellFields numeral fields)

/-- The trees of the items of a sequence. -/
def spellItems (numeral : Number → Option Number) : List Value → List Written
  | [] => []
  | item :: rest => spell numeral item :: spellItems numeral rest

/-- The entries of the fields of a mapping. -/
def spellFields (numeral : Number → Option Number) :
    List (String × Value) → List (Option String × Written)
  | [] => []
  | (key, value) :: rest => (some key, spell numeral value) :: spellFields numeral rest

end

/-- The tree of a value. -/
def ofValue (value : Value) : Written :=
  spell some value

/-- The entry of a field in the tree of a mapping. -/
def spellField (numeral : Number → Option Number) (field : String × Value) :
    Option String × Written :=
  (some field.1, spell numeral field.2)

section spell

variable {numeral : Number → Option Number}

theorem spellItems_eq_map (items : List Value) :
    spellItems numeral items = items.map (spell numeral) := by
  induction items with
  | nil => rfl
  | cons item rest ih => rw [spellItems, ih, List.map_cons]

theorem spellFields_eq_map (fields : List (String × Value)) :
    spellFields numeral fields = fields.map (spellField numeral) := by
  induction fields with
  | nil => rfl
  | cons field rest ih => rw [spellFields, ih, List.map_cons, spellField]

end spell

/-! ## What trees denote -/

theorem itemValues?_eq_some_iff {items : List Written} {values : List Value} :
    itemValues? items = some values ↔
      List.Forall₂ (fun item value => item.value? = some value) items values := by
  induction items generalizing values with
  | nil => simp [itemValues?, eq_comm]
  | cons item rest ih =>
    simp only [itemValues?, Option.bind_eq_some_iff, Option.map_eq_some_iff,
      List.forall₂_cons_left_iff, ih]
    aesop

theorem entryValues?_eq_some_iff {entries : List (Option String × Written)}
    {fields : List (String × Value)} :
    entryValues? entries = some fields ↔
      List.Forall₂ (fun entry field => entry.1 = some field.1 ∧ entry.2.value? = some field.2)
        entries fields := by
  induction entries generalizing fields with
  | nil => simp [entryValues?, eq_comm]
  | cons entry rest ih =>
    obtain ⟨key, item⟩ := entry
    simp only [entryValues?, Option.bind_eq_some_iff, Option.map_eq_some_iff,
      List.forall₂_cons_left_iff, ih]
    aesop

/-- **The tree of a value without repeated keys denotes the value.** -/
theorem value?_ofValue {value : Value} (h : value.KeysDistinct) :
    (ofValue value).value? = some value := by
  induction h with
  | null => rfl
  | bool => rfl
  | number => rfl
  | string => rfl
  | sequence _ ih =>
    rename_i items _
    have hitems : itemValues? (items.map (spell some)) = some items :=
      itemValues?_eq_some_iff.2 (List.forall₂_map_left_iff.2 (List.forall₂_same.2 ih))
    rw [ofValue, spell, spellItems_eq_map, value?, hitems, Option.map_some]
  | mapping hkeys _ ih =>
    rename_i fields _
    have hfields : entryValues? (fields.map (spellField some)) = some fields :=
      entryValues?_eq_some_iff.2 (List.forall₂_map_left_iff.2
        (List.forall₂_same.2 fun field hfield => ⟨rfl, ih field hfield⟩))
    rw [ofValue, spell, spellFields_eq_map, value?, hfields, Option.map_some,
      Fields.ofEntries_of_nodup hkeys]

mutual

/-- No value that a tree denotes has a key twice in a mapping. -/
theorem keysDistinct_of_value? {tree : Written} {value : Value} (h : tree.value? = some value) :
    value.KeysDistinct := by
  cases tree with
  | null | nonFinite =>
    cases h
    exact .null
  | bool =>
    cases h
    exact .bool _
  | number n =>
    obtain ⟨_, -, rfl⟩ := Option.map_eq_some_iff.1 h
    exact .number _
  | string text =>
    obtain ⟨_, -, rfl⟩ := Option.map_eq_some_iff.1 h
    exact .string _
  | list items =>
    obtain ⟨values, hvalues, rfl⟩ := Option.map_eq_some_iff.1 h
    exact .sequence (keysDistinct_of_itemValues? hvalues)
  | record entries =>
    obtain ⟨fields, hfields, rfl⟩ := Option.map_eq_some_iff.1 h
    obtain ⟨hkeys, hmem⟩ := Fields.ofEntries_spec fields
    exact .mapping hkeys fun field hfield =>
      keysDistinct_of_entryValues? hfields field (hmem field hfield)

theorem keysDistinct_of_itemValues? {items : List Written} {values : List Value}
    (h : itemValues? items = some values) : ∀ value ∈ values, value.KeysDistinct := by
  cases items with
  | nil =>
    cases h
    simp
  | cons item rest =>
    obtain ⟨value, hvalue, h⟩ := Option.bind_eq_some_iff.1 h
    obtain ⟨values, hvalues, rfl⟩ := Option.map_eq_some_iff.1 h
    exact List.forall_mem_cons.2
      ⟨keysDistinct_of_value? hvalue, keysDistinct_of_itemValues? hvalues⟩

theorem keysDistinct_of_entryValues? {entries : List (Option String × Written)}
    {fields : List (String × Value)} (h : entryValues? entries = some fields) :
    ∀ field ∈ fields, field.2.KeysDistinct := by
  cases entries with
  | nil =>
    cases h
    simp
  | cons entry rest =>
    obtain ⟨key, item⟩ := entry
    obtain ⟨k, -, h⟩ := Option.bind_eq_some_iff.1 h
    obtain ⟨value, hvalue, h⟩ := Option.bind_eq_some_iff.1 h
    obtain ⟨fields, hfields, rfl⟩ := Option.map_eq_some_iff.1 h
    exact List.forall_mem_cons.2
      ⟨keysDistinct_of_value? hvalue, keysDistinct_of_entryValues? hfields⟩

end

/-! ## Trees in which numbers may be missing -/

section missing

variable {numeral : Number → Option Number}

theorem keys_of_entryValues?_spellFields {fields values : List (String × Value)}
    (h : entryValues? (spellFields numeral fields) = some values) :
    Fields.keys values = Fields.keys fields := by
  rw [entryValues?_eq_some_iff, spellFields_eq_map, List.forall₂_map_left_iff] at h
  induction h with
  | nil => rfl
  | cons hentry _ ih => rw [Fields.keys_cons, Fields.keys_cons, ih, Option.some.inj hentry.1]

/-- The entries that denote the fields of a mapping do so one by one. -/
theorem entryValues?_spellFields_of_ofEntries {fields values : List (String × Value)}
    (h : entryValues? (spellFields numeral fields) = some values)
    (hvalues : Fields.ofEntries values = fields) : values = fields := by
  have hkeys := (Fields.ofEntries_spec values).1
  rw [hvalues, ← keys_of_entryValues?_spellFields h] at hkeys
  rw [← hvalues, Fields.ofEntries_of_nodup hkeys]

mutual

/-- **A tree that denotes its value holds all its numbers.** -/
theorem spell_eq_ofValue {value : Value} (h : (spell numeral value).value? = some value) :
    spell numeral value = ofValue value := by
  cases value with
  | null | bool | string => rfl
  | number n =>
    obtain ⟨m, hm, heq⟩ := Option.map_eq_some_iff.1 h
    cases heq
    exact congrArg Written.number hm
  | sequence items =>
    obtain ⟨values, hvalues, heq⟩ := Option.map_eq_some_iff.1 h
    cases heq
    exact congrArg Written.list (spellItems_eq_of_itemValues? hvalues)
  | mapping fields =>
    obtain ⟨values, hvalues, heq⟩ := Option.map_eq_some_iff.1 h
    rw [entryValues?_spellFields_of_ofEntries hvalues (Value.mapping.inj heq)] at hvalues
    exact congrArg Written.record (spellFields_eq_of_entryValues? hvalues)

theorem spellItems_eq_of_itemValues? {items : List Value}
    (h : itemValues? (spellItems numeral items) = some items) :
    spellItems numeral items = spellItems some items := by
  cases items with
  | nil => rfl
  | cons item rest =>
    obtain ⟨value, hvalue, h⟩ := Option.bind_eq_some_iff.1 h
    obtain ⟨values, hvalues, heq⟩ := Option.map_eq_some_iff.1 h
    cases heq
    rw [spellItems, spellItems, spell_eq_ofValue hvalue, spellItems_eq_of_itemValues? hvalues]
    rfl

theorem spellFields_eq_of_entryValues? {fields : List (String × Value)}
    (h : entryValues? (spellFields numeral fields) = some fields) :
    spellFields numeral fields = spellFields some fields := by
  cases fields with
  | nil => rfl
  | cons field rest =>
    obtain ⟨key, value⟩ := field
    obtain ⟨_, -, h⟩ := Option.bind_eq_some_iff.1 h
    obtain ⟨value, hvalue, h⟩ := Option.bind_eq_some_iff.1 h
    obtain ⟨values, hvalues, heq⟩ := Option.map_eq_some_iff.1 h
    cases heq
    rw [spellFields, spellFields, spell_eq_ofValue hvalue, spellFields_eq_of_entryValues? hvalues]
    rfl

end

end missing

/-! ## Heights -/

theorem height_le_heightOfItems {item : Written} {items : List Written} (h : item ∈ items) :
    item.height ≤ heightOfItems items := by
  induction items with
  | nil => cases h
  | cons first rest ih =>
    rw [heightOfItems]
    rcases List.mem_cons.1 h with rfl | h
    · exact Nat.le_max_left _ _
    · exact Nat.le_trans (ih h) (Nat.le_max_right _ _)

theorem height_le_heightOfEntries {entry : Option String × Written}
    {entries : List (Option String × Written)} (h : entry ∈ entries) :
    entry.2.height ≤ heightOfEntries entries := by
  induction entries with
  | nil => cases h
  | cons first rest ih =>
    rw [heightOfEntries]
    rcases List.mem_cons.1 h with rfl | h
    · exact Nat.le_max_left _ _
    · exact Nat.le_trans (ih h) (Nat.le_max_right _ _)

/-- The tree of an item is lower than that of the sequence. -/
theorem height_item_lt {item : Value} {items : List Value} (h : item ∈ items) :
    (ofValue item).height < (ofValue (.sequence items)).height := by
  rw [ofValue, ofValue, spell, spellItems_eq_map, height]
  exact Nat.lt_succ_of_le (height_le_heightOfItems (List.mem_map_of_mem h))

/-- The tree of what is in a field is lower than that of the mapping. -/
theorem height_field_lt {key : String} {value : Value} {fields : List (String × Value)}
    (h : (key, value) ∈ fields) :
    (ofValue value).height < (ofValue (.mapping fields)).height := by
  have hentry : spellField some (key, value) ∈ fields.map (spellField some) :=
    List.mem_map_of_mem h
  rw [ofValue, ofValue, spell, spellFields_eq_map, height]
  exact Nat.lt_succ_of_le (height_le_heightOfEntries hentry)

end Written

end Stencil
