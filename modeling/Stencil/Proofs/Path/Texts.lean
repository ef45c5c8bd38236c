import Stencil.Proofs.Path.Slot

/-!
# The strings at selected locations

Edits that turn strings into strings, at some locations of a value, change nothing that a path
depends on: every path leads where it led, and what is left to say is which strings were changed.
`Value.mapTexts` changes them all in one pass over the value.

* `Value.locate?_mapTexts`, `Value.get?_mapTexts`: what a path finds behind the pass.
* `Value.update?_mapTexts`: one more edit selects one more location.
* `Value.mapTexts_congr`, `Value.mapTexts_mapTexts`: passes that agree, and passes in a row.
-/

namespace Stencil.Value

mutual

/-- The value with every string at a selected location replaced by its image. -/
def mapTexts (f : String → String) (selected : Path → Bool) : Value → Value
  | string text => string (if selected [] then f text else text)
  | sequence items => sequence (mapTextsItems f (fun i path => selected (.index i :: path)) items)
  | mapping fields =>
    mapping (mapTextsFields f (fun key path => selected (.key key :: path)) fields)
  | null => null
  | bool value => bool value
  | number value => number value

/-- Replaces the strings in the items of a sequence. -/
def mapTextsItems (f : String → String) (selected : Nat → Path → Bool) : List Value → List Value
  | [] => []
  | item :: rest =>
    mapTexts f (selected 0) item :: mapTextsItems f (fun i => selected (i + 1)) rest

/-- Replaces the strings in the fields of a mapping. Behind the first field with a key, no path
leads to another one. -/
def mapTextsFields (f : String → String) (selected : String → Path → Bool) :
    List (String × Value) → List (String × Value)
  | [] => []
  | (key, value) :: rest =>
    (key, mapTexts f (selected key) value) ::
      mapTextsFields f (fun k path => k ≠ key && selected k path) rest

end

variable {f g : String → String}

/-! ## Items and fields -/

theorem getElem?_mapTextsItems (f : String → String) (selected : Nat → Path → Bool)
    (items : List Value) (n : Nat) :
    (mapTextsItems f selected items)[n]? = items[n]?.map (mapTexts f (selected n)) := by
  induction items generalizing selected n with
  | nil => rfl
  | cons item rest ih =>
    cases n with
    | zero => rfl
    | succ n => exact ih _ n

/-- What is found in each item, whatever is done to its strings, is found in all. -/
theorem flatMap_zipIdx_mapTextsItems {α : Type} {g : Value × Nat → List α}
    (h : ∀ item selected i, g (mapTexts f selected item, i) = g (item, i))
    (selected : Nat → Path → Bool) (items : List Value) (k : Nat) :
    ((mapTextsItems f selected items).zipIdx k).flatMap g = (items.zipIdx k).flatMap g := by
  induction items generalizing selected k with
  | nil => rfl
  | cons item rest ih =>
    simp only [mapTextsItems, List.zipIdx_cons, List.flatMap_cons, h, ih]

theorem get?_mapTextsFields (f : String → String) (selected : String → Path → Bool)
    (fields : Fields Value) (key : String) :
    Fields.get? key (mapTextsFields f selected fields) =
      (Fields.get? key fields).map (mapTexts f (selected key)) := by
  induction fields generalizing selected with
  | nil => rfl
  | cons field rest ih =>
    obtain ⟨k, value⟩ := field
    simp only [mapTextsFields, Fields.get?]
    by_cases hk : k = key
    · simp [hk]
    · rw [if_neg hk, if_neg hk, ih]
      simp [Ne.symm hk]

theorem set_mapTextsItems {before after : Nat → Path → Bool} {items : List Value} {n : Nat}
    {item : Value} (hitem : items[n]? = some item) (h : ∀ i, i ≠ n → before i = after i) :
    (mapTextsItems f before items).set n (mapTexts f (after n) item) =
      mapTextsItems f after items := by
  induction items generalizing before after n with
  | nil => rfl
  | cons first rest ih =>
    cases n with
    | zero =>
      obtain rfl : first = item := by simpa using hitem
      have hrest : (fun i => before (i + 1)) = fun i => after (i + 1) :=
        funext fun i => h (i + 1) (by omega)
      simp only [mapTextsItems, List.set_cons_zero, hrest]
    | succ n =>
      have hrest := @ih (fun i => before (i + 1)) (fun i => after (i + 1)) n
        (by simpa using hitem) fun i hi => h (i + 1) (by omega)
      simp only [mapTextsItems, List.set_cons_succ, hrest, h 0 (by omega)]

theorem modify_mapTextsFields {before after : String → Path → Bool} {fields : Fields Value}
    {key : String} {value : Value} (hvalue : Fields.get? key fields = some value)
    (h : ∀ k, k ≠ key → before k = after k) :
    Fields.modify key (fun _ => mapTexts f (after key) value) (mapTextsFields f before fields) =
      mapTextsFields f after fields := by
  induction fields generalizing before after with
  | nil => rfl
  | cons field rest ih =>
    obtain ⟨k, first⟩ := field
    simp only [Fields.get?] at hvalue
    by_cases hk : k = key
    · subst hk
      obtain rfl : first = value := by simpa using hvalue
      have hrest : (fun k' path => k' ≠ k && before k' path) =
          fun k' path => k' ≠ k && after k' path := by
        funext k' path
        by_cases hk' : k' = k
        · simp [hk']
        · rw [h k' hk']
      simp only [mapTextsFields, Fields.modify, if_pos, hrest]
    · rw [if_neg hk] at hvalue
      have hrest := @ih (fun k' path => k' ≠ k && before k' path)
        (fun k' path => k' ≠ k && after k' path) hvalue fun k' hk' => by
          funext path
          rw [h k' hk']
      have hkey : (fun path => key ≠ k && after key path) = after key := by
        funext path
        simp [Ne.symm hk]
      simp only [hkey] at hrest
      simp only [mapTextsFields, Fields.modify, if_neg hk, hrest, h k hk]

/-! ## Paths behind the pass -/

@[simp] theorem slot?_mapTexts (f : String → String) (selected : Path → Bool) (value : Value)
    (segment : Segment) : (value.mapTexts f selected).slot? segment = value.slot? segment := by
  cases value <;> simp only [mapTexts, slot?]

theorem child?_mapTexts {value : Value} {segment slot : Segment}
    (hslot : value.slot? segment = some slot) (f : String → String) (selected : Path → Bool) :
    (value.mapTexts f selected).child? segment =
      (value.child? segment).map (mapTexts f fun path => selected (slot :: path)) := by
  cases value with
  | mapping fields =>
    obtain rfl : Segment.key segment.text = slot := by simpa [slot?] using hslot
    simp only [mapTexts, child?, get?_mapTextsFields]
  | sequence items =>
    obtain ⟨position, hposition, rfl⟩ := Option.map_eq_some_iff.1 hslot
    simp only [mapTexts, child?, hposition, Option.bind_some, getElem?_mapTextsItems]
  | _ => cases hslot

theorem child?_eq_none_of_slot? {value : Value} {segment : Segment}
    (h : value.slot? segment = none) : value.child? segment = none := by
  cases hchild : value.child? segment with
  | none => rfl
  | some child =>
    obtain ⟨slot, hslot⟩ := exists_slot?_of_child? hchild
    simp [h] at hslot

theorem locate?_mapTexts (f : String → String) (selected : Path → Bool) (value : Value)
    (path : Path) : (value.mapTexts f selected).locate? path = value.locate? path := by
  induction path generalizing value selected with
  | nil => rfl
  | cons segment rest ih =>
    simp only [locate?, slot?_mapTexts]
    cases hslot : value.slot? segment with
    | none => rfl
    | some slot =>
      rw [child?_mapTexts hslot]
      cases value.child? segment with
      | none => rfl
      | some child => simp only [Option.bind_some, Option.map_some, ih]

/-- What a path reads is changed at the selected locations below its own. -/
theorem get?_mapTexts {value : Value} {path location : Path}
    (h : value.locate? path = some location) (f : String → String) (selected : Path → Bool) :
    (value.mapTexts f selected).get? path =
      (value.get? path).map (mapTexts f fun below => selected (location ++ below)) := by
  induction path generalizing value location selected with
  | nil =>
    cases h
    rfl
  | cons segment rest ih =>
    obtain ⟨slot, child, below, hslot, hchild, hbelow, rfl⟩ := locate?_cons_eq_some.1 h
    rw [get?_cons, get?_cons, child?_mapTexts hslot, hchild]
    exact ih hbelow _

/-- A replaced child selects the locations below its slot. -/
theorem replaceChild_mapTexts {value child : Value} {segment slot : Segment}
    {before after : Path → Bool} (hslot : value.slot? segment = some slot)
    (hchild : value.child? segment = some child)
    (h : ∀ other, other ≠ slot → ∀ path, before (other :: path) = after (other :: path)) :
    (value.mapTexts f before).replaceChild segment
        (child.mapTexts f fun path => after (slot :: path)) = value.mapTexts f after := by
  cases value with
  | mapping fields =>
    obtain rfl : Segment.key segment.text = slot := by simpa [slot?] using hslot
    have hkeys : ∀ key, key ≠ segment.text →
        (fun path => before (.key key :: path)) = fun path => after (.key key :: path) :=
      fun key hkey => funext (h (.key key) (by simpa using hkey))
    simp only [mapTexts, replaceChild]
    exact congrArg mapping (modify_mapTextsFields hchild hkeys)
  | sequence items =>
    obtain ⟨position, hposition, rfl⟩ := Option.map_eq_some_iff.1 hslot
    have hitem : items[position]? = some child := by simpa [child?, hposition] using hchild
    have hpositions : ∀ i, i ≠ position →
        (fun path => before (.index i :: path)) = fun path => after (.index i :: path) :=
      fun i hi => funext (h (.index i) (by simpa using hi))
    simp only [mapTexts, replaceChild, hposition]
    exact congrArg sequence (set_mapTextsItems hitem hpositions)
  | _ => cases hslot

/-- One more edit at a string selects one more location, whether or not it was selected before. -/
theorem update?_mapTexts {edit : Value → Value} {value : Value} {path location : Path}
    {text : String} (hlocate : value.locate? path = some location)
    (htext : value.get? path = some (.string text)) (hf : f (f text) = f text)
    (hedit : ∀ t, edit (.string t) = .string (f t)) (selected : Path → Bool) :
    (value.mapTexts f selected).update? edit path =
      some (value.mapTexts f fun q => selected q || decide (location = q)) := by
  induction path generalizing value location selected with
  | nil =>
    cases hlocate
    obtain rfl : value = .string text := by simpa using htext
    cases hs : selected [] <;> simp [mapTexts, update?, hedit, hs, hf]
  | cons segment rest ih =>
    obtain ⟨slot, child, below, hslot, hchild, hbelow, rfl⟩ := locate?_cons_eq_some.1 hlocate
    have hrest := ih hbelow (by simpa [hchild] using htext) fun q => selected (slot :: q)
    rw [update?, child?_mapTexts hslot, hchild]
    simp only [Option.map_some, Option.bind_some, hrest]
    have hafter : (fun q => selected (slot :: q) || decide (below = q)) =
        fun q => selected (slot :: q) || decide (slot :: below = slot :: q) := by
      funext q
      simp
    have hother : ∀ other, other ≠ slot → ∀ q,
        selected (other :: q) = (selected (other :: q) || decide (slot :: below = other :: q)) := by
      intro other hother q
      simp [Ne.symm hother]
    rw [hafter]
    exact congrArg some (@replaceChild_mapTexts f value child segment slot selected
      (fun q => selected q || decide (slot :: below = q)) hslot hchild hother)

/-! ## One pass and another -/

mutual

theorem mapTexts_none (f : String → String) (value : Value) :
    value.mapTexts f (fun _ => false) = value := by
  cases value with
  | string text => simp [mapTexts]
  | sequence items => rw [mapTexts, mapTextsItems_none]
  | mapping fields => rw [mapTexts, mapTextsFields_none]
  | _ => rfl

theorem mapTextsItems_none (f : String → String) (items : List Value) :
    mapTextsItems f (fun _ _ => false) items = items := by
  cases items with
  | nil => rfl
  | cons item rest => rw [mapTextsItems, mapTexts_none, mapTextsItems_none]

theorem mapTextsFields_none (f : String → String) (fields : List (String × Value)) :
    mapTextsFields f (fun _ _ => false) fields = fields := by
  cases fields with
  | nil => rfl
  | cons field rest =>
    simp only [mapTextsFields, mapTexts_none, Bool.and_false, mapTextsFields_none]

end

/-- An edit that puts one string in the place of another is a pass over one location. -/
theorem update?_eq_mapTexts {edit : Value → Value} {value : Value} {path location : Path}
    {text new : String} (hlocate : value.locate? path = some location)
    (htext : value.get? path = some (.string text)) (hedit : edit (.string text) = .string new) :
    value.update? edit path = some (value.mapTexts (fun _ => new) fun q => location = q) := by
  have hwrite : value.update? edit path = value.update? (fun _ => .string new) path :=
    update?_congr fun found hfound => by
      obtain rfl := Option.some.inj (htext.symm.trans hfound)
      exact hedit
  have hpass := @update?_mapTexts (fun _ => new) (fun _ => .string new) value path location text
    hlocate htext rfl (fun _ => rfl) fun _ => false
  simpa only [hwrite, mapTexts_none, Bool.false_or] using hpass

mutual

/-- Two passes agree if they change every string in the same way. -/
theorem mapTexts_congr {before after : Path → Bool} {value : Value}
    (h : ∀ path text, value.get? path = some (.string text) →
      (if before path then f text else text) = if after path then g text else text) :
    value.mapTexts f before = value.mapTexts g after := by
  cases value with
  | string text => rw [mapTexts, mapTexts, h [] text rfl]
  | sequence items =>
    rw [mapTexts, mapTexts]
    exact congrArg sequence (mapTextsItems_congr fun i path text htext => h (.index i :: path) text
      htext)
  | mapping fields =>
    rw [mapTexts, mapTexts]
    exact congrArg mapping (mapTextsFields_congr fun key path text htext =>
      h (.key key :: path) text htext)
  | _ => rfl

theorem mapTextsItems_congr {before after : Nat → Path → Bool} {items : List Value}
    (h : ∀ i path text, items[i]?.bind (get? · path) = some (.string text) →
      (if before i path then f text else text) = if after i path then g text else text) :
    mapTextsItems f before items = mapTextsItems g after items := by
  cases items with
  | nil => rfl
  | cons item rest =>
    rw [mapTextsItems, mapTextsItems, mapTexts_congr fun path text htext => h 0 path text htext,
      mapTextsItems_congr fun i path text htext => h (i + 1) path text htext]

theorem mapTextsFields_congr {before after : String → Path → Bool} {fields : List (String × Value)}
    (h : ∀ key path text, (Fields.get? key fields).bind (get? · path) = some (.string text) →
      (if before key path then f text else text) = if after key path then g text else text) :
    mapTextsFields f before fields = mapTextsFields g after fields := by
  cases fields with
  | nil => rfl
  | cons field rest =>
    obtain ⟨k, value⟩ := field
    have hfirst : ∀ path text, value.get? path = some (.string text) →
        (if before k path then f text else text) = if after k path then g text else text :=
      fun path text htext => h k path text (by simpa [Fields.get?] using htext)
    have hrest : ∀ key path text, (Fields.get? key rest).bind (get? · path) = some (.string text) →
        (if key ≠ k && before key path then f text else text) =
          if key ≠ k && after key path then g text else text := by
      intro key path text htext
      by_cases hkey : key = k
      · simp [hkey]
      · simpa [hkey] using h key path text (by simpa [Fields.get?, Ne.symm hkey] using htext)
    rw [mapTextsFields, mapTextsFields, mapTexts_congr hfirst, mapTextsFields_congr hrest]

end

mutual

theorem mapTexts_mapTexts (f g : String → String) (selected : Path → Bool) (value : Value) :
    (value.mapTexts f selected).mapTexts g selected = value.mapTexts (g ∘ f) selected := by
  cases value with
  | string text => cases hs : selected [] <;> simp [mapTexts, hs]
  | sequence items => rw [mapTexts, mapTexts, mapTexts, mapTextsItems_mapTextsItems]
  | mapping fields => rw [mapTexts, mapTexts, mapTexts, mapTextsFields_mapTextsFields]
  | _ => rfl

theorem mapTextsItems_mapTextsItems (f g : String → String) (selected : Nat → Path → Bool)
    (items : List Value) :
    mapTextsItems g selected (mapTextsItems f selected items) =
      mapTextsItems (g ∘ f) selected items := by
  cases items with
  | nil => rfl
  | cons item rest => simp only [mapTextsItems, mapTexts_mapTexts, mapTextsItems_mapTextsItems]

theorem mapTextsFields_mapTextsFields (f g : String → String) (selected : String → Path → Bool)
    (fields : List (String × Value)) :
    mapTextsFields g selected (mapTextsFields f selected fields) =
      mapTextsFields (g ∘ f) selected fields := by
  cases fields with
  | nil => rfl
  | cons field rest => simp only [mapTextsFields, mapTexts_mapTexts, mapTextsFields_mapTextsFields]

end

end Stencil.Value
