import Mathlib.Data.List.Forall2
import Mathlib.Data.List.Perm.Subperm
import Stencil.Proofs.Path.Slot
import Stencil.Value.Equal

/-!
# Values that differ in the order of fields

Structural equality is decided by looking the fields of one mapping up in the other. Among values in
which no mapping has a key twice it is the relation of values that differ, at any depth, in no more
than the order of fields and the sign of zeros. This relation is symmetric and transitive, and what
a path reads and writes respects it.

* `Value.KeysDistinct`: no mapping in a value has a key twice.
* `Value.Alike`: values with the same items, place by place, and the same fields, key by key.
* `Value.alike_iff`: among values with distinct keys, the alike are the structurally equal.
* `Value.KeysDistinct.alike_self`, `Value.Alike.symm`, `Value.Alike.trans`: among values with
  distinct keys, being alike is an equivalence.
* `Value.Alike.update?`: edits in one place leave alike values alike.
-/

namespace Stencil

namespace Number

theorem equal_refl (n : Number) : n.equal n = true := by
  cases n <;> simp [equal, Double.same]

theorem equal_symm {m n : Number} (h : m.equal n = true) : n.equal m = true := by
  cases m <;> cases n <;> grind [equal, Double.same]

theorem equal_trans {l m n : Number} (h : l.equal m = true) (h' : m.equal n = true) :
    l.equal n = true := by
  cases l <;> cases m <;> cases n <;> grind [equal, Double.same]

end Number

namespace Value

/-- No mapping in the value has a key twice. -/
inductive KeysDistinct : Value → Prop
  | null : KeysDistinct null
  | bool (value : Bool) : KeysDistinct (bool value)
  | number (value : Number) : KeysDistinct (number value)
  | string (text : String) : KeysDistinct (string text)
  | sequence {items : List Value} :
    (∀ item ∈ items, KeysDistinct item) → KeysDistinct (sequence items)
  | mapping {fields : Fields Value} :
    (Fields.keys fields).Nodup → (∀ field ∈ fields, KeysDistinct field.2) →
    KeysDistinct (mapping fields)

attribute [simp] KeysDistinct.null KeysDistinct.bool KeysDistinct.number KeysDistinct.string

/-- Two values are alike when they differ in no more than the order of fields, at any depth, and the
sign of zeros. -/
inductive Alike : Value → Value → Prop
  | null : Alike null null
  | bool (value : Bool) : Alike (bool value) (bool value)
  | number {m n : Number} : m.equal n = true → Alike (number m) (number n)
  | string (text : String) : Alike (string text) (string text)
  | sequence {xs ys : List Value} :
    xs.length = ys.length →
    (∀ (i : Nat) x y, xs[i]? = some x → ys[i]? = some y → Alike x y) →
    Alike (sequence xs) (sequence ys)
  | mapping {fs gs : Fields Value} :
    (Fields.keys fs).Nodup → (Fields.keys gs).Nodup →
    (∀ key, key ∈ Fields.keys fs ↔ key ∈ Fields.keys gs) →
    (∀ key x y, Fields.get? key fs = some x → Fields.get? key gs = some y → Alike x y) →
    Alike (mapping fs) (mapping gs)

/-! ## What structural equality compares -/

theorem equalItems_iff {xs ys : List Value} :
    equalItems xs ys = true ↔ List.Forall₂ (fun x y => x.equal y = true) xs ys := by
  induction xs generalizing ys with
  | nil => cases ys <;> simp [equalItems]
  | cons x xs ih => cases ys <;> simp [equalItems, ih]

theorem equalFields_iff {fs gs : Fields Value} :
    equalFields fs gs = true ↔
      ∀ field ∈ fs, ∃ y, Fields.get? field.1 gs = some y ∧ field.2.equal y = true := by
  induction fs with
  | nil => simp [equalFields]
  | cons field rest ih =>
    obtain ⟨key, x⟩ := field
    rw [equalFields, List.forall_mem_cons, ← ih]
    cases Fields.get? key gs <;> simp

/-- Fields with distinct keys, as many as others, in which all keys of the others occur, have no
further keys. -/
theorem mem_keys_iff_of_subset {fs gs : Fields Value} (hkeys : (Fields.keys fs).Nodup)
    (hlength : fs.length = gs.length) (h : Fields.keys fs ⊆ Fields.keys gs) (key : String) :
    key ∈ Fields.keys fs ↔ key ∈ Fields.keys gs := by
  have hle : (Fields.keys gs).length ≤ (Fields.keys fs).length := by simp [Fields.keys, hlength]
  exact ((List.subperm_of_subset hkeys h).perm_of_length_le hle).mem_iff

/-! ## Items and fields of alike values -/

theorem forall₂_iff_getElem? {α β : Type} {R : α → β → Prop} {xs : List α} {ys : List β} :
    List.Forall₂ R xs ys ↔ xs.length = ys.length ∧
      ∀ (i : Nat) x y, xs[i]? = some x → ys[i]? = some y → R x y := by
  rw [List.forall₂_iff_get]
  refine and_congr_right fun _ => ⟨fun h i x y hx hy => ?_, fun h i hx hy => ?_⟩
  · obtain ⟨hi, rfl⟩ := List.getElem?_eq_some_iff.1 hx
    obtain ⟨hi', rfl⟩ := List.getElem?_eq_some_iff.1 hy
    exact h i hi hi'
  · exact h i _ _ (List.getElem?_eq_getElem hx) (List.getElem?_eq_getElem hy)

theorem alike_sequence_iff {xs ys : List Value} :
    (sequence xs).Alike (sequence ys) ↔ List.Forall₂ Alike xs ys := by
  rw [forall₂_iff_getElem?]
  constructor
  · rintro (_ | _ | _ | _ | ⟨hlength, h⟩)
    exact ⟨hlength, h⟩
  · exact fun ⟨hlength, h⟩ => .sequence hlength h

theorem optionRel_iff {α β : Type} {R : α → β → Prop} {x : Option α} {y : Option β} :
    Option.Rel R x y ↔ (x.isSome ↔ y.isSome) ∧ ∀ a b, x = some a → y = some b → R a b := by
  cases x <;> cases y <;> simp

section optionRel

variable {α β γ δ : Type} {R : α → β → Prop} {S : γ → δ → Prop} {x : Option α} {y : Option β}

theorem optionRel_map {f : α → γ} {g : β → δ} (h : Option.Rel R x y)
    (hmap : ∀ a b, R a b → S (f a) (g b)) : Option.Rel S (x.map f) (y.map g) := by
  cases h with
  | none => exact .none
  | some h => exact .some (hmap _ _ h)

theorem optionRel_bind {f : α → Option γ} {g : β → Option δ} (h : Option.Rel R x y)
    (hbind : ∀ a b, R a b → Option.Rel S (f a) (g b)) : Option.Rel S (x.bind f) (y.bind g) := by
  cases h with
  | none => exact .none
  | some h => exact hbind _ _ h

theorem optionRel_or {x' : Option α} {y' : Option β} (h : Option.Rel R x y)
    (h' : Option.Rel R x' y') : Option.Rel R (x.or x') (y.or y') := by
  cases h with
  | none => exact h'
  | some h => exact .some h

theorem optionRel_getD {a : α} {b : β} (h : Option.Rel R x y) (hdefault : R a b) :
    R (x.getD a) (y.getD b) := by
  cases h with
  | none => exact hdefault
  | some h => exact h

end optionRel

/-- Mappings are alike when their keys are distinct and each key finds alike values in them, or
none in both. -/
theorem alike_mapping_iff {fs gs : Fields Value} :
    (mapping fs).Alike (mapping gs) ↔ (Fields.keys fs).Nodup ∧ (Fields.keys gs).Nodup ∧
      ∀ key, Option.Rel Alike (Fields.get? key fs) (Fields.get? key gs) := by
  simp only [optionRel_iff, Fields.get?_isSome_iff, forall_and]
  constructor
  · intro h
    cases h with
    | mapping hfs hgs hkeys h => exact ⟨hfs, hgs, hkeys, h⟩
  · exact fun ⟨hfs, hgs, hkeys, h⟩ => .mapping hfs hgs hkeys h

/-! ## An equivalence -/

theorem KeysDistinct.alike_self {v : Value} (h : v.KeysDistinct) : v.Alike v := by
  induction h with
  | null => exact .null
  | bool value => exact .bool value
  | number n => exact .number n.equal_refl
  | string text => exact .string text
  | sequence _ ih => exact alike_sequence_iff.2 (List.forall₂_same.2 ih)
  | mapping hkeys _ ih =>
    refine .mapping hkeys hkeys (fun _ => Iff.rfl) fun key x y hx hy => ?_
    obtain rfl := Option.some.inj (hx.symm.trans hy)
    exact ih _ (Fields.mem_of_get? hx)

namespace Alike

variable {u v w : Value}

theorem symm (h : v.Alike w) : w.Alike v := by
  induction h with
  | null => exact .null
  | bool value => exact .bool value
  | number h => exact .number (Number.equal_symm h)
  | string text => exact .string text
  | sequence hlength _ ih => exact .sequence hlength.symm fun i x y hx hy => ih i y x hy hx
  | mapping hfs hgs hkeys _ ih =>
    exact .mapping hgs hfs (fun key => (hkeys key).symm) fun key x y hx hy => ih key y x hy hx

theorem trans (h : u.Alike v) (h' : v.Alike w) : u.Alike w := by
  induction h generalizing w with
  | null => exact h'
  | bool value => exact h'
  | number h =>
    cases h' with
    | number h' => exact .number (Number.equal_trans h h')
  | string text => exact h'
  | @sequence xs ys hlength _ ih =>
    cases h' with
    | sequence hlength' h' =>
      refine .sequence (hlength.trans hlength') fun i x z hx hz => ?_
      have hi : i < ys.length := hlength ▸ (List.getElem?_eq_some_iff.1 hx).1
      have hy := List.getElem?_eq_getElem hi
      exact ih i x _ hx hy (h' i _ z hy hz)
  | mapping hfs hgs hkeys _ ih =>
    cases h' with
    | mapping hgs' hhs hkeys' h' =>
      refine .mapping hfs hhs (fun key => (hkeys key).trans (hkeys' key)) fun key x z hx hz => ?_
      have hmem := (hkeys key).1 (Fields.get?_isSome_iff.1 (Option.isSome_of_eq_some hx))
      obtain ⟨y, hy⟩ := Option.isSome_iff_exists.1 (Fields.get?_isSome_iff.2 hmem)
      exact ih key x y hx hy (h' key y z hy hz)

theorem keysDistinct (h : v.Alike w) : v.KeysDistinct := by
  induction h with
  | null => exact .null
  | bool value => exact .bool value
  | number => exact .number _
  | string text => exact .string text
  | @sequence xs ys hlength _ ih =>
    refine .sequence fun item hitem => ?_
    obtain ⟨i, hi⟩ := List.getElem?_of_mem hitem
    have hlt : i < ys.length := hlength ▸ (List.getElem?_eq_some_iff.1 hi).1
    exact ih i item _ hi (List.getElem?_eq_getElem hlt)
  | mapping hfs hgs hkeys _ ih =>
    refine .mapping hfs fun field hfield => ?_
    have hmem := (hkeys field.1).1 (List.mem_map_of_mem hfield)
    obtain ⟨y, hy⟩ := Option.isSome_iff_exists.1 (Fields.get?_isSome_iff.2 hmem)
    exact ih field.1 field.2 y (Fields.get?_of_mem hfs hfield) hy

theorem equal (h : v.Alike w) : v.equal w = true := by
  induction h with
  | null => rfl
  | bool value => simp [Value.equal]
  | number h => exact h
  | string text => simp [Value.equal]
  | sequence hlength _ ih => exact equalItems_iff.2 (forall₂_iff_getElem?.2 ⟨hlength, ih⟩)
  | @mapping fs gs hfs hgs hkeys _ ih =>
    have hlength : fs.length = gs.length := by
      simpa [Fields.keys] using ((List.perm_ext_iff_of_nodup hfs hgs).2 hkeys).length_eq
    have hfields : equalFields fs gs = true := equalFields_iff.2 fun field hfield => by
      have hmem := (hkeys field.1).1 (List.mem_map_of_mem hfield)
      obtain ⟨y, hy⟩ := Option.isSome_iff_exists.1 (Fields.get?_isSome_iff.2 hmem)
      exact ⟨y, hy, ih field.1 field.2 y (Fields.get?_of_mem hfs hfield) hy⟩
    simp [Value.equal, hlength, hfields]

end Alike

theorem KeysDistinct.alike_of_equal {v w : Value} (hv : v.KeysDistinct) (hw : w.KeysDistinct)
    (h : v.equal w = true) : v.Alike w := by
  induction hv generalizing w with
  | sequence _ ih =>
    cases hw with
    | sequence hys =>
      obtain ⟨hlength, hequal⟩ := forall₂_iff_getElem?.1 (equalItems_iff.1 h)
      refine .sequence hlength fun i x y hx hy => ?_
      exact ih x (List.mem_of_getElem? hx) (hys y (List.mem_of_getElem? hy)) (hequal i x y hx hy)
    | _ => cases h
  | @mapping fs hfs _ ih =>
    cases hw with
    | @mapping gs hgs hvalues =>
      obtain ⟨hlength, hequal⟩ : fs.length = gs.length ∧ equalFields fs gs = true := by
        simpa [equal] using h
      rw [equalFields_iff] at hequal
      have hsubset : Fields.keys fs ⊆ Fields.keys gs := by
        intro key hkey
        obtain ⟨field, hfield, rfl⟩ := List.mem_map.1 hkey
        obtain ⟨y, hy, -⟩ := hequal field hfield
        exact Fields.get?_isSome_iff.1 (Option.isSome_of_eq_some hy)
      refine .mapping hfs hgs (mem_keys_iff_of_subset hfs hlength hsubset) fun key x y hx hy => ?_
      obtain ⟨y', hy', hxy⟩ := hequal _ (Fields.mem_of_get? hx)
      obtain rfl := Option.some.inj (hy'.symm.trans hy)
      exact ih _ (Fields.mem_of_get? hx) (hvalues _ (Fields.mem_of_get? hy)) hxy
    | _ => cases h
  | number m =>
    cases hw with
    | number n => exact .number h
    | _ => cases h
  | bool a =>
    cases hw with
    | bool b =>
      obtain rfl : a = b := by simpa [equal] using h
      exact .bool a
    | _ => cases h
  | string s =>
    cases hw with
    | string t =>
      obtain rfl : s = t := by simpa [equal] using h
      exact .string s
    | _ => cases h
  | null =>
    cases hw with
    | null => exact .null
    | _ => cases h

/-- **Among values with distinct keys, the alike are the structurally equal.** -/
theorem alike_iff {v w : Value} :
    v.Alike w ↔ v.KeysDistinct ∧ w.KeysDistinct ∧ v.equal w = true :=
  ⟨fun h => ⟨h.keysDistinct, h.symm.keysDistinct, h.equal⟩,
    fun ⟨hv, hw, h⟩ => hv.alike_of_equal hw h⟩

/-- Structural equality does not tell alike values apart. -/
theorem Alike.equal_congr {v v' w w' : Value} (h : v.Alike v') (h' : w.Alike w') :
    v.equal w = v'.equal w' := by
  refine Bool.eq_iff_iff.2 ⟨fun hequal => ?_, fun hequal => ?_⟩
  · exact (h.symm.trans ((h.keysDistinct.alike_of_equal h'.keysDistinct hequal).trans h')).equal
  · have hvw := h.symm.keysDistinct.alike_of_equal h'.symm.keysDistinct hequal
    exact (h.trans (hvw.trans h'.symm)).equal

/-! ## Reading and writing -/

namespace Alike

variable {v w c d : Value}

theorem isDocument_iff (h : v.Alike w) : v.IsDocument ↔ w.IsDocument := by
  cases h <;> simp [IsDocument]

theorem child? (h : v.Alike w) (segment : Segment) :
    Option.Rel Alike (v.child? segment) (w.child? segment) := by
  cases h with
  | mapping hfs hgs hkeys h =>
    exact (alike_mapping_iff.1 (.mapping hfs hgs hkeys h)).2.2 segment.text
  | sequence hlength h =>
    simp only [Value.child?]
    cases segment.index? with
    | none => exact .none
    | some position =>
      refine optionRel_iff.2 ⟨?_, h position⟩
      simp [hlength]
  | _ => exact .none

theorem replaceChild (h : v.Alike w) (segment : Segment) (hchild : c.Alike d) :
    (v.replaceChild segment c).Alike (w.replaceChild segment d) := by
  cases h with
  | mapping hfs hgs hkeys h =>
    obtain ⟨-, -, hvalues⟩ := alike_mapping_iff.1 (.mapping hfs hgs hkeys h)
    refine alike_mapping_iff.2 ⟨by rwa [Fields.keys_modify], by rwa [Fields.keys_modify], ?_⟩
    intro key
    by_cases hkey : key = segment.text
    · subst hkey
      rw [Fields.get?_modify_self, Fields.get?_modify_self]
      exact optionRel_map (hvalues segment.text) fun _ _ _ => hchild
    · rw [Fields.get?_modify_of_ne hkey, Fields.get?_modify_of_ne hkey]
      exact hvalues key
  | @sequence xs ys hlength h =>
    simp only [Value.replaceChild]
    cases segment.index? with
    | none => exact .sequence hlength h
    | some position =>
      refine .sequence (by simpa using hlength) fun i x y hx hy => ?_
      by_cases hi : position = i
      · subst hi
        grind
      · rw [List.getElem?_set_ne hi] at hx hy
        exact h i x y hx hy
  | null => exact .null
  | bool value => exact .bool value
  | number h => exact .number h
  | string text => exact .string text

/-- Edits in one place leave alike values alike, if they make alike values of alike ones. -/
theorem update? {f g : Value → Value} (hedit : ∀ x y, x.Alike y → (f x).Alike (g y))
    (h : v.Alike w) (path : Path) : Option.Rel Alike (v.update? f path) (w.update? g path) := by
  induction path generalizing v w with
  | nil => exact .some (hedit v w h)
  | cons segment rest ih =>
    exact optionRel_bind (h.child? segment) fun _ _ hchild =>
      optionRel_map (ih hchild) fun _ _ hrest => h.replaceChild segment hrest

end Alike

end Value

end Stencil
