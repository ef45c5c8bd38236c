import Stencil.Path.Access

/-!
# Shapes, slots and locations

The shape of a value is what it is apart from the values below it. It decides which child a segment
addresses: two segments that fill the same slot of a container read and replace the same child, and
a replaced child is not seen through a segment that fills another slot. The slots along a path are
the location of the place it leads to.

* `Value.shape_replaceChild`: replacing a child keeps the shape.
* `Value.child?_replaceChild_of_ne`: a replaced child is not seen through another slot.
* `Value.replaceChild_child`, `Value.replaceChild_replaceChild`: putting a child back changes
  nothing, and of two children put into one slot the second stays.
* `Value.get?_of_locate?`: a path and its location read the same value.
-/

namespace Stencil

/-- What a value is apart from the values below it. -/
inductive Shape where
  | leaf (value : Value)
  | sequence (length : Nat)
  | mapping (keys : List String)

theorem Segment.text_of_index? {segment : Segment} {position : Nat}
    (h : segment.index? = some position) : segment.text = position.repr := by
  cases segment with
  | key text => exact (index?_key_eq_some_iff.1 h).2
  | index n =>
    cases h
    rfl

namespace Value

/-- The shape of a value. -/
def shape : Value → Shape
  | sequence items => .sequence items.length
  | mapping fields => .mapping (Fields.keys fields)
  | value => .leaf value

/-- The child that a segment addresses in a container of this shape, whether or not it is there: the
key of a field, or the position of an element. -/
def slot? (value : Value) (segment : Segment) : Option Segment :=
  match value with
  | mapping _ => some (.key segment.text)
  | sequence _ => segment.index?.map .index
  | _ => none

theorem slot?_eq_of_shape {v w : Value} (h : v.shape = w.shape) (segment : Segment) :
    v.slot? segment = w.slot? segment := by
  cases v <;> cases w <;> simp_all [shape, slot?]

/-- The shape tells which children are present. -/
theorem child?_isSome_of_shape {v w : Value} (h : v.shape = w.shape) (segment : Segment) :
    (v.child? segment).isSome ↔ (w.child? segment).isSome := by
  cases v with
  | mapping fs =>
    cases w with
    | mapping gs =>
      have hkeys : Fields.keys fs = Fields.keys gs := Shape.mapping.inj h
      simp only [child?, Fields.get?_isSome_iff, hkeys]
    | _ => cases h
  | sequence xs =>
    cases w with
    | sequence ys =>
      have hlength : xs.length = ys.length := Shape.sequence.inj h
      cases hindex : segment.index? <;> simp [child?, hindex, hlength]
    | _ => cases h
  | _ => cases w <;> simp_all [shape, child?]

theorem child?_congr {value : Value} {s t : Segment} (h : value.slot? s = value.slot? t) :
    value.child? s = value.child? t := by
  cases value with
  | mapping fields =>
    have htext : s.text = t.text := by simpa [slot?] using h
    simp only [child?, htext]
  | sequence items =>
    have hindex : s.index? = t.index? :=
      Option.map_injective (fun _ _ => Segment.index.inj) h
    simp only [child?, hindex]
  | _ => rfl

theorem shape_replaceChild (value : Value) (segment : Segment) (child : Value) :
    (value.replaceChild segment child).shape = value.shape := by
  cases value with
  | mapping fields => simp only [replaceChild, shape, Fields.keys_modify]
  | sequence items =>
    simp only [replaceChild]
    split <;> simp [shape]
  | _ => rfl

theorem child?_replaceChild_of_ne {value : Value} {s t : Segment}
    (h : value.slot? s ≠ value.slot? t) (child : Value) :
    (value.replaceChild s child).child? t = value.child? t := by
  cases value with
  | mapping fields =>
    have htext : t.text ≠ s.text := fun ht => h (by simp [slot?, ht])
    exact Fields.get?_modify_of_ne htext _ fields
  | sequence items =>
    cases hs : s.index? with
    | none => simp [replaceChild, hs]
    | some m =>
      cases ht : t.index? with
      | none => simp [replaceChild, hs, child?, ht]
      | some n =>
        have hne : m ≠ n := fun hmn => h (by simp [slot?, hs, ht, hmn])
        simp [replaceChild, hs, child?, ht, List.getElem?_set_ne hne]
  | _ => rfl

/-- A replaced child is seen through every segment that fills its slot. -/
theorem child?_replaceChild_of_eq {value child : Value} {s t : Segment}
    (h : value.slot? s = value.slot? t) (hchild : value.child? s = some child) (new : Value) :
    (value.replaceChild s new).child? t = some new := by
  have hslot : (value.replaceChild s new).slot? s = (value.replaceChild s new).slot? t := by
    rwa [slot?_eq_of_shape (shape_replaceChild value s new),
      slot?_eq_of_shape (shape_replaceChild value s new)]
  rw [← child?_congr hslot]
  exact child?_replaceChild_self new hchild

theorem replaceChild_congr {value : Value} {s t : Segment} (h : value.slot? s = value.slot? t)
    (child : Value) : value.replaceChild s child = value.replaceChild t child := by
  cases value with
  | mapping fields =>
    have htext : s.text = t.text := by simpa [slot?] using h
    simp only [replaceChild, htext]
  | sequence items =>
    have hindex : s.index? = t.index? :=
      Option.map_injective (fun _ _ => Segment.index.inj) h
    simp only [replaceChild, hindex]
  | _ => rfl

/-- Putting a child back where it was changes nothing. -/
theorem replaceChild_child {value child : Value} {segment : Segment}
    (h : value.child? segment = some child) : value.replaceChild segment child = value := by
  cases value with
  | mapping fields => exact congrArg mapping (Fields.modify_of_get? h)
  | sequence items =>
    obtain ⟨position, hposition, hitem⟩ := Option.bind_eq_some_iff.1 h
    obtain ⟨hlt, rfl⟩ := List.getElem?_eq_some_iff.1 hitem
    simp [replaceChild, hposition]
  | _ => rfl

/-- Of two children put into one slot the second stays. -/
theorem replaceChild_replaceChild (value : Value) (segment : Segment) (first second : Value) :
    (value.replaceChild segment first).replaceChild segment second =
      value.replaceChild segment second := by
  cases value with
  | mapping fields => exact congrArg mapping (Fields.modify_modify _ _ _ fields)
  | sequence items => cases hposition : segment.index? <;> simp [replaceChild, hposition]
  | _ => rfl

theorem replaceChild_replaceChild_of_eq {value : Value} {s t : Segment}
    (h : value.slot? s = value.slot? t) (first second : Value) :
    (value.replaceChild s first).replaceChild t second = value.replaceChild t second := by
  rw [replaceChild_congr h, replaceChild_replaceChild]

theorem replaceChild_comm {value : Value} {s t : Segment} (h : value.slot? s ≠ value.slot? t)
    (first second : Value) :
    (value.replaceChild s first).replaceChild t second =
      (value.replaceChild t second).replaceChild s first := by
  cases value with
  | mapping fields =>
    have htext : s.text ≠ t.text := fun ht => h (by simp [slot?, ht])
    exact congrArg mapping (Fields.modify_comm htext _ _ fields)
  | sequence items =>
    cases hs : s.index? with
    | none => cases ht : t.index? <;> simp [replaceChild, hs, ht]
    | some m =>
      cases ht : t.index? with
      | none => simp [replaceChild, hs, ht]
      | some n =>
        have hne : m ≠ n := fun hmn => h (by simp [slot?, hs, ht, hmn])
        simp [replaceChild, hs, ht, List.set_comm _ _ hne]
  | _ => rfl

/-- An edit below a segment that is present replaces the child by its own edit; otherwise nothing
is changed. -/
theorem update?_cons_cases (f : Value → Value) (value : Value) (segment : Segment) (below : Path) :
    (value.update? f (segment :: below)).getD value = value ∨
      ∃ child, value.child? segment = some child ∧
        (value.update? f (segment :: below)).getD value =
          value.replaceChild segment ((child.update? f below).getD child) := by
  cases hchild : value.child? segment with
  | none => exact Or.inl (by simp [update?, hchild])
  | some child =>
    cases hupdate : child.update? f below with
    | none => exact Or.inl (by simp [update?, hchild, hupdate])
    | some child' => exact Or.inr ⟨child, rfl, by simp [update?, hchild, hupdate]⟩

/-- An edit acts on the value that the path leads to, and on nothing else. -/
theorem update?_congr {f g : Value → Value} {doc : Value} {path : Path}
    (h : ∀ value, doc.get? path = some value → f value = g value) :
    doc.update? f path = doc.update? g path := by
  induction path generalizing doc with
  | nil => rw [update?, update?, h doc rfl]
  | cons segment rest ih =>
    rw [update?, update?]
    cases hchild : doc.child? segment with
    | none => rfl
    | some child =>
      have hrest := @ih child fun value hvalue => h value (by simpa [hchild] using hvalue)
      simp only [Option.bind_some, hrest]

/-! ## Locations -/

/-- The location of the place that a path leads to, if it is present: a key for every mapping and a
position for every sequence on the way. -/
def locate? (value : Value) : Path → Option Path
  | [] => some []
  | segment :: rest =>
    (value.slot? segment).bind fun slot =>
      (value.child? segment).bind fun child => (locate? child rest).map (slot :: ·)

theorem locate?_cons_eq_some {value : Value} {segment : Segment} {rest location : Path} :
    value.locate? (segment :: rest) = some location ↔
      ∃ slot child below, value.slot? segment = some slot ∧ value.child? segment = some child ∧
        child.locate? rest = some below ∧ location = slot :: below := by
  simp only [locate?, Option.bind_eq_some_iff, Option.map_eq_some_iff]
  constructor
  · rintro ⟨slot, hslot, child, hchild, below, hbelow, rfl⟩
    exact ⟨slot, child, below, hslot, hchild, hbelow, rfl⟩
  · rintro ⟨slot, child, below, hslot, hchild, hbelow, rfl⟩
    exact ⟨slot, hslot, child, hchild, below, hbelow, rfl⟩

/-- A child is addressed by its slot itself. -/
theorem slot?_slot {value : Value} {segment slot : Segment} (h : value.slot? segment = some slot) :
    value.slot? slot = some slot := by
  cases value with
  | mapping fields =>
    obtain rfl : Segment.key segment.text = slot := by simpa [slot?] using h
    rfl
  | sequence items =>
    obtain ⟨position, -, rfl⟩ := Option.map_eq_some_iff.1 h
    rfl
  | _ => cases h

theorem exists_slot?_of_child? {value child : Value} {segment : Segment}
    (h : value.child? segment = some child) : ∃ slot, value.slot? segment = some slot := by
  cases value with
  | mapping fields => exact ⟨_, rfl⟩
  | sequence items =>
    obtain ⟨position, hp, -⟩ := Option.bind_eq_some_iff.1 h
    exact ⟨.index position, by simp [slot?, hp]⟩
  | _ => cases h

/-- A path has a location exactly when it is present. -/
theorem exists_locate?_iff {value : Value} {path : Path} :
    (∃ location, value.locate? path = some location) ↔ value.Has path := by
  induction path generalizing value with
  | nil => simp [locate?, Has]
  | cons segment rest ih =>
    rw [Has, get?_cons]
    constructor
    · rintro ⟨location, h⟩
      obtain ⟨slot, child, below, -, hchild, hbelow, -⟩ := locate?_cons_eq_some.1 h
      rw [hchild]
      exact ih.1 ⟨below, hbelow⟩
    · intro h
      cases hchild : value.child? segment with
      | none => simp [hchild] at h
      | some child =>
        obtain ⟨slot, hslot⟩ := exists_slot?_of_child? hchild
        obtain ⟨below, hbelow⟩ := ih.2 (by simpa [Has, hchild] using h)
        exact ⟨_, locate?_cons_eq_some.2 ⟨slot, child, below, hslot, hchild, hbelow, rfl⟩⟩

/-- A path and its location read the same value. -/
theorem get?_of_locate? {value : Value} {path location : Path}
    (h : value.locate? path = some location) : value.get? location = value.get? path := by
  induction path generalizing value location with
  | nil =>
    cases h
    rfl
  | cons segment rest ih =>
    obtain ⟨slot, child, below, hslot, hchild, hbelow, rfl⟩ := locate?_cons_eq_some.1 h
    have hsame : value.child? slot = some child := by
      rw [← hchild, child?_congr ((slot?_slot hslot).trans hslot.symm)]
    rw [get?_cons, get?_cons, hsame, hchild]
    exact ih hbelow

end Value

end Stencil
