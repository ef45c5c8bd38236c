/-!
# Paths

A `Path` is a list of segments, each a key or an index, that leads from a document to a value in
it. A key that is the decimal text of an index also addresses the elements of a sequence, and an
index also addresses the field of a mapping whose key is its decimal text.

* `Segment.index?_key_eq_some_iff`: a key denotes an index when it is the decimal text of a number
  below `2 ^ 64`.
-/

namespace Stencil

/-- One step into a document. -/
inductive Segment where
  | key (text : String)
  | index (position : Nat)
deriving DecidableEq

/-- A list of steps into a document; the empty path leads to the document itself. -/
abbrev Path := List Segment

namespace Segment

/-- The key that the segment is on a mapping. -/
def text : Segment → String
  | key text => text
  | index position => position.repr

@[simp] theorem text_key (text : String) : (key text).text = text := rfl

/-- Indices lie below this bound, `2 ^ 64`. -/
def indexBound : Nat :=
  0x10000000000000000

/-- The position that the segment is on a sequence. -/
def index? : Segment → Option Nat
  | key text =>
    let position := Nat.ofDigitChars 10 text.toList 0
    if position < indexBound ∧ position.repr = text then some position else none
  | index position => some position

theorem index?_key_eq_some_iff {text : String} {position : Nat} :
    (key text).index? = some position ↔ position < indexBound ∧ text = position.repr := by
  simp only [index?, Option.ite_none_right_eq_some, Option.some.injEq]
  constructor
  · rintro ⟨⟨h, h'⟩, rfl⟩
    exact ⟨h, h'.symm⟩
  · rintro ⟨h, rfl⟩
    have : Nat.ofDigitChars 10 position.repr.toList 0 = position := by simp [Nat.repr]
    rw [this]
    exact ⟨⟨h, rfl⟩, rfl⟩

end Segment

namespace Path

/-- The texts of the segments, joined by dots. -/
def text (path : Path) : String :=
  ".".intercalate (path.map Segment.text)

/-- The path of keys that a dotted text spells. -/
def ofText (text : String) : Path :=
  (text.toList.splitOn '.').map fun part => .key (String.ofList part)

end Path

end Stencil
