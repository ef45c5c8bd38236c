import Stencil.Path.Basic
import Stencil.Value.Basic

/-!
# Reading and writing along a path

`Value.get?` follows a path into a document, `Value.update?` changes the value it leads to, and
`Value.write` writes a value there. Writing needs every segment but the last to be present; it may
add a field to a mapping but never lengthens a sequence.

* `Value.child?_replaceChild_self`: a replaced child is found again.
* `Value.update?_isSome_iff`: a value is updated exactly when it is found.
* `Value.set_eq_ok_iff`: a document is set where it can be written.
-/

namespace Stencil

/-- Why a value cannot be written at a path. Each case holds the text of the path and the text of
the segment at fault. -/
inductive WriteError where
  /-- A segment before the last is absent. -/
  | missingSegment (path segment : String)
  /-- A segment is applied to a leaf. -/
  | notAContainer (path segment : String)
  /-- The last segment is no position of the sequence it is applied to. -/
  | indexOutOfBounds (path segment : String) (length : Nat)
deriving DecidableEq

/-- The text shown for the error. -/
def WriteError.message : WriteError → String
  | missingSegment path segment =>
    "segment '" ++ segment ++ "' of path '" ++ path ++ "' does not exist"
  | notAContainer path segment =>
    "cannot write '" ++ segment ++ "' of path '" ++ path ++
      "': parent is not a mapping or sequence"
  | indexOutOfBounds path segment length =>
    "index '" ++ segment ++ "' of path '" ++ path ++
      "' is outside a sequence of length " ++ length.repr

/-- The text shown where errors of all kinds are reported with a code. -/
def WriteError.wrappedMessage (error : WriteError) : String :=
  "PATH_WRITE_ERROR: " ++ error.message

namespace Value

/-- The value one segment below. -/
def child? (segment : Segment) : Value → Option Value
  | mapping fields => Fields.get? segment.text fields
  | sequence items => segment.index?.bind fun position => items[position]?
  | _ => none

/-- The value with the child at a segment that is present replaced. -/
def replaceChild (doc : Value) (segment : Segment) (value : Value) : Value :=
  match doc with
  | mapping fields => mapping (Fields.modify segment.text (fun _ => value) fields)
  | sequence items =>
    match segment.index? with
    | some position => sequence (items.set position value)
    | none => sequence items
  | leaf => leaf

/-- The value that a path leads to. -/
def get? (doc : Value) : Path → Option Value
  | [] => some doc
  | segment :: rest => (doc.child? segment).bind (get? · rest)

/-- Whether every segment of a path is present. A null value is present like any other. -/
def Has (doc : Value) (path : Path) : Prop :=
  (doc.get? path).isSome = true

instance (doc : Value) (path : Path) : Decidable (doc.Has path) :=
  inferInstanceAs (Decidable (_ = true))

/-- The document with the value that a path leads to replaced by its image. -/
def update? (f : Value → Value) (doc : Value) : Path → Option Value
  | [] => some (f doc)
  | segment :: rest =>
    (doc.child? segment).bind fun child =>
      (update? f child rest).map fun child' => doc.replaceChild segment child'

/-- Writes a value under the last segment of the path with the text `path`: a field is added or
overwritten, an element overwritten. Gives the container as the write leaves it, and the outcome. -/
def writeLast (path : String) (last : Segment) (value : Value) :
    Value → Value × Except WriteError Unit
  | mapping fields => (mapping (Fields.insert last.text value fields), .ok ())
  | sequence items =>
    match last.index? with
    | some position =>
      if position < items.length then (sequence (items.set position value), .ok ())
      else (sequence items, .error (.indexOutOfBounds path last.text items.length))
    | none => (sequence items, .error (.indexOutOfBounds path last.text items.length))
  | leaf => (leaf, .error (.notAContainer path last.text))

/-- Writes a value under the segments that lead to the container and the last one. What happens to
the child on the way happens to it in its place. -/
def writeBelow (path : String) (last : Segment) (value : Value) (doc : Value) :
    Path → Value × Except WriteError Unit
  | [] => writeLast path last value doc
  | segment :: rest =>
    if doc.IsDocument then
      match doc.child? segment with
      | some child =>
        let (child', outcome) := writeBelow path last value child rest
        (doc.replaceChild segment child', outcome)
      | none => (doc, .error (.missingSegment path segment.text))
    else (doc, .error (.notAContainer path segment.text))

/-- The document as an attempt to write a value at a path leaves it, and whether the attempt
succeeds. The empty path replaces the document. -/
def write (doc : Value) (path : Path) (value : Value) : Value × Except WriteError Unit :=
  match path.getLast? with
  | some last => writeBelow path.text last value doc path.dropLast
  | none => (value, .ok ())

/-- The document with a value written at a path, or the reason why it cannot be. -/
def set (doc : Value) (path : Path) (value : Value) : Except WriteError Value :=
  match doc.write path value with
  | (doc', .ok ()) => .ok doc'
  | (_, .error error) => .error error

/-! ## Reading behind a replaced child -/

@[simp] theorem get?_nil (doc : Value) : doc.get? [] = some doc := rfl

@[simp] theorem get?_cons (doc : Value) (segment : Segment) (rest : Path) :
    doc.get? (segment :: rest) = (doc.child? segment).bind (get? · rest) := rfl

theorem get?_append (doc : Value) (p q : Path) :
    doc.get? (p ++ q) = (doc.get? p).bind (get? · q) := by
  induction p generalizing doc with
  | nil => simp
  | cons segment p ih =>
    simp only [List.cons_append, get?_cons, Option.bind_assoc]
    exact congrArg _ (funext fun child => ih child)

theorem child?_replaceChild_self {doc child : Value} {segment : Segment} (value : Value)
    (h : doc.child? segment = some child) :
    (doc.replaceChild segment value).child? segment = some value := by
  cases doc with
  | mapping fields =>
    simp only [child?] at h
    simp [replaceChild, child?, Fields.get?_modify_self, h]
  | sequence items =>
    obtain ⟨position, hp, hi⟩ := Option.bind_eq_some_iff.1 h
    have := (List.getElem?_eq_some_iff.1 hi).1
    simp [replaceChild, child?, hp, this]
  | _ => simp [child?] at h

theorem update?_isSome_iff {f : Value → Value} {doc : Value} {path : Path} :
    (doc.update? f path).isSome ↔ doc.Has path := by
  induction path generalizing doc with
  | nil => simp [update?, Has]
  | cons segment rest ih =>
    simp only [update?, Has, get?_cons]
    cases doc.child? segment with
    | none => simp
    | some child => simpa [Has] using @ih child

/-! ## The steps of a write -/

theorem write_concat (doc : Value) (parents : Path) (last : Segment) (value : Value) :
    doc.write (parents ++ [last]) value =
      writeBelow (Path.text (parents ++ [last])) last value doc parents := by
  simp [write]

theorem set_eq_ok_iff {doc value doc' : Value} {path : Path} :
    doc.set path value = .ok doc' ↔ doc.write path value = (doc', .ok ()) := by
  unfold set
  split <;> simp_all

end Value

end Stencil
