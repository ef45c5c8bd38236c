import Stencil.Value.Basic

/-!
# Values as they are written

A `Written` tree is a value as a notation spells it: a record keeps repeated keys, and a scalar may
be well formed and yet denote nothing, such as a number out of range or a text with half of a
surrogate pair. Both notations of a plan are read into such trees, and `Written.value?` says which
value a tree denotes, if any.
-/

namespace Stencil

/-- A value as it is written. -/
inductive Written where
  | null
  | bool (value : Bool)
  /-- A number, or nothing if it is out of range. -/
  | number (value : Option Number)
  /-- A number that is infinite or no number at all. -/
  | nonFinite
  /-- A text, or nothing if it is no sequence of characters. -/
  | string (text : Option String)
  | list (items : List Written)
  /-- Keys with values, in order, a key as often as it is written. -/
  | record (entries : List (Option String × Written))

namespace Written

mutual

/-- The number of lists and records that are nested in the tree. -/
def height : Written → Nat
  | list items => heightOfItems items + 1
  | record entries => heightOfEntries entries + 1
  | _ => 0

/-- The greatest height of the items. -/
def heightOfItems : List Written → Nat
  | [] => 0
  | item :: rest => max (height item) (heightOfItems rest)

/-- The greatest height of the values in the entries. -/
def heightOfEntries : List (Option String × Written) → Nat
  | [] => 0
  | (_, value) :: rest => max (height value) (heightOfEntries rest)

end

mutual

/-- The value that a tree denotes. A repeated key keeps its first place and takes its last value,
and a number that is not finite denotes null. -/
def value? : Written → Option Value
  | null => some .null
  | bool value => some (.bool value)
  | number value => value.map .number
  | nonFinite => some .null
  | string text => text.map .string
  | list items => (itemValues? items).map .sequence
  | record entries => (entryValues? entries).map fun values => .mapping (Fields.ofEntries values)

/-- The values that a list of trees denotes. -/
def itemValues? : List Written → Option (List Value)
  | [] => some []
  | item :: rest => (value? item).bind fun v => (itemValues? rest).map (v :: ·)

/-- The keys and values that the entries of a record denote. -/
def entryValues? : List (Option String × Written) → Option (List (String × Value))
  | [] => some []
  | (key, item) :: rest =>
    key.bind fun k => (value? item).bind fun v => (entryValues? rest).map ((k, v) :: ·)

end

end Written

end Stencil
