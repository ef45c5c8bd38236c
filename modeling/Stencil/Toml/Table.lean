import Stencil.Value.Fields
import Stencil.Written

/-!
# The tables of a TOML text

A TOML text fills a tree of tables: an assignment puts a value under a key, which may lead through
tables, and a header opens the table that the assignments behind it fill. A table remembers how it
came to be, for that decides what may be added to it later:

* a table that a header names is complete behind its section, except for tables inside it;
* a table that a header only passes through may be named by one header later, and then moves to the
  end of its parent;
* a table that the key of an assignment passes through may be extended by such keys only.

Nothing is ever overwritten.
-/

namespace Stencil.Toml

/-- How a table came to be. -/
inductive Origin where
  /-- A header names the table. -/
  | named
  /-- A header passes through the table. -/
  | passed
  /-- The key of an assignment passes through the table. -/
  | dotted
deriving DecidableEq

/-- What stands under a key. -/
inductive Item where
  | value (tree : Written)
  | table (origin : Origin) (entries : List (String × Item))
  /-- A list of tables, each the entries under one header. -/
  | tables (elements : List (List (String × Item)))

/-- The entries of a table. -/
abbrev Entries := Fields Item

/-- Changes what stands under a key, if the change allows it. A new key goes to the end. -/
def alter? (key : String) (f : Option Item → Option Item) : Entries → Option Entries
  | [] => (f none).map fun item => [(key, item)]
  | (k, item) :: rest =>
    if k = key then (f (some item)).map fun item => (k, item) :: rest
    else (alter? key f rest).map ((k, item) :: ·)

/-- Changes the last element of a list, if there is one and the change allows it. -/
def alterLast? {α : Type} (f : α → Option α) : List α → Option (List α)
  | [] => none
  | [a] => (f a).map ([·])
  | a :: rest => (alterLast? f rest).map (a :: ·)

/-! ## Assignments -/

/-- Puts a value at the end of a path. The tables on the path must be those of other dotted keys; a
table passed by headers or the last of a list of tables may be on it, but not hold the value. -/
def assign? (tree : Written) : List String → Entries → Option Entries
  | [], _ => none
  | [key], entries =>
    alter? key (fun item => if item.isNone then some (.value tree) else none) entries
  | key :: next :: rest, entries =>
    alter? key (fun
      | none => (assign? tree (next :: rest) []).map (.table .dotted)
      | some (.table .dotted inner) => (assign? tree (next :: rest) inner).map (.table .dotted)
      | some (.table .passed inner) =>
        if rest = [] then none else (assign? tree (next :: rest) inner).map (.table .passed)
      | some (.tables elements) =>
        if rest = [] then none
        else (alterLast? (assign? tree (next :: rest)) elements).map .tables
      | _ => none) entries

/-! ## Headers -/

/-- Changes the entries of the table to which a path leads. Tables that are not there are made, and
a list of tables stands for its last element. -/
def within? (f : Entries → Option Entries) : List String → Entries → Option Entries
  | [], entries => f entries
  | key :: rest, entries =>
    alter? key (fun
      | none => (within? f rest []).map (.table .passed)
      | some (.table origin inner) => (within? f rest inner).map (.table origin)
      | some (.tables elements) => (alterLast? (within? f rest) elements).map .tables
      | some (.value _) => none) entries

/-- Opens the table that a header names. If headers have passed through it, it keeps its entries
and moves to the end. -/
def openTable? (key : String) (entries : Entries) : Option Entries :=
  match entries.get? key with
  | none => some (entries ++ [(key, .table .named [])])
  | some (.table .passed inner) =>
    some (entries.filter (·.1 ≠ key) ++ [(key, .table .named inner)])
  | _ => none

/-- Opens a new element of the list of tables that a header names. -/
def openElement? (key : String) (entries : Entries) : Option Entries :=
  alter? key (fun
    | none => some (.tables [[]])
    | some (.tables elements) => some (.tables (elements ++ [[]]))
    | _ => none) entries

/-- A line of a TOML text that is not blank. -/
inductive Statement where
  | assign (path : List String) (tree : Written)
  | table (path : List String)
  /-- Opens an element of a list of tables. -/
  | element (path : List String)

/-- The tables filled so far, and the path to the one that is open. -/
structure Draft where
  entries : Entries
  current : List String

namespace Draft

/-- Nothing yet. -/
def empty : Draft :=
  ⟨[], []⟩

/-- Opens a table or an element at the end of a path. -/
def enter? (draft : Draft) (add : String → Entries → Option Entries) (path : List String) :
    Option Draft :=
  path.getLast?.bind fun key =>
    (within? (add key) path.dropLast draft.entries).map fun entries => ⟨entries, path⟩

/-- Follows a statement, if it does not clash with those before. -/
def follow? (draft : Draft) : Statement → Option Draft
  | .assign path tree =>
    (within? (assign? tree path) draft.current draft.entries).map fun entries =>
      { draft with entries }
  | .table path => draft.enter? openTable? path
  | .element path => draft.enter? openElement? path

end Draft

/-! ## The tree of a text -/

mutual

/-- What stands under a key, as a tree. -/
def Item.written : Item → Written
  | .value tree => tree
  | .table _ entries => .record (writtenEntries entries)
  | .tables elements => .list (writtenElements elements)

/-- The entries of a table as entries of a record. -/
def writtenEntries : List (String × Item) → List (Option String × Written)
  | [] => []
  | (key, item) :: rest => (some key, item.written) :: writtenEntries rest

/-- The elements of a list of tables as records. -/
def writtenElements : List (List (String × Item)) → List Written
  | [] => []
  | entries :: rest => .record (writtenEntries entries) :: writtenElements rest

end

/-- The tree that statements spell one after another. -/
def treeOfStatements? (statements : List Statement) : Option Written :=
  (statements.foldlM Draft.follow? .empty).map fun draft => .record (writtenEntries draft.entries)

end Stencil.Toml
