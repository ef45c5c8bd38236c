/-!
# Cutting a path expression outside its braces

A path expression is cut at dots, and the body of a group at commas, but a separator inside a
brace group stays where it is. The cut follows one number, the brace depth, which a closing brace
at depth zero leaves at zero, so unbalanced text is cut as well.

* `intercalate_splitFrom`: the parts, joined again with the separator, are the text.
* `groupBody?_eq_some_iff`: a part is a whole group when it is a pair of braces around balanced
  text.
-/

namespace Stencil.Selector

/-- The brace depth behind the character `c` read at `depth`. -/
def depthAfter (depth : Nat) (c : Char) : Nat :=
  if c = '{' then depth + 1 else if c = '}' then depth - 1 else depth

/-- The parts of a text between the separators that stand at depth zero, when the text itself
starts at the depth `depth`. -/
def splitFrom (sep : Char) (depth : Nat) : List Char → List (List Char)
  | [] => [[]]
  | c :: rest =>
    if c = sep ∧ depth = 0 then [] :: splitFrom sep depth rest
    else (splitFrom sep (depthAfter depth c) rest).modifyHead (c :: ·)

/-- The parts of a text between the separators outside its braces. -/
def splitOutside (sep : Char) (text : List Char) : List (List Char) :=
  splitFrom sep 0 text

@[simp] theorem splitFrom_nil (sep : Char) (depth : Nat) : splitFrom sep depth [] = [[]] := rfl

theorem splitFrom_ne_nil (sep : Char) (depth : Nat) (text : List Char) :
    splitFrom sep depth text ≠ [] := by
  induction text generalizing depth with
  | nil => simp
  | cons c rest ih =>
    rw [splitFrom]
    split
    · simp
    · cases h : splitFrom sep (depthAfter depth c) rest with
      | nil => exact absurd h (ih _)
      | cons => simp

theorem intercalate_cons_cons (sep : Char) (s t : List Char) (l : List (List Char)) :
    [sep].intercalate (s :: t :: l) = s ++ sep :: [sep].intercalate (t :: l) := by
  rw [List.intercalate_cons_cons, List.append_assoc, List.singleton_append]

theorem intercalate_modifyHead_cons (sep c : Char) {l : List (List Char)} (h : l ≠ []) :
    [sep].intercalate (l.modifyHead (c :: ·)) = c :: [sep].intercalate l := by
  match l, h with
  | [s], _ => simp [List.intercalate]
  | s :: t :: l, _ => simp only [List.modifyHead_cons, intercalate_cons_cons, List.cons_append]

/-- Nothing is lost by the cut. -/
theorem intercalate_splitFrom (sep : Char) (depth : Nat) (text : List Char) :
    [sep].intercalate (splitFrom sep depth text) = text := by
  induction text generalizing depth with
  | nil => simp [List.intercalate]
  | cons c rest ih =>
    rw [splitFrom]
    split
    · rename_i h
      obtain ⟨s, l, hs⟩ := List.exists_cons_of_ne_nil (splitFrom_ne_nil sep depth rest)
      rw [hs, intercalate_cons_cons, ← hs, ih, h.1, List.nil_append]
    · rw [intercalate_modifyHead_cons sep c (splitFrom_ne_nil _ _ _), ih]

/-- The brace depth at the end of a text read from `depth`, or `none` if the text closes a brace
that was not opened. -/
def depthThrough? (depth : Nat) : List Char → Option Nat
  | [] => some depth
  | c :: rest =>
    if c = '}' ∧ depth = 0 then none else depthThrough? (depthAfter depth c) rest

/-- A text is balanced when it closes exactly the braces that it opens. -/
def Balanced (text : List Char) : Prop :=
  depthThrough? 0 text = some 0

instance (text : List Char) : Decidable (Balanced text) :=
  inferInstanceAs (Decidable (depthThrough? 0 text = some 0))

/-- The text inside a part that is one whole group. In `{a}x{b}` the first brace is closed before
the end, so this is no group. -/
def groupBody? : List Char → Option (List Char)
  | [] => none
  | c :: rest =>
    if c = '{' ∧ rest.getLast? = some '}' ∧ Balanced rest.dropLast then some rest.dropLast
    else none

theorem groupBody?_eq_some_iff {part body : List Char} :
    groupBody? part = some body ↔ part = '{' :: body ++ ['}'] ∧ Balanced body := by
  cases part with
  | nil => simp [groupBody?]
  | cons c rest =>
    simp only [groupBody?, Option.ite_none_right_eq_some, Option.some.injEq, List.cons_append,
      List.cons.injEq]
    constructor
    · rintro ⟨⟨hc, hl, hb⟩, rfl⟩
      obtain ⟨body, rfl⟩ := List.getLast?_eq_some_iff.1 hl
      simp_all
    · rintro ⟨⟨hc, rfl⟩, hb⟩
      simp [hc, hb]

end Stencil.Selector
