/-!
# Scanning a text

Small steps that the readers of both notations share: a beginning that is fixed, and numbers in
hexadecimal digits.

* `dropPrefix?_eq_some_iff`: what is dropped is the beginning and nothing else.
-/

namespace Stencil.Text

/-- The rest of a text behind a given beginning. -/
def dropPrefix? (start text : List Char) : Option (List Char) :=
  if start.isPrefixOf text then some (text.drop start.length) else none

theorem dropPrefix?_eq_some_iff {start text behind : List Char} :
    dropPrefix? start text = some behind ↔ text = start ++ behind := by
  simp only [dropPrefix?, Option.ite_none_right_eq_some, Option.some.injEq,
    List.isPrefixOf_iff_prefix]
  constructor
  · rintro ⟨⟨rest, rfl⟩, rfl⟩
    simp
  · rintro rfl
    simp

theorem length_dropPrefix?_le {start text behind : List Char}
    (h : dropPrefix? start text = some behind) : behind.length ≤ text.length := by
  rw [dropPrefix?_eq_some_iff] at h
  simp [h]

/-- The value of a hexadecimal digit. -/
def hexDigit? (c : Char) : Option Nat :=
  if c.isDigit then some (c.toNat - '0'.toNat)
  else if 'a' ≤ c ∧ c ≤ 'f' then some (c.toNat - 'a'.toNat + 10)
  else if 'A' ≤ c ∧ c ≤ 'F' then some (c.toNat - 'A'.toNat + 10)
  else none

/-- The number that hexadecimal digits spell. -/
def hexNumber? (digits : List Char) : Option Nat :=
  digits.foldl (fun n c => n.bind fun n => (hexDigit? c).map (16 * n + ·)) (some 0)

end Stencil.Text
