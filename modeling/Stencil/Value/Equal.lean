import Stencil.Value.Basic

/-!
# Structural equality of values

Two values are structurally equal when they have the same shape and equal leaves, the order of the
fields of a mapping aside. An integer never equals a binary64 number, and the two zeros of the
latter kind are equal.
-/

namespace Stencil

/-- Equality of numbers of one kind. -/
def Number.equal : Number → Number → Bool
  | integer m, integer n => m == n
  | real x, real y => x.same y
  | _, _ => false

namespace Value

mutual

/-- Structural equality. Mappings are equal when they have as many fields and each field of the one
has an equal value in the other. -/
def equal : Value → Value → Bool
  | null, null => true
  | bool a, bool b => a == b
  | number m, number n => m.equal n
  | string s, string t => s == t
  | sequence xs, sequence ys => equalItems xs ys
  | mapping fs, mapping gs => fs.length == gs.length && equalFields fs gs
  | _, _ => false

/-- Structural equality of lists, place by place. -/
def equalItems : List Value → List Value → Bool
  | [], [] => true
  | x :: xs, y :: ys => equal x y && equalItems xs ys
  | _, _ => false

/-- Whether every field of the first list has an equal value in the second. -/
def equalFields : List (String × Value) → List (String × Value) → Bool
  | [], _ => true
  | (k, x) :: rest, gs =>
    match Fields.get? k gs with
    | some y => equal x y && equalFields rest gs
    | none => false

end

end Value

end Stencil
