import Stencil.Json.Writer

/-!
# Placeholders

A placeholder is a name between doubled braces. Filling a text replaces every occurrence of one
placeholder, from left to right and without overlap; what is put in is not searched again.
-/

namespace Stencil.Placeholder

/-- The placeholder of a name, which is taken as it is. -/
def token (name : String) : List Char :=
  '{' :: '{' :: name.toList ++ ['}', '}']

/-- The text put in for a value: a string as it is, any other value as compact JSON. -/
def replacement : Value → List Char
  | .string text => text.toList
  | value => Json.compact value

/-- The text with every occurrence of a nonempty word replaced. -/
def replaceAll (word filling : List Char) : List Char → List Char
  | [] => []
  | c :: rest =>
    if word.isPrefixOf (c :: rest) then
      filling ++ replaceAll word filling (rest.drop (word.length - 1))
    else c :: replaceAll word filling rest
termination_by text => text.length
decreasing_by
  · simp only [List.length_drop, List.length_cons]
    omega
  · simp

end Stencil.Placeholder
