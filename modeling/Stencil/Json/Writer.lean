import Stencil.Json.Number

/-!
# Writing JSON

Two layouts of a value: compact, without any white space, and pretty, with one item a line and two
blanks of indentation a level. In both, fields keep their order, and strings escape only the quote,
the backslash and the control characters.
-/

namespace Stencil.Json

/-- The digit of a number below sixteen. -/
def hexDigit (n : Nat) : Char :=
  Nat.digitChar n

/-- The characters that stand for a character inside a string. -/
def escape (c : Char) : List Char :=
  if c = '"' then ['\\', '"']
  else if c = '\\' then ['\\', '\\']
  else if c = '\x08' then ['\\', 'b']
  else if c = '\t' then ['\\', 't']
  else if c = '\n' then ['\\', 'n']
  else if c = '\x0c' then ['\\', 'f']
  else if c = '\x0d' then ['\\', 'r']
  else if c < ' ' then ['\\', 'u', '0', '0', hexDigit (c.toNat / 16), hexDigit (c.toNat % 16)]
  else [c]

/-- A string between quotes. -/
def quote (text : String) : List Char :=
  '"' :: text.toList.flatMap escape ++ ['"']

/-- The name of a truth value. -/
def boolText (value : Bool) : List Char :=
  if value then ['t', 'r', 'u', 'e'] else ['f', 'a', 'l', 's', 'e']

mutual

/-- The compact text of a value. -/
def compact : Value → List Char
  | .null => ['n', 'u', 'l', 'l']
  | .bool value => boolText value
  | .number value => numberText value
  | .string text => quote text
  | .sequence items => '[' :: compactItems items
  | .mapping fields => '{' :: compactFields fields

/-- The items of a sequence and the bracket that closes it. -/
def compactItems : List Value → List Char
  | [] => [']']
  | [item] => compact item ++ [']']
  | item :: rest => compact item ++ ',' :: compactItems rest

/-- The fields of a mapping and the brace that closes it. -/
def compactFields : List (String × Value) → List Char
  | [] => ['}']
  | [(key, value)] => quote key ++ ':' :: compact value ++ ['}']
  | (key, value) :: rest => quote key ++ ':' :: compact value ++ ',' :: compactFields rest

end

/-- A line break and the indentation of a level. -/
def newLine (level : Nat) : List Char :=
  '\n' :: List.replicate (2 * level) ' '

mutual

/-- The pretty text of a value that starts at a level. -/
def prettyAt (level : Nat) : Value → List Char
  | .sequence [] => ['[', ']']
  | .mapping [] => ['{', '}']
  | .sequence items => '[' :: prettyItems (level + 1) items ++ newLine level ++ [']']
  | .mapping fields => '{' :: prettyFields (level + 1) fields ++ newLine level ++ ['}']
  | .null => ['n', 'u', 'l', 'l']
  | .bool value => boolText value
  | .number value => numberText value
  | .string text => quote text

/-- The items of a sequence, each on a line of its own. -/
def prettyItems (level : Nat) : List Value → List Char
  | [] => []
  | [item] => newLine level ++ prettyAt level item
  | item :: rest => newLine level ++ prettyAt level item ++ ',' :: prettyItems level rest

/-- The fields of a mapping, each on a line of its own. -/
def prettyFields (level : Nat) : List (String × Value) → List Char
  | [] => []
  | [(key, value)] => newLine level ++ quote key ++ ':' :: ' ' :: prettyAt level value
  | (key, value) :: rest =>
    newLine level ++ quote key ++ ':' :: ' ' :: prettyAt level value ++
      ',' :: prettyFields level rest

end

/-- The compact text of a value. -/
def compactText (value : Value) : String :=
  String.ofList (compact value)

/-- The pretty text of a value. -/
def prettyText (value : Value) : String :=
  String.ofList (prettyAt 0 value)

end Stencil.Json
