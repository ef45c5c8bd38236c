import Stencil.Json.Literal
import Stencil.Json.Quoted

/-!
# The tokens of a JSON text

The text is cut into brackets, separators, literal names, numbers and strings; the white space
between them is left out. A number or string that is well formed but denotes nothing, because it is
out of range or pairs no surrogate, is still a token.

* `length_scanToken_le`: a token takes at least its first character, so the cut ends.
-/

namespace Stencil.Json

/-- A token of a JSON text. -/
inductive Token where
  | beginArray
  | endArray
  | beginObject
  | endObject
  | colon
  | comma
  | null
  | bool (value : Bool)
  /-- A number, or nothing if it is out of range. -/
  | number (value : Option Number)
  /-- A string, or nothing if it holds half of a surrogate pair. -/
  | string (text : Option String)

/-- Whether a character may stand between tokens. -/
def isSpace (c : Char) : Bool :=
  c = ' ' || c = '\t' || c = '\n' || c = '\x0d'

/-- The token that a single character is. -/
def mark? (c : Char) : Option Token :=
  if c = '[' then some .beginArray
  else if c = ']' then some .endArray
  else if c = '{' then some .beginObject
  else if c = '}' then some .endObject
  else if c = ':' then some .colon
  else if c = ',' then some .comma
  else none

/-- The name that starts with the character `c`, and the text behind it. -/
def scanName (c : Char) (rest : List Char) : Option (Token × List Char) :=
  if c = 'n' then (Text.dropPrefix? ['u', 'l', 'l'] rest).map (.null, ·)
  else if c = 't' then (Text.dropPrefix? ['r', 'u', 'e'] rest).map (.bool true, ·)
  else if c = 'f' then (Text.dropPrefix? ['a', 'l', 's', 'e'] rest).map (.bool false, ·)
  else none

/-- The token that starts with the character `c`, and the text behind it. -/
def scanToken (c : Char) (rest : List Char) : Option (Token × List Char) :=
  match mark? c with
  | some token => some (token, rest)
  | none =>
    if c = '"' then
      (scanString rest).map fun (pieces, behind) =>
        (.string ((pieceChars? pieces).map String.ofList), behind)
    else if c.isAlpha then scanName c rest
    else (scanNumber (c :: rest)).map fun (literal, behind) => (.number literal.value?, behind)

theorem length_scanName_le {c : Char} {rest behind : List Char} {token : Token}
    (h : scanName c rest = some (token, behind)) : behind.length ≤ rest.length := by
  simp only [scanName, apply_ite (· = some (token, behind)), Option.map_eq_some_iff,
    Prod.mk.injEq] at h
  repeat' split at h
  all_goals first
    | (obtain ⟨_, hd, _, rfl⟩ := h; exact Text.length_dropPrefix?_le hd)
    | cases h

theorem length_scanToken_le {c : Char} {rest behind : List Char} {token : Token}
    (h : scanToken c rest = some (token, behind)) : behind.length ≤ rest.length := by
  unfold scanToken at h
  split at h
  · cases h
    exact Nat.le_refl _
  · split at h
    · obtain ⟨⟨_, _⟩, hs, e⟩ := Option.map_eq_some_iff.1 h
      cases e
      exact Nat.le_of_lt (length_scanString_lt hs)
    · split at h
      · exact length_scanName_le h
      · obtain ⟨⟨_, _⟩, hn, e⟩ := Option.map_eq_some_iff.1 h
        cases e
        exact Nat.le_of_lt_succ (length_scanNumber_lt hn)

/-- The tokens of a text, or nothing if some part of it is no token. -/
def tokens? : List Char → Option (List Token)
  | [] => some []
  | c :: rest =>
    if isSpace c then tokens? rest
    else
      match _h : scanToken c rest with
      | none => none
      | some (token, behind) => (tokens? behind).map (token :: ·)
termination_by text => text.length
decreasing_by
  · simp
  · have := length_scanToken_le _h
    simp only [List.length_cons]
    omega

end Stencil.Json
