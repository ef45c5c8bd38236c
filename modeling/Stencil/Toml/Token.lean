import Stencil.Toml.Quoted

/-!
# The tokens of a TOML text

The text is cut into brackets, separators, line ends, comments, texts in quotes and words. A word is
a run of the characters that bare keys, numbers and dates consist of; whether it is a key or a value
depends on its place. Blanks are tokens too, since some places allow none.

* `length_scanToken_le`: a token takes at least its first character, so the cut ends.
-/

namespace Stencil.Toml

/-- A token of a TOML text. -/
inductive Token where
  | beginList
  | endList
  | beginTable
  | endTable
  | equals
  | comma
  /-- A space or a tab. -/
  | blank (c : Char)
  | newline
  | comment
  | word (chars : List Char)
  | text (chars : List Char)
  /-- A text in triple quotes. -/
  | longText (chars : List Char)
deriving DecidableEq

/-- Whether a character belongs to a word. -/
def isWordChar (c : Char) : Bool :=
  c.isAlphanum || c = '_' || c = '-' || c = '+' || c = '.' || c = ':'

/-- The text in quotes that starts with a quote, in triple quotes if there are three. -/
def scanQuoted (quote : Char) (rest : List Char) : Option (Token × List Char) :=
  match Text.dropPrefix? [quote, quote] rest with
  | some behind => (Scanner.longText quote behind).map fun (chars, rest) => (.longText chars, rest)
  | none => (Scanner.text quote rest).map fun (chars, rest) => (.text chars, rest)

/-- The token that a single character is. -/
def mark? (c : Char) : Option Token :=
  if c = '[' then some .beginList
  else if c = ']' then some .endList
  else if c = '{' then some .beginTable
  else if c = '}' then some .endTable
  else if c = '=' then some .equals
  else if c = ',' then some .comma
  else if c = '\n' then some .newline
  else if isBlank c then some (.blank c)
  else none

/-- The token that starts with the character `c`, and the text behind it. -/
def scanToken (c : Char) (rest : List Char) : Option (Token × List Char) :=
  match mark? c with
  | some token => some (token, rest)
  | none =>
    if isWordChar c then
      some (.word (c :: rest.takeWhile isWordChar), rest.dropWhile isWordChar)
    else if c = '"' ∨ c = '\'' then scanQuoted c rest
    else if c = '#' then some (.comment, rest.dropWhile isPlain)
    else if c = '\x0d' then (Text.dropPrefix? ['\n'] rest).map (.newline, ·)
    else none

theorem length_scanQuoted_le {quote : Char} {rest behind : List Char} {token : Token}
    (h : scanQuoted quote rest = some (token, behind)) : behind.length ≤ rest.length := by
  unfold scanQuoted at h
  split at h
  · rename_i hd
    obtain ⟨⟨_, _⟩, h, e⟩ := Option.map_eq_some_iff.1 h
    cases e
    exact Nat.le_trans (Scanner.length_longText_le h) (Text.length_dropPrefix?_le hd)
  · obtain ⟨⟨_, _⟩, h, e⟩ := Option.map_eq_some_iff.1 h
    cases e
    exact Scanner.length_text_le h

theorem length_scanToken_le {c : Char} {rest behind : List Char} {token : Token}
    (h : scanToken c rest = some (token, behind)) : behind.length ≤ rest.length := by
  unfold scanToken at h
  split at h
  · cases h
    exact Nat.le_refl _
  · split at h
    · cases h
      exact (List.dropWhile_sublist _).length_le
    · split at h
      · exact length_scanQuoted_le h
      · split at h
        · cases h
          exact (List.dropWhile_sublist _).length_le
        · simp only [Option.ite_none_right_eq_some, Option.map_eq_some_iff, Prod.mk.injEq] at h
          obtain ⟨_, _, hd, _, rfl⟩ := h
          exact Text.length_dropPrefix?_le hd

/-- The tokens of a text, or nothing if some part of it is no token. -/
def tokens? : List Char → Option (List Token)
  | [] => some []
  | c :: rest =>
    match _h : scanToken c rest with
    | none => none
    | some (token, behind) => (tokens? behind).map (token :: ·)
termination_by text => text.length
decreasing_by
  have := length_scanToken_le _h
  simp only [List.length_cons]
  omega

end Stencil.Toml
