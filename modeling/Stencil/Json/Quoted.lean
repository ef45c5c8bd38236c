import Stencil.Text.Scan

/-!
# Strings in JSON

A string is read as pieces: characters, and 16-bit units that are written as escapes. The pieces
spell characters if every half of a surrogate pair has its other half.

* `length_scanString_lt`: a string takes its closing quote at least.
-/

namespace Stencil.Json

/-- A piece of a string: a character, or a 16-bit unit written as an escape. -/
inductive Piece where
  | char (c : Char)
  | unit (code : Nat)

/-- The character that an escape with one letter stands for. -/
def escapeChar? (c : Char) : Option Char :=
  if c = '"' ∨ c = '\\' ∨ c = '/' then some c
  else if c = 'b' then some '\x08'
  else if c = 'f' then some '\x0c'
  else if c = 'n' then some '\n'
  else if c = 'r' then some '\x0d'
  else if c = 't' then some '\t'
  else none

/-- The pieces of a string up to its closing quote, and the text behind the quote. -/
def scanString : List Char → Option (List Piece × List Char)
  | [] => none
  | '\\' :: 'u' :: a :: b :: c :: d :: rest =>
    (Text.hexNumber? [a, b, c, d]).bind fun code =>
      (scanString rest).map fun (pieces, behind) => (.unit code :: pieces, behind)
  | '\\' :: c :: rest =>
    (escapeChar? c).bind fun c' =>
      (scanString rest).map fun (pieces, behind) => (.char c' :: pieces, behind)
  | c :: rest =>
    if c = '"' then some ([], rest)
    else if c < ' ' then none
    else (scanString rest).map fun (pieces, behind) => (.char c :: pieces, behind)

/-- Whether a unit is the first half of a surrogate pair. -/
def isHighSurrogate (code : Nat) : Bool :=
  0xD800 ≤ code && code ≤ 0xDBFF

/-- Whether a unit is the second half of a surrogate pair. -/
def isLowSurrogate (code : Nat) : Bool :=
  0xDC00 ≤ code && code ≤ 0xDFFF

/-- The characters that pieces spell, two surrogates in a row being one character. -/
def pieceChars? : List Piece → Option (List Char)
  | [] => some []
  | .char c :: rest => (pieceChars? rest).map (c :: ·)
  | .unit high :: .unit low :: rest =>
    if isHighSurrogate high then
      if isLowSurrogate low then
        let c := Char.ofNat ((high - 0xD800) * 0x400 + (low - 0xDC00) + 0x10000)
        (pieceChars? rest).map (c :: ·)
      else none
    else if isLowSurrogate high then none
    else (pieceChars? (.unit low :: rest)).map (Char.ofNat high :: ·)
  | .unit code :: rest =>
    if isHighSurrogate code || isLowSurrogate code then none
    else (pieceChars? rest).map (Char.ofNat code :: ·)

theorem length_scanString_lt {text : List Char} {pieces : List Piece} {behind : List Char}
    (h : scanString text = some (pieces, behind)) : behind.length < text.length := by
  fun_induction scanString text generalizing pieces with
  | case1 => simp at h
  | case2 a b c d rest ih =>
    obtain ⟨_, _, h⟩ := Option.bind_eq_some_iff.1 h
    obtain ⟨⟨_, _⟩, h, e⟩ := Option.map_eq_some_iff.1 h
    cases e
    have := ih h
    simp only [List.length_cons]
    omega
  | case3 c rest _ ih =>
    obtain ⟨_, _, h⟩ := Option.bind_eq_some_iff.1 h
    obtain ⟨⟨_, _⟩, h, e⟩ := Option.map_eq_some_iff.1 h
    cases e
    have := ih h
    simp only [List.length_cons]
    omega
  | case4 rest =>
    cases h
    simp
  | case5 => simp at h
  | case6 c rest _ _ _ _ ih =>
    obtain ⟨⟨_, _⟩, h, e⟩ := Option.map_eq_some_iff.1 h
    cases e
    have := ih h
    simp only [List.length_cons]
    omega

end Stencil.Json
