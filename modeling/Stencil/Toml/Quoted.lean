import Stencil.Text.Scan

/-!
# Texts in quotes in TOML

A text stands in double quotes, which know escapes, or in single quotes, which know none; in triple
quotes it may span lines.

* `Scanner.shortens_piece`, `Scanner.shortens_longPiece`: a piece of a text takes a character, so a
  text in quotes ends.
* `Scanner.length_text_le`, `Scanner.length_longText_le`: what is left behind a text is no longer
  than what was there.
-/

namespace Stencil.Toml

/-- Whether a character may stand in comments and, unless it is a quote or a backslash, in texts. -/
def isPlain (c : Char) : Bool :=
  c = '\t' || ' ' ≤ c && c ≠ '\x7f'

/-- Whether a character is a space or a tab. -/
def isBlank (c : Char) : Bool :=
  c = ' ' || c = '\t'

/-- What reads the start of a text and returns the rest with the characters read, if it can. -/
abbrev Scanner := List Char → Option (List Char × List Char)

namespace Scanner

/-- Every successful reading takes a character at least. -/
def Shortens (scanner : Scanner) : Prop :=
  ∀ {text found rest}, scanner text = some (found, rest) → rest.length < text.length

/-- Reads pieces until the stop is found. -/
def upTo (stop piece : Scanner) (shortens : piece.Shortens) (text : List Char) :
    Option (List Char × List Char) :=
  match stop text with
  | some (last, behind) => some (last, behind)
  | none =>
    match _h : piece text with
    | none => none
    | some (found, rest) =>
      (upTo stop piece shortens rest).map fun (more, behind) => (found ++ more, behind)
termination_by text.length
decreasing_by exact shortens _h

/-- What is left is no longer than the text if the stop never lengthens it. -/
theorem length_upTo_le {stop piece : Scanner} {shortens : piece.Shortens}
    (hstop : ∀ {text found rest}, stop text = some (found, rest) → rest.length ≤ text.length)
    {text found behind : List Char} (h : upTo stop piece shortens text = some (found, behind)) :
    behind.length ≤ text.length := by
  fun_induction upTo stop piece shortens text generalizing found with
  | case1 text last rest hs =>
    cases h
    exact hstop hs
  | case2 => simp at h
  | case3 text _ first rest hp ih =>
    obtain ⟨⟨more, behind'⟩, hr, e⟩ := Option.map_eq_some_iff.1 h
    cases e
    exact Nat.le_trans (ih hr) (Nat.le_of_lt (shortens hp))

/-! ## Texts in quotes -/

/-- The end of a line, which is a line feed with or without a carriage return before it. -/
def newline? : List Char → Option (List Char)
  | '\n' :: rest => some rest
  | '\x0d' :: '\n' :: rest => some rest
  | _ => none

/-- The text behind all blanks and line ends. -/
def skipLines : List Char → List Char
  | '\n' :: rest => skipLines rest
  | '\x0d' :: '\n' :: rest => skipLines rest
  | c :: rest => if isBlank c then skipLines rest else c :: rest
  | [] => []

/-- The character with a given code. -/
def charOfCode? (code : Nat) : Option Char :=
  if code.isValidChar then some (Char.ofNat code) else none

/-- The character that an escape with one letter stands for. -/
def escapeChar? (c : Char) : Option Char :=
  if c = '"' ∨ c = '\\' then some c
  else if c = 'b' then some '\x08'
  else if c = 'f' then some '\x0c'
  else if c = 'n' then some '\n'
  else if c = 'r' then some '\x0d'
  else if c = 't' then some '\t'
  else none

/-- The character that an escape spells behind its backslash. -/
def escape : Scanner
  | 'u' :: a :: b :: c :: d :: rest =>
    ((Text.hexNumber? [a, b, c, d]).bind charOfCode?).map ([·], rest)
  | 'U' :: a :: b :: c :: d :: e :: f :: g :: h :: rest =>
    ((Text.hexNumber? [a, b, c, d, e, f, g, h]).bind charOfCode?).map ([·], rest)
  | c :: rest => (escapeChar? c).map ([·], rest)
  | [] => none

/-- A piece of a text on one line, whose quote is given. Only double quotes have escapes. -/
def piece (quote : Char) : Scanner
  | [] => none
  | c :: rest =>
    if c = '\\' ∧ quote = '"' then escape rest
    else if isPlain c then some ([c], rest)
    else none

/-- A line end inside a text, which always stands for a line feed. -/
def lineFeed : Scanner :=
  fun text => (newline? text).map (['\n'], ·)

/-- A backslash at the end of a line, which stands for nothing and takes the blanks and line ends
behind it with it. -/
def continuation (quote : Char) : Scanner
  | [] => none
  | c :: rest =>
    if c = '\\' ∧ quote = '"' then
      (newline? (rest.dropWhile isBlank)).map fun behind => ([], skipLines behind)
    else none

/-- A piece of a text in triple quotes. -/
def longPiece (quote : Char) : Scanner :=
  fun text => lineFeed text <|> continuation quote text <|> piece quote text

/-- The closing quote. -/
def stop (quote : Char) : Scanner :=
  fun text => (Text.dropPrefix? [quote] text).map ([], ·)

/-- The closing triple quote. Up to two quotes more belong to the text. -/
def longStop (quote : Char) : Scanner :=
  fun text =>
    (Text.dropPrefix? (List.replicate 5 quote) text).map ([quote, quote], ·) <|>
    (Text.dropPrefix? (List.replicate 4 quote) text).map ([quote], ·) <|>
    (Text.dropPrefix? (List.replicate 3 quote) text).map ([], ·)

theorem length_newline?_lt {text rest : List Char} (h : newline? text = some rest) :
    rest.length < text.length := by
  unfold newline? at h
  split at h <;> cases h <;> simp only [List.length_cons] <;> omega

theorem length_skipLines_le (text : List Char) : (skipLines text).length ≤ text.length := by
  fun_induction skipLines text with
  | case1 rest ih => exact Nat.le_succ_of_le ih
  | case2 rest ih => exact Nat.le_succ_of_le (Nat.le_succ_of_le ih)
  | case3 c rest _ _ _ ih => exact Nat.le_succ_of_le ih
  | case4 => exact Nat.le_refl _
  | case5 => exact Nat.le_refl _

theorem shortens_escape : Shortens escape := by
  intro text found rest h
  unfold escape at h
  split at h <;>
    simp only [Option.map_eq_some_iff, Prod.mk.injEq, reduceCtorEq] at h <;>
    obtain ⟨_, _, _, rfl⟩ := h <;> simp only [List.length_cons] <;> omega

theorem shortens_piece (quote : Char) : Shortens (piece quote) := by
  intro text found rest h
  unfold piece at h
  split at h
  · cases h
  · split at h
    · have := shortens_escape h
      simp only [List.length_cons]
      omega
    · simp only [Option.ite_none_right_eq_some, Option.some.injEq, Prod.mk.injEq] at h
      obtain ⟨_, _, rfl⟩ := h
      simp

theorem shortens_lineFeed : Shortens lineFeed := by
  intro text found rest h
  obtain ⟨_, h, e⟩ := Option.map_eq_some_iff.1 h
  cases e
  exact length_newline?_lt h

theorem shortens_continuation (quote : Char) : Shortens (continuation quote) := by
  intro text found rest h
  unfold continuation at h
  split at h
  · cases h
  · rename_i c text
    simp only [Option.ite_none_right_eq_some, Option.map_eq_some_iff, Prod.mk.injEq] at h
    obtain ⟨_, behind, h, _, rfl⟩ := h
    have h₁ := length_newline?_lt h
    have h₂ := length_skipLines_le behind
    have h₃ := (List.dropWhile_sublist (l := text) isBlank).length_le
    simp only [List.length_cons]
    omega

theorem shortens_longPiece (quote : Char) : Shortens (longPiece quote) := by
  intro text found rest h
  simp only [longPiece, Option.orElse_eq_orElse, Option.orElse_eq_or, Option.or_eq_some_iff] at h
  rcases h with h | ⟨_, h | ⟨_, h⟩⟩
  · exact shortens_lineFeed h
  · exact shortens_continuation quote h
  · exact shortens_piece quote h

theorem length_stop_le {quote : Char} {text found rest : List Char}
    (h : stop quote text = some (found, rest)) : rest.length ≤ text.length := by
  obtain ⟨_, h, e⟩ := Option.map_eq_some_iff.1 h
  cases e
  exact Text.length_dropPrefix?_le h

theorem length_longStop_le {quote : Char} {text found rest : List Char}
    (h : longStop quote text = some (found, rest)) : rest.length ≤ text.length := by
  simp only [longStop, Option.orElse_eq_orElse, Option.orElse_eq_or, Option.or_eq_some_iff,
    Option.map_eq_some_iff, Prod.mk.injEq] at h
  rcases h with ⟨_, h, _, rfl⟩ | ⟨_, ⟨_, h, _, rfl⟩ | ⟨_, ⟨_, h, _, rfl⟩⟩⟩ <;>
    exact Text.length_dropPrefix?_le h

/-- The rest of a text on one line, up to its closing quote. -/
def text (quote : Char) : Scanner :=
  upTo (stop quote) (piece quote) (shortens_piece quote)

/-- The rest of a text in triple quotes. A line end right behind the opening quotes is left out. -/
def longText (quote : Char) : Scanner :=
  fun text =>
    upTo (longStop quote) (longPiece quote) (shortens_longPiece quote)
      ((newline? text).getD text)

theorem length_text_le {quote : Char} {chars found rest : List Char}
    (h : text quote chars = some (found, rest)) : rest.length ≤ chars.length :=
  length_upTo_le length_stop_le h

theorem length_longText_le {quote : Char} {chars found rest : List Char}
    (h : longText quote chars = some (found, rest)) : rest.length ≤ chars.length := by
  have h₁ := length_upTo_le length_longStop_le h
  cases hn : newline? chars with
  | none => simpa [hn] using h₁
  | some behind =>
    have := length_newline?_lt hn
    simp only [hn, Option.getD_some] at h₁
    omega

end Scanner

end Stencil.Toml
