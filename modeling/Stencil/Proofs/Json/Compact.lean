import Stencil.Json.Quoted
import Stencil.Json.Writer
import Stencil.Proofs.Json.Numerals

/-!
# A value is told by its compact text

Two values with the same compact text are the same value, in every leaf, in the form of every number
and in the order of the fields at every depth. This is shown at the front of longer texts: the first
character tells the constructor, strings and numbers are read back by the reader, and what stands
behind an item or a field is a comma or the end of the list, and never a part of a number.

* `scanString_flatMap_escape`, `quote_append_inj`: a string is read back from its text.
* `exists_cons_compact`: what the first character of a value says.
* `told_separated`: a list is told by the texts of its items with commas between them.
* `told_compact`, `compactText_injective`: a value is told by its text.
-/

namespace Stencil.Json

/-! ## Strings -/

/-- The three forms of a character in a string: an escape with one letter, an escaped unit, and the
character itself. -/
theorem escape_cases (c : Char) :
    (∃ letter, letter ≠ 'u' ∧ escapeChar? letter = some c ∧ escape c = ['\\', letter]) ∨
    (c < ' ' ∧ escape c =
      ['\\', 'u', '0', '0', hexDigit (c.toNat / 16), hexDigit (c.toNat % 16)]) ∨
    (c ≠ '"' ∧ c ≠ '\\' ∧ ¬c < ' ' ∧ escape c = [c]) := by
  by_cases hletter : c ∈ ['"', '\\', '\x08', '\t', '\n', '\x0c', '\x0d']
  · left
    simp only [List.mem_cons, List.not_mem_nil, or_false] at hletter
    rcases hletter with rfl | rfl | rfl | rfl | rfl | rfl | rfl <;>
      exact ⟨_, by decide, by decide, rfl⟩
  · right
    simp only [List.mem_cons, List.not_mem_nil, or_false, not_or] at hletter
    simp only [escape, hletter, if_false, ne_eq, not_false_eq_true, true_and]
    by_cases hcontrol : c < ' '
    · exact .inl ⟨hcontrol, if_pos hcontrol⟩
    · exact .inr ⟨hcontrol, if_neg hcontrol⟩

/-- The piece as which the text of a character is read. -/
def Piece.ofChar (c : Char) : Piece :=
  if (escape c).length = 6 then .unit c.toNat else .char c

theorem hexNumber?_hexDigit : ∀ n < 32,
    Text.hexNumber? ['0', '0', hexDigit (n / 16), hexDigit (n % 16)] = some n := by
  decide

theorem scanString_escape (c : Char) (rest : List Char) :
    scanString (escape c ++ rest) =
      (scanString rest).map fun read => (Piece.ofChar c :: read.1, read.2) := by
  unfold Piece.ofChar
  obtain ⟨letter, hu, hletter, hescape⟩ | ⟨hcontrol, hescape⟩ | ⟨hquote, hslash, hspace, hescape⟩ :=
    escape_cases c
  · simp [hescape, scanString, hletter, hu]
  · have hlt : c.toNat < 32 := hcontrol
    simp [hescape, scanString, hexNumber?_hexDigit _ hlt]
  · simp [hescape, scanString, hquote, hslash, hspace]

theorem pieceChars?_ofChar (c : Char) (pieces : List Piece) :
    pieceChars? (.ofChar c :: pieces) = (pieceChars? pieces).map (c :: ·) := by
  unfold Piece.ofChar
  split
  case isTrue hunit =>
    -- Only control characters are written as units, and none of them is half of a surrogate pair.
    have hcontrol : c.toNat < 32 := by
      obtain ⟨letter, -, -, hescape⟩ | ⟨hcontrol, -⟩ | ⟨-, -, -, hescape⟩ := escape_cases c
      · simp [hescape] at hunit
      · exact hcontrol
      · simp [hescape] at hunit
    have hhigh : isHighSurrogate c.toNat = false := by
      simp only [isHighSurrogate, Bool.and_eq_false_iff, decide_eq_false_iff_not]
      omega
    have hlow : isLowSurrogate c.toNat = false := by
      simp only [isLowSurrogate, Bool.and_eq_false_iff, decide_eq_false_iff_not]
      omega
    cases pieces with
    | nil => simp [pieceChars?, hhigh, hlow]
    | cons piece pieces => cases piece <;> simp [pieceChars?, hhigh, hlow]
  case isFalse => rfl

/-- **A string is read back from its text.** -/
theorem scanString_flatMap_escape (text rest : List Char) :
    scanString (text.flatMap escape ++ '"' :: rest) = some (text.map Piece.ofChar, rest) := by
  induction text with
  | nil => simp [scanString]
  | cons c text ih =>
    rw [List.flatMap_cons, List.append_assoc, scanString_escape, ih]
    rfl

theorem pieceChars?_map_ofChar (text : List Char) :
    pieceChars? (text.map Piece.ofChar) = some text := by
  induction text with
  | nil => rfl
  | cons c text ih => rw [List.map_cons, pieceChars?_ofChar, ih, Option.map_some]

theorem quote_append_inj {a b : String} {s t : List Char} (h : quote a ++ s = quote b ++ t) :
    a = b ∧ s = t := by
  have hscan : scanString (a.toList.flatMap escape ++ '"' :: s) =
      scanString (b.toList.flatMap escape ++ '"' :: t) := by
    simpa [quote] using congrArg (fun text => scanString text.tail) h
  rw [scanString_flatMap_escape, scanString_flatMap_escape] at hscan
  obtain ⟨hpieces, hrest⟩ := Prod.mk.inj (Option.some.inj hscan)
  have htext := congrArg pieceChars? hpieces
  rw [pieceChars?_map_ofChar, pieceChars?_map_ofChar] at htext
  exact ⟨String.toList_inj.1 (Option.some.inj htext), hrest⟩

/-! ## The first character -/

/-- What the first character of a text says about the value. -/
inductive Lead where
  | null
  | bool
  | number
  | string
  | sequence
  | mapping

/-- What a first character says, if a value may start with it. -/
def leadOf? (c : Char) : Option Lead :=
  if c = 'n' then some .null
  else if c = 't' ∨ c = 'f' then some .bool
  else if c = '"' then some .string
  else if c = '[' then some .sequence
  else if c = '{' then some .mapping
  else if c = '-' ∨ c.isDigit = true then some .number
  else none

/-- What the first character of a value has to say. -/
def lead : Value → Lead
  | .null => .null
  | .bool _ => .bool
  | .number _ => .number
  | .string _ => .string
  | .sequence _ => .sequence
  | .mapping _ => .mapping

theorem exists_cons_numberText (n : Number) :
    ∃ c rest, numberText n = c :: rest ∧ (c = '-' ∨ c.isDigit = true) := by
  obtain ⟨literal, hwell, htext, -⟩ := exists_literal_spells n
  obtain ⟨digit, digits, hwhole⟩ := List.exists_cons_of_ne_nil hwell.whole_ne
  rw [← htext, NumberLiteral.text, hwhole]
  cases literal.negative with
  | true => exact ⟨_, _, rfl, .inl rfl⟩
  | false =>
    refine ⟨_, _, rfl, .inr ?_⟩
    exact isDigit_map_digitChar hwell.whole_lt _ (by simp [hwhole])

theorem leadOf?_number {c : Char} (h : c = '-' ∨ c.isDigit = true) :
    leadOf? c = some .number := by
  have hne : ∀ d : Char, ¬(d = '-' ∨ d.isDigit = true) → c ≠ d := fun d hd hcd => hd (hcd ▸ h)
  have hn := hne 'n' (by decide)
  have ht := hne 't' (by decide)
  have hf := hne 'f' (by decide)
  have hquote := hne '"' (by decide)
  have hbracket := hne '[' (by decide)
  have hbrace := hne '{' (by decide)
  simp only [leadOf?, hn, ht, hf, hquote, hbracket, hbrace, h, or_self, if_true, if_false]

theorem exists_cons_compact (v : Value) :
    ∃ c rest, compact v = c :: rest ∧ leadOf? c = some (lead v) := by
  cases v with
  | null => exact ⟨_, _, rfl, rfl⟩
  | bool value => cases value <;> exact ⟨_, _, rfl, rfl⟩
  | number n =>
    obtain ⟨c, rest, htext, hc⟩ := exists_cons_numberText n
    exact ⟨c, rest, by rw [compact, htext], leadOf?_number hc⟩
  | string text => exact ⟨_, _, by rw [compact, quote, List.cons_append], rfl⟩
  | sequence items => exact ⟨_, _, by rw [compact], rfl⟩
  | mapping fields => exact ⟨_, _, by rw [compact], rfl⟩

theorem lead_eq_of_append {v w : Value} {s t : List Char} (h : compact v ++ s = compact w ++ t) :
    lead v = lead w := by
  obtain ⟨c, rest, hv, hc⟩ := exists_cons_compact v
  obtain ⟨d, rest', hw, hd⟩ := exists_cons_compact w
  rw [hv, hw] at h
  rw [(List.cons.inj h).1, hd] at hc
  exact (Option.some.inj hc).symm

/-! ## Separated texts -/

/-- Whether a value is told by its text at the front of a longer text. What stands behind it must not
be part of a number. -/
def Told {α : Type} (text : α → List Char) (x : α) : Prop :=
  ∀ y s t, EndsNumber s → EndsNumber t → text x ++ s = text y ++ t → x = y ∧ s = t

/-- Texts with commas between them and a character behind them. -/
def separated (close : Char) : List (List Char) → List Char
  | [] => [close]
  | [text] => text ++ [close]
  | text :: rest => text ++ ',' :: separated close rest

/-- What stands behind a separated text. -/
def behind (close : Char) : List (List Char) → List Char
  | [] => [close]
  | rest => ',' :: separated close rest

theorem separated_cons (close : Char) (text : List Char) (rest : List (List Char)) :
    separated close (text :: rest) = text ++ behind close rest := by
  cases rest <;> simp [separated, behind]

section separated

variable {α : Type} {text : α → List Char} {close : Char} (hclose : EndsNumber [close])

include hclose

theorem endsNumber_behind (texts : List (List Char)) (s : List Char) :
    EndsNumber (behind close texts ++ s) := by
  cases texts with
  | nil => exact hclose
  | cons _ _ => simp [behind, EndsNumber]

/-- Values are told by their separated texts if each of them is told by its text, and none of the
texts starts like their end. -/
theorem told_separated {xs : List α} (hcomma : close ≠ ',')
    (hlead : ∀ x s t, text x ++ s ≠ close :: t) (h : ∀ x ∈ xs, Told text x) :
    Told (fun xs => separated close (xs.map text)) xs := by
  intro ys s t hs ht heq
  induction xs generalizing ys with
  | nil =>
    cases ys with
    | nil => exact ⟨rfl, List.append_cancel_left heq⟩
    | cons y ys =>
      simp only [List.map_cons, separated_cons, List.append_assoc] at heq
      exact absurd heq.symm (hlead y _ _)
  | cons x xs ih =>
    rw [List.forall_mem_cons] at h
    cases ys with
    | nil =>
      simp only [List.map_cons, separated_cons, List.append_assoc] at heq
      exact absurd heq (hlead x _ _)
    | cons y ys =>
      simp only [List.map_cons, separated_cons, List.append_assoc] at heq
      obtain ⟨rfl, hbehind⟩ := h.1 y _ _ (endsNumber_behind hclose _ _)
        (endsNumber_behind hclose _ _) heq
      -- What stands behind is the end of a list or a comma, and it is the same in both.
      cases xs <;> cases ys
      · exact ⟨rfl, (List.cons.inj hbehind).2⟩
      · exact absurd (List.cons.inj hbehind).1 hcomma
      · exact absurd (List.cons.inj hbehind).1.symm hcomma
      · obtain ⟨hxs, hst⟩ := ih h.2 _ (List.cons.inj hbehind).2
        exact ⟨congrArg (x :: ·) hxs, hst⟩

end separated

/-! ## Values -/

/-- The text of a field. -/
def fieldText (field : String × Value) : List Char :=
  quote field.1 ++ ':' :: compact field.2

theorem compactItems_eq_separated (items : List Value) :
    compactItems items = separated ']' (items.map compact) := by
  induction items with
  | nil => rfl
  | cons item rest ih => cases rest <;> simp_all [compactItems, separated]

theorem compactFields_eq_separated (fields : List (String × Value)) :
    compactFields fields = separated '}' (fields.map fieldText) := by
  induction fields with
  | nil => rfl
  | cons field rest ih => cases rest <;> simp_all [compactFields, separated, fieldText]

theorem boolText_append_inj {a b : Bool} {s t : List Char}
    (h : boolText a ++ s = boolText b ++ t) : a = b ∧ s = t := by
  cases a <;> cases b <;> simp_all [boolText]

theorem told_fieldText {field : String × Value} (h : Told compact field.2) :
    Told fieldText field := by
  rintro field' s t hs ht heq
  simp only [fieldText, List.append_assoc, List.cons_append] at heq
  obtain ⟨hkey, hrest⟩ := quote_append_inj heq
  obtain ⟨hvalue, hst⟩ := h _ _ _ hs ht (List.cons.inj hrest).2
  exact ⟨Prod.ext hkey hvalue, hst⟩

theorem compact_append_ne_bracket (v : Value) (s t : List Char) : compact v ++ s ≠ ']' :: t := by
  intro h
  obtain ⟨c, text, hv, hc⟩ := exists_cons_compact v
  rw [hv] at h
  rw [(List.cons.inj h).1] at hc
  cases hc

theorem fieldText_append_ne_brace (field : String × Value) (s t : List Char) :
    fieldText field ++ s ≠ '}' :: t := by
  simp [fieldText, quote]

theorem told_sequence {items : List Value} (h : ∀ item ∈ items, Told compact item) :
    Told compact (.sequence items) := by
  intro w s t hs ht heq
  have hlead := lead_eq_of_append heq
  cases w <;> cases hlead
  rw [compact, compact, compactItems_eq_separated, compactItems_eq_separated] at heq
  have htold := told_separated (by simp [EndsNumber]) (by decide) compact_append_ne_bracket h
  exact (htold _ s t hs ht (List.cons.inj heq).2).imp_left (congrArg Value.sequence)

theorem told_mapping {fields : List (String × Value)} (h : ∀ field ∈ fields, Told fieldText field) :
    Told compact (.mapping fields) := by
  intro w s t hs ht heq
  have hlead := lead_eq_of_append heq
  cases w <;> cases hlead
  rw [compact, compact, compactFields_eq_separated, compactFields_eq_separated] at heq
  have htold := told_separated (by simp [EndsNumber]) (by decide) fieldText_append_ne_brace h
  exact (htold _ s t hs ht (List.cons.inj heq).2).imp_left (congrArg Value.mapping)

mutual

/-- **A value is told by its compact text**, also at the front of a longer text. -/
theorem told_compact (v : Value) : Told compact v := by
  intro w s t hs ht h
  -- The first character leaves one constructor for the other value.
  have hlead := lead_eq_of_append h
  cases v with
  | null =>
    cases w <;> cases hlead
    exact ⟨rfl, List.append_cancel_left h⟩
  | bool value =>
    cases w <;> cases hlead
    rw [compact, compact] at h
    exact (boolText_append_inj h).imp_left (congrArg Value.bool)
  | number n =>
    cases w <;> cases hlead
    rw [compact, compact] at h
    exact (numberText_append_inj hs ht h).imp_left (congrArg Value.number)
  | string text =>
    cases w <;> cases hlead
    rw [compact, compact] at h
    exact (quote_append_inj h).imp_left (congrArg Value.string)
  | sequence items => exact told_sequence (told_items items) w s t hs ht h
  | mapping fields => exact told_mapping (told_fields fields) w s t hs ht h

theorem told_items (items : List Value) : ∀ item ∈ items, Told compact item := by
  cases items with
  | nil => simp
  | cons item rest => exact List.forall_mem_cons.2 ⟨told_compact item, told_items rest⟩

theorem told_fields (fields : List (String × Value)) : ∀ field ∈ fields, Told fieldText field := by
  cases fields with
  | nil => simp
  | cons field rest =>
    obtain ⟨key, value⟩ := field
    exact List.forall_mem_cons.2 ⟨told_fieldText (told_compact value), told_fields rest⟩

end

theorem compact_injective : Function.Injective compact := by
  intro v w h
  have hends : EndsNumber [] := by simp [EndsNumber]
  exact (told_compact v w [] [] hends hends (by rw [h])).1

theorem compactText_injective : Function.Injective compactText := fun _ _ h =>
  compact_injective (String.ofList_injective h)

end Stencil.Json
