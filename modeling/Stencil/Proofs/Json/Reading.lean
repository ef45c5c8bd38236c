import Stencil.Json.Reader
import Stencil.Proofs.Json.Compact
import Stencil.Proofs.Value.Spelling

/-!
# A compact text is read back

The text of a value is cut into the tokens of the value, and the machine with open frames makes the
tree of the value of them. All that reading can lose are numbers: one that is read comes back as
what the digits in its text denote, which need not be the number itself. So a text that denotes its
value is read as the tree of this value.

* `numeral?`: the number that is read from the text of a number.
* `cut_compact`: the tokens of a value, cut at the front of a longer text.
* `reads_tokensOf`: the tree that is made of the tokens, inside any open frames.
* `writtenOfText?_compactText`: how a compact text is read.
* `writtenOfText?_of_valueOfText?`: how it is read if it denotes its value.
-/

namespace Stencil.Json

open Written (spell spellField ofValue)

/-! ## Tokens -/

/-- The number that is read from the text of a number. -/
def numeral? (n : Number) : Option Number :=
  (scanNumber (numberText n)).bind fun read => read.1.value?

/-- Groups of tokens with commas between them and a token behind them. -/
def separatedTokens (close : Token) : List (List Token) → List Token
  | [] => [close]
  | [tokens] => tokens ++ [close]
  | tokens :: rest => tokens ++ .comma :: separatedTokens close rest

/-- The tokens behind the first of such groups. -/
def tokensBehind (close : Token) : List (List Token) → List Token
  | [] => [close]
  | tokens :: rest => .comma :: separatedTokens close (tokens :: rest)

theorem separatedTokens_cons (close : Token) (tokens : List Token) (rest : List (List Token)) :
    separatedTokens close (tokens :: rest) = tokens ++ tokensBehind close rest := by
  cases rest <;> rfl

mutual

/-- The tokens of a value. -/
def tokensOf : Value → List Token
  | .null => [.null]
  | .bool value => [.bool value]
  | .number n => [.number (numeral? n)]
  | .string text => [.string (some text)]
  | .sequence items => .beginArray :: separatedTokens .endArray (itemTokens items)
  | .mapping fields => .beginObject :: separatedTokens .endObject (fieldTokens fields)

/-- The tokens of the items of a sequence. -/
def itemTokens : List Value → List (List Token)
  | [] => []
  | item :: rest => tokensOf item :: itemTokens rest

/-- The tokens of the fields of a mapping. -/
def fieldTokens : List (String × Value) → List (List Token)
  | [] => []
  | (key, value) :: rest => (.string (some key) :: .colon :: tokensOf value) :: fieldTokens rest

end

/-- A text is cut into the given tokens at the front of every text that does not go on with a
number. -/
def Cut (text : List Char) (tokens : List Token) : Prop :=
  ∀ rest, EndsNumber rest → tokens? (text ++ rest) = (tokens? rest).map (tokens ++ ·)

theorem tokens?_of_scanToken {c : Char} {rest behind : List Char} {token : Token}
    (hspace : isSpace c = false) (h : scanToken c rest = some (token, behind)) :
    tokens? (c :: rest) = (tokens? behind).map (token :: ·) := by
  rw [tokens?]
  simp only [hspace, Bool.false_eq_true, if_false]
  split
  · simp_all
  · simp_all

theorem isSpace_of_mark? {c : Char} {token : Token} (h : mark? c = some token) :
    isSpace c = false := by
  have hc : c = '[' ∨ c = ']' ∨ c = '{' ∨ c = '}' ∨ c = ':' ∨ c = ',' := by
    by_contra hne
    simp only [not_or] at hne
    simp [mark?, hne] at h
  rcases hc with rfl | rfl | rfl | rfl | rfl | rfl <;> rfl

theorem tokens?_mark {c : Char} {token : Token} (h : mark? c = some token) (rest : List Char) :
    tokens? (c :: rest) = (tokens? rest).map (token :: ·) := by
  refine tokens?_of_scanToken (isSpace_of_mark? h) ?_
  rw [scanToken, h]

theorem tokens?_quote (text : String) (rest : List Char) :
    tokens? (quote text ++ rest) = (tokens? rest).map (.string (some text) :: ·) := by
  have hscan := scanString_flatMap_escape text.toList rest
  have htext : (pieceChars? (text.toList.map Piece.ofChar)).map String.ofList = some text := by
    rw [pieceChars?_map_ofChar, Option.map_some, String.ofList_toList]
  have hquote : quote text ++ rest = '"' :: (text.toList.flatMap escape ++ '"' :: rest) := by
    simp [quote]
  rw [hquote]
  refine tokens?_of_scanToken rfl ?_
  have hmark : mark? '"' = none := rfl
  simp only [scanToken, hmark, if_true, hscan, Option.map_some, htext]

theorem cut_bool (value : Bool) : Cut (boolText value) [.bool value] := by
  intro rest _
  cases value <;> exact tokens?_of_scanToken rfl rfl

/-- No digit is a letter. -/
theorem isAlpha_of_isDigit {c : Char} (h : c.isDigit = true) : c.isAlpha = false := by
  obtain ⟨-, hhigh⟩ := isDigit_bounds h
  have hupper : ¬('A'.val ≤ c.val) := fun hle => by
    have hlow : 65 ≤ c.toNat := UInt32.le_iff_toNat_le.1 hle
    omega
  have hlower : ¬('a'.val ≤ c.val) := fun hle => by
    have hlow : 97 ≤ c.toNat := UInt32.le_iff_toNat_le.1 hle
    omega
  refine Bool.or_eq_false_iff.2 ⟨decide_eq_false fun hrange => hupper hrange.1, ?_⟩
  exact Bool.and_eq_false_imp.2 fun hle => absurd (of_decide_eq_true hle) hlower

/-- A sign or a digit starts a number and nothing else. -/
theorem scanToken_number {c : Char} {rest behind : List Char} {literal : NumberLiteral}
    (hc : c = '-' ∨ c.isDigit = true) (h : scanNumber (c :: rest) = some (literal, behind)) :
    isSpace c = false ∧ scanToken c rest = some (.number literal.value?, behind) := by
  have hne : ∀ d : Char, ¬(d = '-' ∨ d.isDigit = true) → c ≠ d := fun d hd hcd => hd (hcd ▸ hc)
  have hspace : isSpace c = false := by
    simp [isSpace, hne ' ' (by decide), hne '\t' (by decide), hne '\n' (by decide),
      hne '\x0d' (by decide)]
  have hmark : mark? c = none := by
    simp [mark?, hne '[' (by decide), hne ']' (by decide), hne '{' (by decide),
      hne '}' (by decide), hne ':' (by decide), hne ',' (by decide)]
  have halpha : c.isAlpha = false := by
    rcases hc with rfl | hdigit
    · rfl
    · exact isAlpha_of_isDigit hdigit
  refine ⟨hspace, ?_⟩
  simp only [scanToken, hmark, if_neg (hne '"' (by decide)), halpha, Bool.false_eq_true, if_false,
    h, Option.map_some]

theorem cut_number (n : Number) : Cut (numberText n) [.number (numeral? n)] := by
  intro rest hrest
  obtain ⟨literal, hwell, htext, -⟩ := exists_literal_spells n
  obtain ⟨c, more, hcons, hc⟩ := exists_cons_numberText n
  have hscan := scanNumber_text hrest hwell
  have hnumeral : numeral? n = literal.value? := by
    have hends : EndsNumber [] := by simp [EndsNumber]
    rw [numeral?, ← htext, ← List.append_nil literal.text, scanNumber_text hends hwell]
    rfl
  rw [htext, hcons, List.cons_append] at hscan
  obtain ⟨hspace, htoken⟩ := scanToken_number hc hscan
  rw [hcons, List.cons_append, hnumeral]
  exact tokens?_of_scanToken hspace htoken

/-- Texts with commas between them are cut into their tokens. -/
theorem tokens?_separated {α : Type} {text : α → List Char} {tokens : α → List Token} {close : Char}
    {token : Token} (hclose : mark? close = some token) (hends : EndsNumber [close]) {xs : List α}
    (h : ∀ x ∈ xs, Cut (text x) (tokens x)) (rest : List Char) :
    tokens? (separated close (xs.map text) ++ rest) =
      (tokens? rest).map (separatedTokens token (xs.map tokens) ++ ·) := by
  induction xs with
  | nil => exact tokens?_mark hclose rest
  | cons x xs ih =>
    rw [List.forall_mem_cons] at h
    rw [List.map_cons, List.map_cons, separated_cons, separatedTokens_cons, List.append_assoc,
      h.1 _ (endsNumber_behind hends _ rest)]
    cases xs with
    | nil =>
      have hmark := tokens?_mark hclose rest
      simp [behind, tokensBehind, hmark, Function.comp_def]
    | cons y ys =>
      have hcomma : mark? ',' = some .comma := rfl
      have hrest := ih h.2
      rw [List.map_cons, List.map_cons] at hrest ⊢
      simp [behind, tokensBehind, tokens?_mark hcomma, hrest, Function.comp_def]

theorem itemTokens_eq_map (items : List Value) : itemTokens items = items.map tokensOf := by
  induction items with
  | nil => rfl
  | cons item rest ih => rw [itemTokens, ih, List.map_cons]

/-- The tokens of a field. -/
def tokensOfField (field : String × Value) : List Token :=
  .string (some field.1) :: .colon :: tokensOf field.2

theorem fieldTokens_eq_map (fields : List (String × Value)) :
    fieldTokens fields = fields.map tokensOfField := by
  induction fields with
  | nil => rfl
  | cons field rest ih => rw [fieldTokens, ih, List.map_cons, tokensOfField]

theorem cut_fieldText {field : String × Value} (h : Cut (compact field.2) (tokensOf field.2)) :
    Cut (fieldText field) (tokensOfField field) := by
  intro rest hrest
  have hcolon : mark? ':' = some .colon := rfl
  rw [fieldText, List.append_assoc, tokens?_quote, List.cons_append, tokens?_mark hcolon,
    h rest hrest]
  simp [tokensOfField, Function.comp_def]

mutual

/-- **The text of a value is cut into the tokens of the value.** -/
theorem cut_compact (v : Value) : Cut (compact v) (tokensOf v) := by
  cases v with
  | null => exact fun rest _ => tokens?_of_scanToken rfl rfl
  | bool value => exact cut_bool value
  | number n => exact cut_number n
  | string text => exact fun rest _ => tokens?_quote text rest
  | sequence items =>
    intro rest _
    have hopen : mark? '[' = some .beginArray := rfl
    have hclose : mark? ']' = some .endArray := rfl
    have hitems := tokens?_separated hclose (by simp [EndsNumber]) (cut_items items) rest
    rw [compact, compactItems_eq_separated, tokensOf, itemTokens_eq_map, List.cons_append,
      tokens?_mark hopen, hitems]
    simp [Function.comp_def]
  | mapping fields =>
    intro rest _
    have hopen : mark? '{' = some .beginObject := rfl
    have hclose : mark? '}' = some .endObject := rfl
    have hfields := tokens?_separated hclose (by simp [EndsNumber]) (cut_fields fields) rest
    rw [compact, compactFields_eq_separated, tokensOf, fieldTokens_eq_map, List.cons_append,
      tokens?_mark hopen, hfields]
    simp [Function.comp_def]

theorem cut_items (items : List Value) : ∀ item ∈ items, Cut (compact item) (tokensOf item) := by
  cases items with
  | nil => simp
  | cons item rest => exact List.forall_mem_cons.2 ⟨cut_compact item, cut_items rest⟩

theorem cut_fields (fields : List (String × Value)) :
    ∀ field ∈ fields, Cut (fieldText field) (tokensOfField field) := by
  cases fields with
  | nil => simp
  | cons field rest =>
    obtain ⟨key, value⟩ := field
    exact List.forall_mem_cons.2 ⟨cut_fieldText (cut_compact value), cut_fields rest⟩

end

/-! ## Trees -/

/-- The tree that is made of the given tokens, in every list of open frames. -/
def Reads (tokens : List Token) (tree : Written) : Prop :=
  ∀ frames rest, readValue frames (tokens ++ rest) = readBehind frames tree rest

/-- The machine goes on with the items of a list, behind those that are done. -/
theorem readValue_items {item : Value} {items : List Value}
    (h : ∀ v ∈ item :: items, Reads (tokensOf v) (spell numeral? v)) (done : List Written)
    (frames : List Frame) (rest : List Token) :
    readValue (.array done :: frames)
        (separatedTokens .endArray ((item :: items).map tokensOf) ++ rest) =
      readBehind frames (.list (done.reverse ++ (item :: items).map (spell numeral?))) rest := by
  induction items generalizing item done with
  | nil =>
    rw [List.map_singleton, separatedTokens, List.append_assoc, h item (by simp),
      List.singleton_append, readBehind]
    simp
  | cons next items ih =>
    rw [List.map_cons, separatedTokens_cons, List.map_cons, tokensBehind, List.append_assoc,
      h item (by simp), List.cons_append, readBehind, ← List.map_cons,
      ih fun v hv => h v (List.mem_cons_of_mem _ hv)]
    simp

/-- The machine goes on with the fields of a record, behind those that are done, where the name of
the first has been read. -/
theorem readValue_fields {field : String × Value} {fields : List (String × Value)}
    (h : ∀ f ∈ field :: fields, Reads (tokensOf f.2) (spell numeral? f.2))
    (done : List (Option String × Written)) (frames : List Frame) (rest : List Token) :
    readValue (.object done (some field.1) :: frames)
        (tokensOf field.2 ++ tokensBehind .endObject (fields.map tokensOfField) ++ rest) =
      readBehind frames
        (.record (done.reverse ++ (field :: fields).map (spellField numeral?))) rest := by
  induction fields generalizing field done with
  | nil =>
    rw [List.map_nil, tokensBehind, List.append_assoc, h field (by simp), List.singleton_append,
      readBehind]
    simp [spellField]
  | cons next fields ih =>
    rw [List.map_cons, tokensBehind, separatedTokens_cons, List.append_assoc, h field (by simp),
      tokensOfField, List.cons_append, List.cons_append, List.cons_append, List.cons_append,
      List.cons_append, readBehind, ih fun f hf => h f (List.mem_cons_of_mem _ hf)]
    simp [spellField]

theorem reads_sequence {items : List Value}
    (h : ∀ item ∈ items, Reads (tokensOf item) (spell numeral? item)) :
    Reads (tokensOf (.sequence items)) (spell numeral? (.sequence items)) := by
  intro frames rest
  rw [tokensOf, itemTokens_eq_map, spell, Written.spellItems_eq_map, List.cons_append]
  cases items with
  | nil => rw [List.map_nil, separatedTokens, List.singleton_append, readValue, List.map_nil]
  | cons item items =>
    rw [readValue, readValue_items h, List.reverse_nil, List.nil_append]
    -- The tokens of a value do not start with the end of a list.
    intro more hmore
    rw [List.map_cons, separatedTokens_cons, List.append_assoc] at hmore
    cases item <;> simp [tokensOf] at hmore

theorem reads_mapping {fields : List (String × Value)}
    (h : ∀ field ∈ fields, Reads (tokensOf field.2) (spell numeral? field.2)) :
    Reads (tokensOf (.mapping fields)) (spell numeral? (.mapping fields)) := by
  intro frames rest
  rw [tokensOf, fieldTokens_eq_map, spell, Written.spellFields_eq_map, List.cons_append]
  cases fields with
  | nil => rw [List.map_nil, separatedTokens, List.singleton_append, readValue, List.map_nil]
  | cons field fields =>
    rw [List.map_cons, separatedTokens_cons, tokensOfField, List.cons_append, List.cons_append,
      List.cons_append, List.cons_append, readValue, readValue_fields h, List.reverse_nil,
      List.nil_append]

mutual

/-- **The tree of a value is made of its tokens**, inside any open frames. -/
theorem reads_tokensOf (v : Value) : Reads (tokensOf v) (spell numeral? v) := by
  cases v with
  | null | bool | number | string => exact fun frames rest => by rw [tokensOf, spell,
      List.singleton_append, readValue]
  | sequence items => exact reads_sequence (reads_itemTokens items)
  | mapping fields => exact reads_mapping (reads_fieldTokens fields)

theorem reads_itemTokens (items : List Value) :
    ∀ item ∈ items, Reads (tokensOf item) (spell numeral? item) := by
  cases items with
  | nil => simp
  | cons item rest => exact List.forall_mem_cons.2 ⟨reads_tokensOf item, reads_itemTokens rest⟩

theorem reads_fieldTokens (fields : List (String × Value)) :
    ∀ field ∈ fields, Reads (tokensOf field.2) (spell numeral? field.2) := by
  cases fields with
  | nil => simp
  | cons field rest =>
    obtain ⟨key, value⟩ := field
    exact List.forall_mem_cons.2 ⟨reads_tokensOf value, reads_fieldTokens rest⟩

end

/-! ## Texts -/

/-- **A compact text is read as the tree of its value**, with the numbers that its digits denote. -/
theorem writtenOfText?_compactText (v : Value) :
    writtenOfText? (compactText v) = some (spell numeral? v) := by
  have hends : EndsNumber [] := by simp [EndsNumber]
  have htokens : tokens? (compact v) = some (tokensOf v) := by
    have hcut := cut_compact v [] hends
    rw [List.append_nil, tokens?] at hcut
    simpa using hcut
  have htree := reads_tokensOf v [] []
  rw [List.append_nil, readBehind] at htree
  rw [writtenOfText?, compactText, String.toList_ofList, htokens, Option.bind_some, htree]

/-- A text that denotes its value is read as the tree of this value. -/
theorem writtenOfText?_of_valueOfText? {v : Value} (h : valueOfText? (compactText v) = some v) :
    writtenOfText? (compactText v) = some (ofValue v) ∧ (ofValue v).height ≤ maxHeight := by
  rw [valueOfText?, writtenOfText?_compactText, Option.bind_some] at h
  obtain ⟨hheight, hvalue⟩ := Option.ite_none_right_eq_some.1 h
  rw [writtenOfText?_compactText, ← Written.spell_eq_ofValue hvalue]
  exact ⟨rfl, hheight⟩

end Stencil.Json
