import Stencil.Placeholder
import Stencil.Value.Fields

/-!
# Texts with placeholders

A text in which braces occur only as placeholders is spelled by a list of pieces. Replacing one
placeholder in such a text acts on its pieces one by one, since an occurrence cannot begin inside a
piece or reach from one into the next; so replacing the placeholders of several fields in turn
fills the pieces with all of them at once.

* `replaceAll_render`: replacing one placeholder fills the pieces.
* `Piece.fill_append`: filling in turn is filling at once.
* `Settled.replaceAll_eq`: in a settled text nothing more is replaced.
-/

namespace Stencil.Placeholder

/-- A text without braces. -/
def BraceFree (text : List Char) : Prop :=
  '{' ∉ text ∧ '}' ∉ text

instance (text : List Char) : Decidable (BraceFree text) :=
  inferInstanceAs (Decidable (_ ∧ _))

/-- One piece of a text with placeholders. -/
inductive Piece where
  | plain (text : List Char)
  | token (name : String)

namespace Piece

/-- The characters of a piece. -/
def chars : Piece → List Char
  | plain text => text
  | token name => Placeholder.token name

/-- The text or the name of the piece has no braces. -/
def WellFormed : Piece → Prop
  | plain text => BraceFree text
  | token name => BraceFree name.toList

instance : DecidablePred WellFormed := fun piece => by
  cases piece <;> unfold WellFormed <;> infer_instance

/-- The piece with the replacement for its name in place of a placeholder, if the name is that of a
variable. -/
def fill (fields : Fields Value) : Piece → Piece
  | plain text => plain text
  | token name =>
    match Fields.get? name fields with
    | some value => plain (replacement value)
    | none => token name

end Piece

/-- The text that pieces spell. -/
def render (pieces : List Piece) : List Char :=
  pieces.flatMap Piece.chars

/-- Well-formed pieces that spell a text. -/
structure Spells (pieces : List Piece) (text : List Char) : Prop where
  wellFormed : ∀ piece ∈ pieces, piece.WellFormed
  render_eq : render pieces = text

instance (pieces : List Piece) (text : List Char) : Decidable (Spells pieces text) :=
  decidable_of_iff ((∀ piece ∈ pieces, piece.WellFormed) ∧ render pieces = text)
    ⟨fun h => ⟨h.1, h.2⟩, fun h => ⟨h.wellFormed, h.render_eq⟩⟩

/-! ## Filling -/

namespace Piece

theorem fill_nil (piece : Piece) : piece.fill [] = piece := by
  cases piece <;> rfl

/-- Filling a piece with some fields and then with others fills it with all of them. -/
theorem fill_append (first second : Fields Value) (piece : Piece) :
    piece.fill (first ++ second) = (piece.fill first).fill second := by
  cases piece with
  | plain text => rfl
  | token name =>
    induction first with
    | nil => rw [List.nil_append, fill_nil]
    | cons field rest ih =>
      obtain ⟨key, value⟩ := field
      by_cases hkey : key = name
      · simp [fill, Fields.get?, hkey]
      · simpa [fill, Fields.get?, hkey] using ih

theorem fill_congr {fields fields' : Fields Value}
    (h : ∀ name, Fields.get? name fields' = Fields.get? name fields) :
    fill fields' = fill fields := by
  funext piece
  cases piece with
  | plain text => rfl
  | token name => rw [fill, fill, h]

theorem fill_fill (fields : Fields Value) (piece : Piece) :
    (piece.fill fields).fill fields = piece.fill fields := by
  cases piece with
  | plain text => rfl
  | token name => cases h : Fields.get? name fields <;> simp [fill, h]

theorem WellFormed.fill {fields : Fields Value} {piece : Piece} (h : piece.WellFormed)
    (hfields : ∀ field ∈ fields, BraceFree (replacement field.2)) :
    (piece.fill fields).WellFormed := by
  cases piece with
  | plain text => exact h
  | token name =>
    rw [Piece.fill]
    split
    · rename_i value hvalue
      exact hfields (name, value) (Fields.mem_of_get? hvalue)
    · exact h

end Piece

/-! ## Replacing one placeholder -/

section replaceAll

variable {filling : List Char}

/-- Nothing is replaced in characters that no placeholder begins with. -/
theorem replaceAll_append {name : String} {text : List Char} (h : '{' ∉ text)
    (rest : List Char) :
    replaceAll (token name) filling (text ++ rest) =
      text ++ replaceAll (token name) filling rest := by
  induction text with
  | nil => rfl
  | cons c text ih =>
    rw [List.mem_cons, not_or] at h
    have hc : ¬(token name).isPrefixOf (c :: (text ++ rest)) = true := by
      simp [token, h.1]
    rw [List.cons_append, replaceAll, if_neg hc, ih h.2, List.cons_append]

theorem replaceAll_token (name : String) (rest : List Char) :
    replaceAll (token name) filling (token name ++ rest) =
      filling ++ replaceAll (token name) filling rest := by
  have hcons : token name ++ rest = '{' :: ((token name).tail ++ rest) := rfl
  have hprefix : (token name).isPrefixOf ('{' :: ((token name).tail ++ rest)) = true := by
    rw [← hcons, List.isPrefixOf_iff_prefix]
    exact List.prefix_append _ _
  have hdrop : ((token name).tail ++ rest).drop ((token name).length - 1) = rest := by
    rw [← List.length_tail, List.drop_left]
  rw [hcons, replaceAll, if_pos hprefix, hdrop]

/-- A placeholder at the beginning of a text that begins with a placeholder is the same one. -/
theorem eq_of_prefix_token {name other : String} (hname : BraceFree name.toList)
    (hother : BraceFree other.toList) {rest : List Char}
    (h : token name <+: token other ++ rest) : name = other := by
  obtain ⟨behind, h⟩ := h
  have htexts : name.toList ++ '}' :: ('}' :: behind) = other.toList ++ '}' :: ('}' :: rest) := by
    simpa [token] using h
  have htake := congrArg (List.takeWhile (· ≠ '}')) htexts
  have hspan : ∀ {text : List Char} (rest : List Char), '}' ∉ text →
      (text ++ '}' :: rest).takeWhile (· ≠ '}') = text := by
    intro text rest htext
    rw [List.takeWhile_append_of_pos (by simpa using fun c hc => ne_of_mem_of_not_mem hc htext)]
    simp
  rw [hspan _ hname.2, hspan _ hother.2] at htake
  exact String.toList_inj.1 htake

/-- Nothing is replaced in a placeholder of another name. -/
theorem replaceAll_token_of_ne {name other : String} (hname : BraceFree name.toList)
    (hother : BraceFree other.toList) (h : name ≠ other) (rest : List Char) :
    replaceAll (token name) filling (token other ++ rest) =
      token other ++ replaceAll (token name) filling rest := by
  have hbehind : '{' ∉ other.toList ++ ['}', '}'] := by simp [hother.1]
  have hfirst : ¬(token name).isPrefixOf (token other ++ rest) = true := by
    rw [List.isPrefixOf_iff_prefix]
    exact fun hprefix => h (eq_of_prefix_token hname hother hprefix)
  have hsecond : ¬(token name).isPrefixOf ('{' :: (other.toList ++ ['}', '}'] ++ rest)) = true := by
    rcases hchars : other.toList with _ | ⟨c, cs⟩
    · simp [token]
    · have hc : '{' ≠ c := by
        have := hother.1
        simp_all
      simp [token, hc]
  have hcons : token other ++ rest = '{' :: '{' :: (other.toList ++ ['}', '}'] ++ rest) := by
    simp [token]
  rw [hcons] at hfirst ⊢
  rw [replaceAll, if_neg hfirst, replaceAll, if_neg hsecond, replaceAll_append hbehind]
  simp [token]

/-- **Replacing one placeholder fills the pieces.** -/
theorem replaceAll_render {name : String} (hname : BraceFree name.toList) (value : Value)
    {pieces : List Piece} (h : ∀ piece ∈ pieces, piece.WellFormed) :
    replaceAll (token name) (replacement value) (render pieces) =
      render (pieces.map (Piece.fill [(name, value)])) := by
  induction pieces with
  | nil => simp [render, replaceAll]
  | cons piece rest ih =>
    obtain ⟨hpiece, hrest⟩ := List.forall_mem_cons.1 h
    have hcons : ∀ (first : Piece) (others : List Piece),
        render (first :: others) = first.chars ++ render others := fun _ _ => List.flatMap_cons
    rw [List.map_cons, hcons, hcons, ← ih hrest]
    cases piece with
    | plain text => exact replaceAll_append hpiece.1 _
    | token other =>
      by_cases hother : name = other
      · subst hother
        simpa [Piece.fill, Fields.get?, Piece.chars] using replaceAll_token name _
      · simpa [Piece.fill, Fields.get?, Piece.chars, hother] using
          replaceAll_token_of_ne hname hpiece hother _

end replaceAll

/-! ## Texts in which nothing more is replaced -/

theorem replaceAll_of_not_isInfix {word filling text : List Char} (h : ¬word <:+: text) :
    replaceAll word filling text = text := by
  induction text with
  | nil => rw [replaceAll]
  | cons c rest ih =>
    rw [List.infix_cons_iff, not_or] at h
    rw [replaceAll, if_neg (by simpa using h.1), ih h.2]

theorem replaceAll_self {word : List Char} (hword : word ≠ []) (text : List Char) :
    replaceAll word word text = text := by
  induction text using replaceAll.induct word with
  | case1 => rw [replaceAll]
  | case2 c rest hprefix ih =>
    obtain ⟨behind, hbehind⟩ := List.isPrefixOf_iff_prefix.1 hprefix
    obtain ⟨d, word, rfl⟩ := List.exists_cons_of_ne_nil hword
    obtain ⟨rfl, rfl⟩ : d = c ∧ word ++ behind = rest := by simpa using hbehind
    rw [replaceAll, if_pos hprefix, ih]
    simp
  | case3 c rest hprefix ih => rw [replaceAll, if_neg hprefix, ih]

/-- Whether a text has no placeholder of a name in it, or the placeholder is put in for itself. -/
def Settled (name : String) (value : Value) (text : List Char) : Prop :=
  token name <:+: text → replacement value = token name

instance (name : String) (value : Value) (text : List Char) :
    Decidable (Settled name value text) :=
  inferInstanceAs (Decidable (_ → _))

theorem Settled.replaceAll_eq {name : String} {value : Value} {text : List Char}
    (h : Settled name value text) : replaceAll (token name) (replacement value) text = text := by
  by_cases hinfix : token name <:+: text
  · rw [h hinfix]
    exact replaceAll_self (List.cons_ne_nil _ _) text
  · exact replaceAll_of_not_isInfix hinfix

end Stencil.Placeholder
