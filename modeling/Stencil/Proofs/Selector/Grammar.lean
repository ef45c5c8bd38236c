import Stencil.Proofs.Selector.Outside
import Stencil.Selector.Alternatives

/-!
# Expression trees

The grammar of path expressions as trees. A path is a list of parts; a part is a literal key, a
group of alternatives, which are paths with blanks around them, or text with braces in it that is no
group. A tree is written with `Part.render` and stands for the texts `Part.denote`.

* `Part.unbroken_render`: a part of a well-formed tree is written without a dot outside its braces,
  and inside a group without a comma there.
* `splitOutside_renderPath`, `bodyAlternatives_renderBody`: the parts of a path and the alternatives
  of a group are found again in what is written.
-/

namespace Stencil.Selector

open Text

/-- Something with blanks before and behind it. -/
structure Spaced (α : Type) where
  before : List Char
  content : α
  behind : List Char

/-- One part of a path in an expression tree. -/
inductive Part where
  | literal (text : List Char)
  /-- A text with braces in it that is not one whole group. -/
  | glued (text : List Char)
  | group (alternatives : List (Spaced (List Part)))

/-! ## How a tree is written -/

mutual

/-- The text of a part. -/
def Part.render : Part → List Char
  | .literal text => text
  | .glued text => text
  | .group alternatives => '{' :: [','].intercalate (renderAlternatives alternatives) ++ ['}']

/-- The texts of the parts of a path. -/
def renderParts : List Part → List (List Char)
  | [] => []
  | part :: rest => part.render :: renderParts rest

/-- The texts of alternatives, with their blanks. -/
def renderAlternatives : List (Spaced (List Part)) → List (List Char)
  | [] => []
  | ⟨before, path, behind⟩ :: rest =>
    (before ++ ['.'].intercalate (renderParts path) ++ behind) :: renderAlternatives rest

end

/-- The text of a path: its parts with dots between them. -/
def renderPath (path : List Part) : List Char :=
  ['.'].intercalate (renderParts path)

/-- The text between the braces of a group. -/
def renderBody (alternatives : List (Spaced (List Part))) : List Char :=
  [','].intercalate (renderAlternatives alternatives)

/-! ## What a tree stands for -/

/-- Every text of the first list joined by a dot to every text of the second, the first varying
slowest. -/
def dotted (firsts seconds : List (List Char)) : List (List Char) :=
  firsts.flatMap fun p => seconds.map fun q => p ++ '.' :: q

/-- The dot-joined cross product of lists of texts, the leftmost varying slowest. -/
def dottedProduct : List (List (List Char)) → List (List Char)
  | [] => []
  | [texts] => texts
  | texts :: rest => dotted texts (dottedProduct rest)

mutual

/-- The texts that a part stands for. -/
def Part.denote : Part → List (List Char)
  | .literal text => [text]
  | .glued _ => []
  | .group alternatives => denoteAlternatives alternatives

/-- The texts that each part of a path stands for. -/
def denoteParts : List Part → List (List (List Char))
  | [] => []
  | part :: rest => part.denote :: denoteParts rest

/-- The texts that alternatives stand for, in the order in which they are written. -/
def denoteAlternatives : List (Spaced (List Part)) → List (List Char)
  | [] => []
  | ⟨_, path, _⟩ :: rest => dottedProduct (denoteParts path) ++ denoteAlternatives rest

end

/-- The texts that a path stands for. -/
def denotePath (path : List Part) : List (List Char) :=
  dottedProduct (denoteParts path)

/-! ## Well-formed trees -/

/-- A text that neither begins nor ends with a blank. -/
structure Trimmed (text : List Char) : Prop where
  head : ∀ c ∈ text.head?, isBlank c = false
  last : ∀ c ∈ text.getLast?, isBlank c = false

theorem trimmed_of_ends {first last : Char} {text : List Char} (hfirst : text.head? = some first)
    (hlast : text.getLast? = some last) (h : isBlank first = false ∧ isBlank last = false) :
    Trimmed text := by
  constructor
  · intro c hc
    obtain rfl : first = c := by simpa [hfirst] using hc
    exact h.1
  · intro c hc
    obtain rfl : last = c := by simpa [hlast] using hc
    exact h.2

mutual

/-- Whether a part may stand in a path, inside a group if `inner` holds: there its text holds no
comma outside its own braces. -/
def Part.WellFormed (inner : Bool) : Part → Prop
  | .literal text =>
    text ≠ [] ∧ '.' ∉ text ∧ '{' ∉ text ∧ '}' ∉ text ∧ (inner = true → ',' ∉ text)
  | .glued text =>
    HasBraces text ∧ Balanced text ∧ '.' ∉ outside text ∧ (inner = true → ',' ∉ outside text) ∧
      ∀ body, Balanced body → text ≠ '{' :: body ++ ['}']
  | .group alternatives => alternatives ≠ [] ∧ AlternativesWellFormed alternatives

/-- Whether every part of a list is well formed. -/
def PartsWellFormed (inner : Bool) : List Part → Prop
  | [] => True
  | part :: rest => part.WellFormed inner ∧ PartsWellFormed inner rest

/-- Whether alternatives are paths of one or more parts, trimmed, with nothing but blanks around
them. -/
def AlternativesWellFormed : List (Spaced (List Part)) → Prop
  | [] => True
  | ⟨before, path, behind⟩ :: rest =>
    ((∀ c ∈ before, isBlank c = true) ∧ (∀ c ∈ behind, isBlank c = true) ∧ path ≠ [] ∧
      PartsWellFormed true path ∧ Trimmed (['.'].intercalate (renderParts path))) ∧
    AlternativesWellFormed rest

end

/-- A well-formed path of an expression. -/
structure PathWellFormed (path : List Part) : Prop where
  ne_nil : path ≠ []
  parts : PartsWellFormed false path

/-- A well-formed alternative of a group. -/
structure AlternativeWellFormed (alternative : Spaced (List Part)) : Prop where
  blank_before : ∀ c ∈ alternative.before, isBlank c = true
  blank_behind : ∀ c ∈ alternative.behind, isBlank c = true
  ne_nil : alternative.content ≠ []
  parts : PartsWellFormed true alternative.content
  trimmed : Trimmed (renderPath alternative.content)

/-! ## Lists of parts and of alternatives -/

theorem renderParts_eq_map (path : List Part) : renderParts path = path.map Part.render := by
  induction path with
  | nil => rfl
  | cons part rest ih => rw [renderParts, ih, List.map_cons]

theorem denoteParts_eq_map (path : List Part) : denoteParts path = path.map Part.denote := by
  induction path with
  | nil => rfl
  | cons part rest ih => rw [denoteParts, ih, List.map_cons]

theorem renderAlternatives_eq_map (alternatives : List (Spaced (List Part))) :
    renderAlternatives alternatives =
      alternatives.map fun a => a.before ++ renderPath a.content ++ a.behind := by
  induction alternatives with
  | nil => rfl
  | cons a rest ih => rw [renderAlternatives, ih, List.map_cons, renderPath]

theorem denoteAlternatives_eq_flatMap (alternatives : List (Spaced (List Part))) :
    denoteAlternatives alternatives = alternatives.flatMap fun a => denotePath a.content := by
  induction alternatives with
  | nil => rfl
  | cons a rest ih => rw [denoteAlternatives, ih, List.flatMap_cons, denotePath]

theorem partsWellFormed_iff {inner : Bool} {path : List Part} :
    PartsWellFormed inner path ↔ ∀ part ∈ path, part.WellFormed inner := by
  induction path with
  | nil => simp [PartsWellFormed]
  | cons part rest ih => simp [PartsWellFormed, ih]

theorem alternativesWellFormed_iff {alternatives : List (Spaced (List Part))} :
    AlternativesWellFormed alternatives ↔ ∀ a ∈ alternatives, AlternativeWellFormed a := by
  induction alternatives with
  | nil => simp [AlternativesWellFormed]
  | cons a rest ih =>
    rw [AlternativesWellFormed, ih, List.forall_mem_cons]
    refine and_congr_left fun _ => ⟨?_, ?_⟩
    · rintro ⟨h₁, h₂, h₃, h₄, h₅⟩
      exact ⟨h₁, h₂, h₃, h₄, h₅⟩
    · rintro ⟨h₁, h₂, h₃, h₄, h₅⟩
      exact ⟨h₁, h₂, h₃, h₄, h₅⟩

/-- What may stand inside a group may stand outside of it. -/
theorem Part.WellFormed.of_inner {inner : Bool} {part : Part} (h : part.WellFormed true) :
    part.WellFormed inner := by
  cases part with
  | literal text =>
    obtain ⟨h₁, h₂, h₃, h₄, h₅⟩ := h
    exact ⟨h₁, h₂, h₃, h₄, fun _ => h₅ rfl⟩
  | glued text =>
    obtain ⟨h₁, h₂, h₃, h₄, h₅⟩ := h
    exact ⟨h₁, h₂, h₃, fun _ => h₄ rfl, h₅⟩
  | group alternatives => exact h

/-! ## What is written is cut where it was joined -/

theorem HasBraces.intercalate {part : List Char} (h : HasBraces part) {parts : List (List Char)}
    (hpart : part ∈ parts) : HasBraces (['.'].intercalate parts) :=
  ⟨(mem_intercalate (by decide)).2 ⟨part, hpart, h.1⟩,
    (mem_intercalate (by decide)).2 ⟨part, hpart, h.2⟩⟩

theorem not_mem_braces_of_isBlank {text : List Char} (h : ∀ c ∈ text, isBlank c = true) :
    '{' ∉ text ∧ '}' ∉ text ∧ ',' ∉ text := by
  refine ⟨fun hc => ?_, fun hc => ?_, fun hc => ?_⟩ <;> exact absurd (h _ hc) (by decide)

mutual

/-- A part is written without a separator outside its braces. -/
theorem Part.unbroken_render {inner : Bool} : ∀ {part : Part}, part.WellFormed inner →
    Unbroken '.' part.render ∧ (inner = true → Unbroken ',' part.render)
  | .literal _, ⟨_, hdot, h₁, h₂, hcomma⟩ =>
    ⟨.of_notMem hdot h₁ h₂, fun hi => .of_notMem (hcomma hi) h₁ h₂⟩
  | .glued _, ⟨_, hb, hdot, hcomma, _⟩ => ⟨⟨hb, hdot⟩, fun hi => ⟨hb, hcomma hi⟩⟩
  | .group _, ⟨_, h⟩ =>
    have hbody : Balanced ([','].intercalate _) := .intercalate (by decide) (by decide)
      fun text ht => (unbroken_of_mem_renderAlternatives h text ht).balanced
    ⟨.braces hbody (by decide), fun _ => .braces hbody (by decide)⟩

theorem unbroken_of_mem_renderParts : ∀ {path : List Part}, PartsWellFormed true path →
    ∀ text ∈ renderParts path, Unbroken ',' text
  | [], _, _, ht => nomatch ht
  | _ :: _, ⟨hpart, hrest⟩, text, ht => by
    rcases List.mem_cons.1 ht with rfl | ht
    · exact (Part.unbroken_render hpart).2 rfl
    · exact unbroken_of_mem_renderParts hrest text ht

theorem unbroken_of_mem_renderAlternatives : ∀ {alternatives : List (Spaced (List Part))},
    AlternativesWellFormed alternatives → ∀ text ∈ renderAlternatives alternatives,
      Unbroken ',' text
  | [], _, _, ht => nomatch ht
  | ⟨_, _, _⟩ :: _, ⟨⟨hbefore, hbehind, _, hparts, _⟩, hrest⟩, text, ht => by
    rcases List.mem_cons.1 ht with rfl | ht
    · obtain ⟨b₁, b₂, b₃⟩ := not_mem_braces_of_isBlank hbefore
      obtain ⟨e₁, e₂, e₃⟩ := not_mem_braces_of_isBlank hbehind
      have hpath : Unbroken ',' (['.'].intercalate _) := .intercalate (by decide) (by decide)
        (by decide) (unbroken_of_mem_renderParts hparts)
      exact ((Unbroken.of_notMem b₃ b₁ b₂).append hpath).append (.of_notMem e₃ e₁ e₂)
    · exact unbroken_of_mem_renderAlternatives hrest text ht

end

theorem balanced_renderBody {alternatives : List (Spaced (List Part))}
    (h : AlternativesWellFormed alternatives) : Balanced (renderBody alternatives) :=
  .intercalate (by decide) (by decide)
    fun text ht => (unbroken_of_mem_renderAlternatives h text ht).balanced

theorem Part.render_ne_nil {inner : Bool} {part : Part} (h : part.WellFormed inner) :
    part.render ≠ [] := by
  cases part with
  | literal text => exact h.1
  | glued text => exact List.ne_nil_of_mem h.1.1
  | group alternatives => simp [Part.render]

theorem renderPath_ne_nil {inner : Bool} {path : List Part} (hne : path ≠ [])
    (h : PartsWellFormed inner path) : renderPath path ≠ [] := by
  obtain ⟨part, rest, rfl⟩ := List.exists_cons_of_ne_nil hne
  exact intercalate_ne_nil (Part.render_ne_nil h.1) (renderParts rest)

/-- The parts of a written path are found again. -/
theorem splitOutside_renderPath {inner : Bool} {path : List Part} (hne : path ≠ [])
    (h : PartsWellFormed inner path) :
    splitOutside '.' (renderPath path) = path.map Part.render := by
  rw [renderPath, renderParts_eq_map]
  refine splitOutside_intercalate (by simpa using hne) fun text ht => ?_
  obtain ⟨part, hp, rfl⟩ := List.mem_map.1 ht
  exact (Part.unbroken_render (partsWellFormed_iff.1 h part hp)).1

/-- Trimming takes off exactly the blanks put around a trimmed text. -/
theorem trim_append {before text behind : List Char} (hbefore : ∀ c ∈ before, isBlank c = true)
    (hbehind : ∀ c ∈ behind, isBlank c = true) (hne : text ≠ []) (h : Trimmed text) :
    trim (before ++ text ++ behind) = text := by
  have hfront : (before ++ text ++ behind).dropWhile isBlank = text ++ behind := by
    obtain ⟨c, rest, rfl⟩ := List.exists_cons_of_ne_nil hne
    rw [List.append_assoc, List.dropWhile_append_of_pos hbefore, List.cons_append,
      List.dropWhile_cons_of_neg (by simp [h.head c rfl])]
  have hback : (text ++ behind).reverse.dropWhile isBlank = text.reverse := by
    obtain ⟨rest, c, rfl⟩ : ∃ rest c, text = rest ++ [c] :=
      ⟨_, _, (List.dropLast_concat_getLast hne).symm⟩
    rw [List.reverse_append, List.dropWhile_append_of_pos (by simpa using hbehind),
      List.reverse_append, List.reverse_singleton, List.singleton_append,
      List.dropWhile_cons_of_neg (by simp [h.last c (by simp)])]
  rw [trim, hfront, hback, List.reverse_reverse]

/-- The alternatives of a written group are found again, without their blanks. -/
theorem bodyAlternatives_renderBody {alternatives : List (Spaced (List Part))}
    (hne : alternatives ≠ []) (h : AlternativesWellFormed alternatives) :
    bodyAlternatives (renderBody alternatives) =
      alternatives.map fun a => renderPath a.content := by
  have hcut : splitOutside ',' (renderBody alternatives) = renderAlternatives alternatives := by
    refine splitOutside_intercalate ?_ (unbroken_of_mem_renderAlternatives h)
    rw [renderAlternatives_eq_map]
    simpa using hne
  rw [bodyAlternatives, hcut, renderAlternatives_eq_map, List.map_map]
  refine List.map_congr_left fun a ha => ?_
  have ha' := alternativesWellFormed_iff.1 h a ha
  exact trim_append ha'.blank_before ha'.blank_behind (renderPath_ne_nil ha'.ne_nil ha'.parts)
    ha'.trimmed

end Stencil.Selector
