import Stencil.Selector.Split
import Stencil.Text.Blank

/-!
# The alternatives of a path expression

A path expression may hold groups `{a,b}`. Its alternatives are the brace-free paths that it
stands for, found by putting each alternative of the first whole group in the group's place and
going on with the text so obtained. Braces that form no whole group stand for no path.

* `firstGroup?_eq_some`: a group that is found is one of the parts of the expression.
* `sublist_of_mem_bodyAlternatives`: an alternative is found in the body of its group.
* `length_plug_le`: putting an alternative in the place of its group shortens the text by at least
  the two braces, so the expansion ends.
-/

namespace Stencil.Selector

/-- Whether both braces occur in the text, so that it may hold a group. -/
def HasBraces (text : List Char) : Prop :=
  '{' ∈ text ∧ '}' ∈ text

instance (text : List Char) : Decidable (HasBraces text) :=
  inferInstanceAs (Decidable (_ ∧ _))

/-- The parts of an expression around its first whole group, and the body of that group. -/
structure GroupSplit where
  before : List (List Char)
  body : List Char
  after : List (List Char)

/-- The first of the parts that is a whole group, with the parts around it. -/
def firstGroup? : List (List Char) → Option GroupSplit
  | [] => none
  | part :: rest =>
    match groupBody? part with
    | some body => some ⟨[], body, rest⟩
    | none => (firstGroup? rest).map fun g => { g with before := part :: g.before }

/-- The alternatives written in the body of a group, without the blanks around each. -/
def bodyAlternatives (body : List Char) : List (List Char) :=
  (splitOutside ',' body).map Text.trim

/-- The expression with `alternative` in the place of the group. The parts before the group keep
their dots; the text after it gets one only if it is not empty. -/
def GroupSplit.plug (g : GroupSplit) (alternative : List Char) : List Char :=
  let behind := ['.'].intercalate g.after
  g.before.flatMap (· ++ ['.']) ++ alternative ++ if behind = [] then [] else '.' :: behind

theorem firstGroup?_eq_some {parts : List (List Char)} {g : GroupSplit}
    (h : firstGroup? parts = some g) :
    parts = g.before ++ ('{' :: g.body ++ ['}']) :: g.after ∧ Balanced g.body := by
  induction parts generalizing g with
  | nil => simp [firstGroup?] at h
  | cons part rest ih =>
    rw [firstGroup?] at h
    split at h
    · rename_i body hb
      obtain ⟨rfl, hbal⟩ := groupBody?_eq_some_iff.1 hb
      cases h
      exact ⟨rfl, hbal⟩
    · obtain ⟨g', hg', rfl⟩ := Option.map_eq_some_iff.1 h
      obtain ⟨rfl, hbal⟩ := ih hg'
      exact ⟨rfl, hbal⟩

theorem sublist_intercalate_of_mem {sep : Char} {part : List Char} {parts : List (List Char)}
    (h : part ∈ parts) : part.Sublist ([sep].intercalate parts) := by
  induction parts with
  | nil => cases h
  | cons p rest ih =>
    cases rest with
    | nil =>
      obtain rfl := List.mem_singleton.1 h
      simp
    | cons q rest =>
      rw [intercalate_cons_cons]
      rcases List.mem_cons.1 h with rfl | h
      · exact List.sublist_append_left _ _
      · exact ((ih h).cons sep).trans (List.sublist_append_right _ _)

theorem length_le_intercalate_of_mem {sep : Char} {part : List Char} {parts : List (List Char)}
    (h : part ∈ parts) : part.length ≤ ([sep].intercalate parts).length :=
  (sublist_intercalate_of_mem h).length_le

theorem sublist_of_mem_bodyAlternatives {body alternative : List Char}
    (h : alternative ∈ bodyAlternatives body) : alternative.Sublist body := by
  obtain ⟨part, hpart, rfl⟩ := List.mem_map.1 h
  have hbody : part.Sublist ([','].intercalate (splitOutside ',' body)) :=
    sublist_intercalate_of_mem hpart
  rw [splitOutside, intercalate_splitFrom] at hbody
  exact (Text.trim_sublist part).trans hbody

theorem length_le_of_mem_bodyAlternatives {body alternative : List Char}
    (h : alternative ∈ bodyAlternatives body) : alternative.length ≤ body.length :=
  (sublist_of_mem_bodyAlternatives h).length_le

theorem length_plug_le (g : GroupSplit) (alternative : List Char) :
    (g.plug alternative).length + g.body.length + 2 ≤
      (['.'].intercalate (g.before ++ ('{' :: g.body ++ ['}']) :: g.after)).length +
        alternative.length := by
  obtain ⟨before, body, after⟩ := g
  induction before with
  | nil =>
    cases after with
    | nil => simp [GroupSplit.plug, List.intercalate]; omega
    | cons part rest =>
      simp only [GroupSplit.plug, List.nil_append, List.flatMap_nil, intercalate_cons_cons]
      split <;> simp <;> omega
  | cons part before ih =>
    obtain ⟨s, l, hs⟩ : ∃ s l, before ++ ('{' :: body ++ ['}']) :: after = s :: l := by
      cases before <;> simp
    simp only [List.cons_append] at hs ih ⊢
    rw [hs] at ih ⊢
    rw [intercalate_cons_cons]
    simp only [GroupSplit.plug, List.flatMap_cons, List.length_append, List.length_cons,
      List.length_nil] at ih ⊢
    omega

/-- The brace-free paths that an expression stands for, the first group varying slowest. -/
def expand (text : List Char) : List (List Char) :=
  if HasBraces text then
    match _hg : firstGroup? (splitOutside '.' text) with
    | none => []
    | some g => (bodyAlternatives g.body).attach.flatMap fun a => expand (g.plug a.1)
  else [text]
termination_by text.length
decreasing_by
  have h₁ := length_plug_le g a.1
  have h₂ := length_le_of_mem_bodyAlternatives a.2
  rw [← (firstGroup?_eq_some _hg).1, splitOutside, intercalate_splitFrom] at h₁
  omega

theorem expand_of_not_hasBraces {text : List Char} (h : ¬HasBraces text) :
    expand text = [text] := by
  rw [expand, if_neg h]

theorem expand_of_firstGroup?_eq_none {text : List Char} (h : HasBraces text)
    (hg : firstGroup? (splitOutside '.' text) = none) : expand text = [] := by
  rw [expand, if_pos h]
  split <;> simp_all

theorem expand_of_firstGroup? {text : List Char} {g : GroupSplit} (h : HasBraces text)
    (hg : firstGroup? (splitOutside '.' text) = some g) :
    expand text = (bodyAlternatives g.body).flatMap fun a => expand (g.plug a) := by
  rw [expand, if_pos h]
  split
  · simp_all
  · rename_i g' hg'
    obtain rfl : g' = g := by simpa [hg'] using hg
    conv => rhs; rw [← List.attach_map_subtype_val (bodyAlternatives g'.body), List.flatMap_map]

end Stencil.Selector
