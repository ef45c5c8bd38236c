import Mathlib.Data.List.TakeWhile
import Stencil.Proofs.Selector.Denotation
import Stencil.Proofs.Selector.Echoes

/-!
# One step of the expansion

A step puts an alternative in the place of the first group. The text so obtained is the parts around
the group and those of the alternative between them, joined with dots (`GroupSplit.paste`), except
that a single empty part behind the group is lost. Of a balanced text, what a step makes is balanced
again.

* `GroupSplit.plug_eq_paste`, `splitOutside_paste`: the parts of what a step makes.
* `balanced_plug`: a step keeps the braces balanced.
* `expand_induction`: induction along the steps of the expansion.
-/

namespace Stencil.Selector

open Text

/-! ## Balanced texts -/

theorem Balanced.hasBraces {s : List Char} (h : Balanced s) (hs : '{' ∈ s) : HasBraces s := by
  have hcount := add_count_of_depthThrough? h
  have hpos := List.count_pos_iff.2 hs
  exact ⟨hs, List.count_pos_iff.1 (by omega)⟩

theorem exists_blanks_trim (s : List Char) : ∃ before behind, s = before ++ trim s ++ behind ∧
    (∀ c ∈ before, isBlank c = true) ∧ ∀ c ∈ behind, isBlank c = true := by
  refine ⟨s.takeWhile isBlank, ((s.dropWhile isBlank).reverse.takeWhile isBlank).reverse, ?_,
    fun c => List.mem_takeWhile_imp, fun c hc => List.mem_takeWhile_imp (List.mem_reverse.1 hc)⟩
  rw [trim, List.append_assoc, ← List.reverse_append, List.takeWhile_append_dropWhile,
    List.reverse_reverse, List.takeWhile_append_dropWhile]

theorem Balanced.trim {s : List Char} (h : Balanced s) : Balanced (trim s) := by
  obtain ⟨before, behind, hs, hbefore, hbehind⟩ := exists_blanks_trim s
  have hdepth : ∀ {blanks : List Char}, (∀ c ∈ blanks, isBlank c = true) → ∀ depth,
      depthThrough? depth blanks = some depth := fun hblanks depth =>
    have hnot := not_mem_braces_of_isBlank hblanks
    depthThrough?_of_notMem hnot.1 hnot.2.1 depth
  rw [Balanced, hs, depthThrough?_append, depthThrough?_append, hdepth hbefore, Option.bind_some]
    at h
  simpa [Balanced, hdepth hbehind] using h

theorem Balanced.of_mem_bodyAlternatives {body alternative : List Char} (h : Balanced body)
    (ha : alternative ∈ bodyAlternatives body) : Balanced alternative := by
  obtain ⟨part, hpart, rfl⟩ := List.mem_map.1 ha
  exact (h.unbroken_of_mem_splitOutside (by decide) (by decide) hpart).balanced.trim

/-! ## The first group -/

theorem firstGroup?_eq_none_iff {l : List (List Char)} :
    firstGroup? l = none ↔ ∀ part ∈ l, groupBody? part = none := by
  induction l with
  | nil => simp [firstGroup?]
  | cons part l ih =>
    rw [firstGroup?, List.forall_mem_cons, ← ih]
    split <;> simp_all

theorem firstGroup?_append_of_eq_none {l : List (List Char)} (h : firstGroup? l = none)
    (m : List (List Char)) :
    firstGroup? (l ++ m) = (firstGroup? m).map fun g => { g with before := l ++ g.before } := by
  induction l with
  | nil => simp
  | cons part l ih =>
    rw [firstGroup?_eq_none_iff, List.forall_mem_cons, ← firstGroup?_eq_none_iff] at h
    rw [List.cons_append, firstGroup?, h.1, ih h.2, Option.map_map]
    rfl

/-- No part before the first group is a group. -/
theorem firstGroup?_before {l : List (List Char)} {g : GroupSplit} (h : firstGroup? l = some g) :
    firstGroup? g.before = none := by
  induction l generalizing g with
  | nil => simp [firstGroup?] at h
  | cons part l ih =>
    rw [firstGroup?] at h
    split at h
    · cases h
      rfl
    · rename_i hpart
      obtain ⟨g', hg', rfl⟩ := Option.map_eq_some_iff.1 h
      rw [firstGroup?_eq_none_iff, List.forall_mem_cons, ← firstGroup?_eq_none_iff]
      exact ⟨hpart, ih hg'⟩

theorem firstGroup?_append_of_eq_some {l : List (List Char)} {g : GroupSplit}
    (h : firstGroup? l = some g) (m : List (List Char)) :
    firstGroup? (l ++ m) = some { g with after := g.after ++ m } := by
  obtain ⟨hl, hbody⟩ := firstGroup?_eq_some h
  have hgroup : groupBody? ('{' :: g.body ++ ['}']) = some g.body :=
    groupBody?_eq_some_iff.2 ⟨rfl, hbody⟩
  rw [hl, List.append_assoc, firstGroup?_append_of_eq_none (firstGroup?_before h),
    List.cons_append, firstGroup?, hgroup]
  simp

theorem Balanced.braced_notMem {body : List Char} (h : Balanced body) {l : List (List Char)}
    (hl : firstGroup? l = none) : braced body ∉ l := by
  intro hmem
  have hnone := firstGroup?_eq_none_iff.1 hl _ hmem
  rw [braced, groupBody?_eq_some_iff.2 ⟨rfl, h⟩] at hnone
  cases hnone

theorem HasBraces.of_mem_splitOutside {text part : List Char} (h : HasBraces part)
    (hpart : part ∈ splitOutside '.' text) : HasBraces text := by
  rw [← intercalate_splitOutside '.' text]
  exact h.intercalate hpart

theorem hasBraces_of_firstGroup? {text : List Char} {g : GroupSplit}
    (hg : firstGroup? (splitOutside '.' text) = some g) : HasBraces text := by
  refine .of_mem_splitOutside (mem_braced g.body) ?_
  rw [(firstGroup?_eq_some hg).1]
  simp [braced]

theorem Balanced.dot {s t : List Char} (hs : Balanced s) (ht : Balanced t) :
    Balanced (s ++ '.' :: t) :=
  hs.append ((Balanced.of_notMem (s := ['.']) (by decide) (by decide)).append ht)

theorem Balanced.splitOutside_dot {s : List Char} (h : Balanced s) (t : List Char) :
    splitOutside '.' (s ++ '.' :: t) = splitOutside '.' s ++ splitOutside '.' t :=
  h.splitOutside_append (by decide) (by decide) t

theorem Balanced.unbroken_of_mem {s part : List Char} (h : Balanced s)
    (hpart : part ∈ splitOutside '.' s) : Unbroken '.' part :=
  h.unbroken_of_mem_splitOutside (by decide) (by decide) hpart

/-! ## An alternative in the place of its group -/

/-- Parts, and one text in the place of the first group among them. -/
def GroupSplit.paste (g : GroupSplit) (alternative : List Char) : List Char :=
  ['.'].intercalate (g.before ++ alternative :: g.after)

/-- Unless a single empty part stands behind the group, no part is lost. -/
theorem GroupSplit.plug_eq_paste {g : GroupSplit} (h : g.after ≠ [[]]) (alternative : List Char) :
    g.plug alternative = g.paste alternative :=
  plug_eq_intercalate g alternative h

/-- With more parts behind it, the group gives way with none of them lost. -/
theorem GroupSplit.plug_append_after {g : GroupSplit} {y : List Char} (h : g.after = [] → y ≠ [])
    (alternative : List Char) :
    GroupSplit.plug { g with after := g.after ++ splitOutside '.' y } alternative =
      g.paste alternative ++ '.' :: y := by
  rw [plug_eq_paste, paste, paste, ← List.cons_append, ← List.append_assoc,
    intercalate_append (by simp) (splitOutside_ne_nil '.' y), intercalate_splitOutside]
  intro hafter
  rcases List.append_eq_singleton_iff.1 hafter with ⟨hnil, hy⟩ | ⟨-, hy⟩
  · refine h hnil ?_
    rw [← intercalate_splitOutside '.' y, hy]
    rfl
  · exact splitOutside_ne_nil '.' y hy

theorem GroupSplit.plug_append_before (x : List Char) (g : GroupSplit) (alternative : List Char) :
    GroupSplit.plug { g with before := splitOutside '.' x ++ g.before } alternative =
      x ++ '.' :: g.plug alternative := by
  have hx : (splitOutside '.' x).flatMap (· ++ ['.']) = x ++ ['.'] := by
    have hdots := flatMap_append_dot (splitOutside '.' x) (List.cons_ne_nil [] [])
    rw [intercalate_append (splitOutside_ne_nil '.' x) (List.cons_ne_nil [] []),
      intercalate_splitOutside] at hdots
    simpa using hdots
  simp [plug, hx]

section paste

variable {text alternative : List Char} {g : GroupSplit} (h : Balanced text)
  (hg : firstGroup? (splitOutside '.' text) = some g)

include h hg

theorem unbroken_of_mem_around {part : List Char} (hpart : part ∈ g.before ∨ part ∈ g.after) :
    Unbroken '.' part := by
  refine h.unbroken_of_mem ?_
  rcases hpart with hpart | hpart <;> simp [(firstGroup?_eq_some hg).1, hpart]

/-- An alternative in the place of its group is cut where it is cut alone. -/
theorem splitOutside_paste (ha : Balanced alternative) : splitOutside '.' (g.paste alternative) =
    g.before ++ (splitOutside '.' alternative ++ g.after) := by
  have hne := splitOutside_ne_nil '.' alternative
  have hpaste : g.paste alternative =
      ['.'].intercalate (g.before ++ (splitOutside '.' alternative ++ g.after)) := by
    rw [← intercalate_middle g.before hne, intercalate_splitOutside, GroupSplit.paste]
  rw [hpaste]
  refine splitOutside_intercalate (by simp [hne]) fun part hpart => ?_
  rw [List.mem_append, List.mem_append] at hpart
  rcases hpart with hpart | hpart | hpart
  · exact unbroken_of_mem_around h hg (Or.inl hpart)
  · exact ha.unbroken_of_mem hpart
  · exact unbroken_of_mem_around h hg (Or.inr hpart)

theorem balanced_paste (ha : Balanced alternative) : Balanced (g.paste alternative) := by
  refine .intercalate (by decide) (by decide) fun part hpart => ?_
  rw [List.mem_append, List.mem_cons] at hpart
  rcases hpart with hpart | rfl | hpart
  · exact (unbroken_of_mem_around h hg (Or.inl hpart)).balanced
  · exact ha
  · exact (unbroken_of_mem_around h hg (Or.inr hpart)).balanced

theorem balanced_plug (ha : Balanced alternative) : Balanced (g.plug alternative) := by
  by_cases hafter : g.after = [[]]
  · -- The dot behind the group is lost, as if nothing stood there.
    have hplug : g.plug alternative = ['.'].intercalate (g.before ++ [alternative]) := by
      rw [← flatMap_append_dot g.before (List.cons_ne_nil _ _)]
      simp [GroupSplit.plug, hafter, List.intercalate]
    rw [hplug]
    refine .intercalate (by decide) (by decide) fun part hpart => ?_
    rcases List.mem_append.1 hpart with hpart | hpart
    · exact (unbroken_of_mem_around h hg (Or.inl hpart)).balanced
    · exact List.mem_singleton.1 hpart ▸ ha
  · rw [GroupSplit.plug_eq_paste hafter]
    exact balanced_paste h hg ha

end paste

/-! ## The expansion -/

theorem expand_of_group {text : List Char} {g : GroupSplit}
    (hg : firstGroup? (splitOutside '.' text) = some g) :
    expand text = (bodyAlternatives g.body).flatMap fun a => expand (g.plug a) :=
  expand_of_firstGroup? (hasBraces_of_firstGroup? hg) hg

theorem expand_of_groupless {text : List Char} (hg : firstGroup? (splitOutside '.' text) = none) :
    expand text = if HasBraces text then [] else [text] := by
  split
  · exact expand_of_firstGroup?_eq_none ‹_› hg
  · exact expand_of_not_hasBraces ‹_›

/-- Induction along the expansion: expressions without a group, and those with a first group, for
each of whose alternatives in its place the property holds. -/
@[elab_as_elim]
theorem expand_induction {p : List Char → Prop}
    (groupless : ∀ text, firstGroup? (splitOutside '.' text) = none → p text)
    (group : ∀ text g, firstGroup? (splitOutside '.' text) = some g →
      (∀ a ∈ bodyAlternatives g.body, p (g.plug a)) → p text) (text : List Char) : p text := by
  induction text using expand.induct with
  | case1 text _ hg => exact groupless text hg
  | case2 text _ g hg ih => exact group text g hg fun a ha => ih ⟨a, ha⟩
  | case3 text hb =>
    refine groupless text (Option.eq_none_iff_forall_ne_some.2 fun g hg => hb ?_)
    exact hasBraces_of_firstGroup? hg

end Stencil.Selector
