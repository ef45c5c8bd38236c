import Mathlib.Data.List.Basic
import Stencil.Proofs.Selector.Grammar

/-!
# Expansion computes what a tree stands for

`expand` works on text alone: it looks for the first whole group, puts each alternative in its place
and cuts the text so obtained anew. On the text of a well-formed tree it finds the texts that the
tree stands for.

* `dottedProduct_flatMap`: behind factors of at most one text, a choice may be made first.
* `firstGroup?_render`: the first group of a written path is the first group of the tree.
* `expand_renderPath`: the expansion of a written path is its denotation.
-/

namespace Stencil.Selector

/-! ## Dot-joined products -/

theorem dotted_nil_left (seconds : List (List Char)) : dotted [] seconds = [] := rfl

theorem dotted_nil_right (firsts : List (List Char)) : dotted firsts [] = [] := by
  simp [dotted]

theorem dotted_singleton (p : List Char) (seconds : List (List Char)) :
    dotted [p] seconds = seconds.map fun q => p ++ '.' :: q := by
  simp [dotted]

theorem dotted_flatMap {α : Type} (l : List α) (f : α → List (List Char))
    (seconds : List (List Char)) :
    dotted (l.flatMap f) seconds = l.flatMap fun a => dotted (f a) seconds := by
  simp only [dotted, List.flatMap_assoc]

theorem dotted_assoc (x y z : List (List Char)) :
    dotted (dotted x y) z = dotted x (dotted y z) := by
  simp only [dotted, List.flatMap_assoc, List.flatMap_map, List.map_flatMap, List.map_map]
  simp [Function.comp_def]

/-- Behind a factor of at most one text, a choice may be made first. -/
theorem dotted_flatMap_of_length_le {firsts : List (List Char)} (h : firsts.length ≤ 1) {α : Type}
    (l : List α) (f : α → List (List Char)) :
    dotted firsts (l.flatMap f) = l.flatMap fun a => dotted firsts (f a) := by
  match firsts, h with
  | [], _ => simp [dotted_nil_left]
  | [p], _ => simp only [dotted_singleton, List.map_flatMap]

theorem dottedProduct_cons (texts : List (List Char)) {rest : List (List (List Char))}
    (h : rest ≠ []) : dottedProduct (texts :: rest) = dotted texts (dottedProduct rest) := by
  obtain ⟨next, rest, rfl⟩ := List.exists_cons_of_ne_nil h
  rfl

theorem dottedProduct_append {xs ys : List (List (List Char))} (hx : xs ≠ []) (hy : ys ≠ []) :
    dottedProduct (xs ++ ys) = dotted (dottedProduct xs) (dottedProduct ys) := by
  induction xs with
  | nil => exact absurd rfl hx
  | cons x xs ih =>
    by_cases hxs : xs = []
    · subst hxs
      exact dottedProduct_cons x hy
    · rw [List.cons_append, dottedProduct_cons x (by simp [hxs]), ih hxs, dottedProduct_cons x hxs,
        dotted_assoc]

/-- A product that is one factor of another may be taken apart. -/
theorem dottedProduct_middle (before : List (List (List Char))) {middle : List (List (List Char))}
    (h : middle ≠ []) (after : List (List (List Char))) :
    dottedProduct (before ++ dottedProduct middle :: after) =
      dottedProduct (before ++ (middle ++ after)) := by
  induction before with
  | nil =>
    by_cases hafter : after = []
    · subst hafter
      simp [dottedProduct]
    · rw [List.nil_append, List.nil_append, dottedProduct_cons _ hafter,
        dottedProduct_append h hafter]
  | cons texts before ih =>
    rw [List.cons_append, List.cons_append, dottedProduct_cons _ (by simp),
      dottedProduct_cons _ (by simp [h]), ih]

/-- Behind factors of at most one text, a choice may be made first. -/
theorem dottedProduct_flatMap {before : List (List (List Char))}
    (h : ∀ texts ∈ before, texts.length ≤ 1) {α : Type} (l : List α) (f : α → List (List Char))
    (after : List (List (List Char))) :
    dottedProduct (before ++ l.flatMap f :: after) =
      l.flatMap fun a => dottedProduct (before ++ f a :: after) := by
  induction before with
  | nil =>
    by_cases hafter : after = []
    · subst hafter
      rfl
    · simp only [List.nil_append, dottedProduct_cons _ hafter, dotted_flatMap]
  | cons texts before ih =>
    simp only [List.cons_append, dottedProduct_cons texts
      (List.append_ne_nil_of_right_ne_nil before (List.cons_ne_nil _ after))]
    rw [ih fun t ht => h t (by simp [ht]), dotted_flatMap_of_length_le (h texts (by simp))]

theorem dottedProduct_map_singleton {texts : List (List Char)} (h : texts ≠ []) :
    dottedProduct (texts.map fun text => [text]) = [['.'].intercalate texts] := by
  induction texts with
  | nil => exact absurd rfl h
  | cons text rest ih =>
    by_cases hr : rest = []
    · subst hr
      simp [dottedProduct]
    · rw [List.map_cons, dottedProduct_cons _ (by simpa using hr), ih hr, dotted_singleton,
        intercalate_cons text hr, List.map_singleton]

theorem dottedProduct_eq_nil_of_mem {factors : List (List (List Char))} (h : [] ∈ factors) :
    dottedProduct factors = [] := by
  induction factors with
  | nil => rfl
  | cons texts rest ih =>
    by_cases hr : rest = []
    · subst hr
      simpa [dottedProduct, eq_comm] using h
    · rw [dottedProduct_cons texts hr]
      rcases List.mem_cons.1 h with rfl | h
      · exact dotted_nil_left _
      · rw [ih h, dotted_nil_right]

/-! ## The first group of a path -/

/-- A part that is no group stands for one text or for none. -/
theorem Part.length_denote_le {part : Part} (h : ∀ alternatives, part ≠ .group alternatives) :
    part.denote.length ≤ 1 := by
  cases part with
  | literal text => exact Nat.le_refl 1
  | glued text => exact Nat.zero_le 1
  | group alternatives => exact absurd rfl (h alternatives)

theorem groupBody?_render_group {alternatives : List (Spaced (List Part))}
    (h : AlternativesWellFormed alternatives) :
    groupBody? (Part.group alternatives).render = some (renderBody alternatives) :=
  groupBody?_eq_some_iff.2 ⟨rfl, balanced_renderBody h⟩

theorem groupBody?_render_of_ne {inner : Bool} {part : Part} (h : part.WellFormed inner)
    (hg : ∀ alternatives, part ≠ .group alternatives) : groupBody? part.render = none := by
  refine Option.eq_none_iff_forall_ne_some.2 fun body hbody => ?_
  obtain ⟨htext, hb⟩ := groupBody?_eq_some_iff.1 hbody
  cases part with
  | literal text =>
    obtain ⟨-, -, hopen, -⟩ := h
    rw [Part.render] at htext
    exact hopen (by simp [htext])
  | glued text => exact h.2.2.2.2 body hb htext
  | group alternatives => exact hg alternatives rfl

/-- The first group of a written path is the first group of the tree. -/
theorem firstGroup?_render {inner : Bool} {path : List Part} (h : PartsWellFormed inner path)
    {g : GroupSplit} (hg : firstGroup? (path.map Part.render) = some g) :
    ∃ before alternatives after, path = before ++ .group alternatives :: after ∧
      g = ⟨before.map Part.render, renderBody alternatives, after.map Part.render⟩ ∧
      ∀ part ∈ before, ∀ alternatives, part ≠ .group alternatives := by
  induction path generalizing g with
  | nil => simp [firstGroup?] at hg
  | cons part rest ih =>
    obtain ⟨hpart, hrest⟩ := h
    rw [List.map_cons, firstGroup?] at hg
    by_cases hp : ∃ alternatives, part = .group alternatives
    · obtain ⟨alternatives, rfl⟩ := hp
      rw [groupBody?_render_group hpart.2] at hg
      cases hg
      exact ⟨[], alternatives, rest, rfl, rfl, by simp⟩
    · have hp' : ∀ alternatives, part ≠ .group alternatives := fun a ha => hp ⟨a, ha⟩
      rw [groupBody?_render_of_ne hpart hp'] at hg
      obtain ⟨g', hg', rfl⟩ := Option.map_eq_some_iff.1 hg
      obtain ⟨before, alternatives, after, rfl, rfl, hbefore⟩ := ih hrest hg'
      exact ⟨part :: before, alternatives, after, rfl, rfl, List.forall_mem_cons.2 ⟨hp', hbefore⟩⟩

theorem ne_group_of_firstGroup?_eq_none {inner : Bool} {path : List Part}
    (h : PartsWellFormed inner path) (hg : firstGroup? (path.map Part.render) = none) :
    ∀ part ∈ path, ∀ alternatives, part ≠ .group alternatives := by
  induction path with
  | nil => simp
  | cons part rest ih =>
    obtain ⟨hpart, hrest⟩ := h
    rw [List.map_cons, firstGroup?] at hg
    split at hg
    · cases hg
    · rename_i hnone
      refine List.forall_mem_cons.2 ⟨?_, ih hrest (Option.map_eq_none_iff.1 hg)⟩
      rintro alternatives rfl
      rw [groupBody?_render_group hpart.2] at hnone
      cases hnone

/-! ## One step of the expansion -/

theorem flatMap_append_dot (before : List (List Char)) {parts : List (List Char)}
    (h : parts ≠ []) : before.flatMap (· ++ ['.']) ++ ['.'].intercalate parts =
      ['.'].intercalate (before ++ parts) := by
  induction before with
  | nil => rfl
  | cons part before ih =>
    rw [List.cons_append, intercalate_cons part (by simp [h]), ← ih]
    simp

/-- Putting a text in the place of the group, unless a single empty part stands behind it. -/
theorem plug_eq_intercalate (g : GroupSplit) (text : List Char) (h : g.after ≠ [[]]) :
    g.plug text = ['.'].intercalate (g.before ++ text :: g.after) := by
  obtain ⟨before, body, after⟩ := g
  rw [GroupSplit.plug, ← flatMap_append_dot before (List.cons_ne_nil _ _), List.append_assoc]
  by_cases hafter : after = []
  · subst hafter
    simp [List.intercalate]
  · rw [if_neg (by simp [intercalate_eq_nil_iff, h, hafter]), intercalate_cons _ hafter]

/-- A path without braces stands for its own text. -/
theorem denotePath_of_not_hasBraces {path : List Part} (h : PathWellFormed path)
    (hb : ¬HasBraces (renderPath path)) : denotePath path = [renderPath path] := by
  have hdenote : ∀ part ∈ path, part.denote = [part.render] := by
    intro part hp
    have hpart : ¬HasBraces part.render := fun hpb => hb <| by
      rw [renderPath, renderParts_eq_map]
      exact hpb.intercalate (List.mem_map_of_mem hp)
    cases part with
    | literal text => rfl
    | glued text => exact absurd (partsWellFormed_iff.1 h.parts _ hp).1 hpart
    | group alternatives => exact absurd (by simp [HasBraces, Part.render]) hpart
  have hmap : path.map Part.denote = (path.map Part.render).map fun text => [text] := by
    rw [List.map_map]
    exact List.map_congr_left hdenote
  rw [denotePath, denoteParts_eq_map, hmap, dottedProduct_map_singleton (by simpa using h.ne_nil),
    renderPath, renderParts_eq_map]

/-- A path with braces and without a group stands for nothing. -/
theorem denotePath_of_forall_ne_group {path : List Part} (h : PathWellFormed path)
    (hb : HasBraces (renderPath path))
    (hg : ∀ part ∈ path, ∀ alternatives, part ≠ .group alternatives) : denotePath path = [] := by
  obtain ⟨text, ht, hopen⟩ := (mem_intercalate (by decide)).1 hb.1
  rw [renderParts_eq_map] at ht
  obtain ⟨part, hp, rfl⟩ := List.mem_map.1 ht
  rw [denotePath, denoteParts_eq_map]
  refine dottedProduct_eq_nil_of_mem ?_
  have hpart := partsWellFormed_iff.1 h.parts part hp
  cases part with
  | literal text =>
    obtain ⟨-, -, hnot, -⟩ := hpart
    exact absurd hopen hnot
  | glued text => exact List.mem_map.2 ⟨_, hp, rfl⟩
  | group alternatives => exact absurd rfl (hg _ hp alternatives)

/-- A path stands for what it stands for with each alternative of its first group in the place of
the group. -/
theorem denotePath_group {before after : List Part} {alternatives : List (Spaced (List Part))}
    (hbefore : ∀ part ∈ before, ∀ alternatives, part ≠ .group alternatives)
    (h : AlternativesWellFormed alternatives) :
    denotePath (before ++ .group alternatives :: after) =
      alternatives.flatMap fun a => denotePath (before ++ (a.content ++ after)) := by
  have hlength : ∀ texts ∈ before.map Part.denote, texts.length ≤ 1 := by
    intro texts ht
    obtain ⟨part, hp, rfl⟩ := List.mem_map.1 ht
    exact Part.length_denote_le (hbefore part hp)
  rw [denotePath, denoteParts_eq_map, List.map_append, List.map_cons, Part.denote,
    denoteAlternatives_eq_flatMap, dottedProduct_flatMap hlength]
  refine List.flatMap_congr fun a ha => ?_
  have hne := (alternativesWellFormed_iff.1 h a ha).ne_nil
  rw [denotePath, denotePath, denoteParts_eq_map, denoteParts_eq_map,
    dottedProduct_middle _ (by simpa using hne), List.map_append, List.map_append]

/-- The first group of a well-formed path gives way to any of its alternatives. -/
theorem PathWellFormed.replace {before after : List Part}
    {alternatives : List (Spaced (List Part))}
    (h : PathWellFormed (before ++ .group alternatives :: after)) {a : Spaced (List Part)}
    (ha : a ∈ alternatives) : PathWellFormed (before ++ (a.content ++ after)) := by
  have hparts := partsWellFormed_iff.1 h.parts
  have hgroup : AlternativesWellFormed alternatives :=
    (hparts (.group alternatives) (by simp)).2
  have hcontent := alternativesWellFormed_iff.1 hgroup a ha
  refine ⟨by simp [hcontent.ne_nil], partsWellFormed_iff.2 fun part hp => ?_⟩
  rcases List.mem_append.1 hp with hp | hp
  · exact hparts part (by simp [hp])
  · rcases List.mem_append.1 hp with hp | hp
    · exact (partsWellFormed_iff.1 hcontent.parts part hp).of_inner
    · exact hparts part (by simp [hp])

/-- The text that an alternative of the first group gives is that of the tree with the alternative
in the place of the group. -/
theorem plug_renderPath {before after : List Part} {alternatives : List (Spaced (List Part))}
    (h : PathWellFormed (before ++ .group alternatives :: after)) {a : Spaced (List Part)}
    (ha : a ∈ alternatives) :
    GroupSplit.plug ⟨before.map Part.render, renderBody alternatives, after.map Part.render⟩
        (renderPath a.content) =
      renderPath (before ++ (a.content ++ after)) := by
  have hparts := partsWellFormed_iff.1 h.parts
  have hgroup : AlternativesWellFormed alternatives :=
    (hparts (.group alternatives) (by simp)).2
  rw [plug_eq_intercalate]
  · have hne := (alternativesWellFormed_iff.1 hgroup a ha).ne_nil
    simp only [renderPath, renderParts_eq_map, List.map_append]
    exact intercalate_middle _ (by simpa using hne) _
  · intro hafter
    obtain ⟨part, hp, hempty⟩ := List.mem_map.1 (hafter ▸ List.mem_singleton_self [])
    exact Part.render_ne_nil (hparts part (by simp [hp])) hempty

/-- **Expansion computes what a tree stands for.** -/
theorem expand_renderPath {path : List Part} (h : PathWellFormed path) :
    expand (renderPath path) = denotePath path := by
  generalize htext : renderPath path = text
  induction text using expand.induct generalizing path with
  | case1 text hb hg =>
    subst htext
    rw [expand_of_firstGroup?_eq_none hb hg]
    rw [splitOutside_renderPath h.ne_nil h.parts] at hg
    exact (denotePath_of_forall_ne_group h hb (ne_group_of_firstGroup?_eq_none h.parts hg)).symm
  | case2 text hb g hg ih =>
    subst htext
    rw [expand_of_firstGroup? hb hg]
    rw [splitOutside_renderPath h.ne_nil h.parts] at hg
    obtain ⟨before, alternatives, after, rfl, rfl, hbefore⟩ := firstGroup?_render h.parts hg
    obtain ⟨hne, hgroup⟩ : Part.WellFormed false (.group alternatives) :=
      partsWellFormed_iff.1 h.parts _ (by simp)
    have hbody := bodyAlternatives_renderBody hne hgroup
    rw [denotePath_group hbefore hgroup, hbody, List.flatMap_map]
    refine List.flatMap_congr fun a ha => ?_
    have hmem : renderPath a.content ∈ bodyAlternatives (renderBody alternatives) :=
      hbody ▸ List.mem_map_of_mem ha
    have hplug := plug_renderPath h ha
    rw [hplug]
    exact hplug ▸ ih ⟨_, hmem⟩ (h.replace ha) hplug.symm
  | case3 text hb =>
    subst htext
    rw [expand_of_not_hasBraces hb, denotePath_of_not_hasBraces h hb]

/-- The tree of `k.{ a{b}c ,d.{e, f}}`. -/
def nestedPath : List Part :=
  [.literal ['k'],
    .group [⟨[' '], [.glued ['a', '{', 'b', '}', 'c']], [' ']⟩,
      ⟨[], [.literal ['d'], .group [⟨[], [.literal ['e']], []⟩, ⟨[' '], [.literal ['f']], []⟩]],
        []⟩]]

theorem expand_renderPath_nested :
    PathWellFormed nestedPath ∧ expand (renderPath nestedPath) =
      [['k', '.', 'd', '.', 'e'], ['k', '.', 'd', '.', 'f']] := by
  have hblank : ∀ c ∈ [' '], Text.isBlank c = true := by
    intro c hc
    obtain rfl := List.mem_singleton.1 hc
    rfl
  have h : PathWellFormed nestedPath := by
    refine ⟨List.cons_ne_nil _ _, ?_⟩
    simp only [nestedPath, PartsWellFormed, Part.WellFormed, AlternativesWellFormed]
    refine ⟨by decide, ⟨by simp, ⟨hblank, hblank, by simp, ?_, ?_⟩, ?_⟩, trivial⟩
    · refine ⟨⟨by decide, by decide, by decide, by decide, by simp⟩, trivial⟩
    · exact trimmed_of_ends rfl rfl ⟨rfl, rfl⟩
    · refine ⟨⟨by simp, by simp, by simp, ⟨by decide, ⟨by simp, ?_, ?_, trivial⟩, trivial⟩,
        trimmed_of_ends rfl rfl ⟨rfl, rfl⟩⟩, trivial⟩
      · exact ⟨by simp, by simp, by simp, ⟨by decide, trivial⟩, trimmed_of_ends rfl rfl ⟨rfl, rfl⟩⟩
      · exact ⟨hblank, by simp, by simp, ⟨by decide, trivial⟩, trimmed_of_ends rfl rfl ⟨rfl, rfl⟩⟩
  exact ⟨h, expand_renderPath h⟩

end Stencil.Selector
