import Stencil.Proofs.Selector.Rewriting

/-!
# The expansion of two expressions with a dot between them

An expression stands for the texts that its parts stand for, joined with dots. The expansion finds
them all, with one exception: an empty part right behind a group is lost at the end of a text,
because the text behind a group gets its dot only if it is not empty. So a dot outside the braces
takes the expansion apart wherever no empty part is lost.

* `texts`: what an expression stands for, part by part.
* `LosesEnd`: an empty part stands right behind a group at the end of the expression, or of an
  alternative of a group at the end.
* `texts_eq_expand`: the expansion finds what the expression stands for, if it does not lose its end.
* `expand_dot`: the expansion of two expressions with a dot between them.
-/

namespace Stencil.Selector

/-! ## What an expression stands for -/

/-- The texts that an expression stands for: each part for itself, a group for the texts of its
alternatives, braces in a part that is no group for nothing, and the parts joined with dots. -/
def texts (text : List Char) : List (List Char) :=
  dottedProduct ((splitOutside '.' text).attach.map fun part =>
    match _hbody : groupBody? part.1 with
    | some body => (bodyAlternatives body).attach.flatMap fun a => texts a.1
    | none => if HasBraces part.1 then [] else [part.1])
termination_by text.length
decreasing_by
  have halternative := length_le_of_mem_bodyAlternatives a.2
  have hpart : part.1.length ≤ (['.'].intercalate (splitOutside '.' text)).length :=
    length_le_intercalate_of_mem part.2
  rw [intercalate_splitOutside, (groupBody?_eq_some_iff.1 _hbody).1] at hpart
  simp only [List.length_cons, List.length_append, List.length_nil] at hpart
  omega

/-- The texts that one part stands for. -/
def partTexts (part : List Char) : List (List Char) :=
  match groupBody? part with
  | some body => (bodyAlternatives body).flatMap texts
  | none => if HasBraces part then [] else [part]

theorem texts_eq (text : List Char) :
    texts text = dottedProduct ((splitOutside '.' text).map partTexts) := by
  rw [texts]
  congr 1
  conv => rhs; rw [← List.attach_map_subtype_val (splitOutside '.' text), List.map_map]
  refine List.map_congr_left fun part _ => ?_
  simp only [Function.comp_apply, partTexts]
  split
  · rename_i body hbody
    rw [hbody]
    dsimp only
    conv => rhs; rw [← List.attach_map_subtype_val (bodyAlternatives body), List.flatMap_map]
  · rename_i hbody
    rw [hbody]

theorem length_partTexts_le {part : List Char} (h : groupBody? part = none) :
    (partTexts part).length ≤ 1 := by
  rw [partTexts, h]
  dsimp only
  split <;> simp

/-- An expression stands for what it stands for with each alternative of its first group in the
place of the group. -/
theorem texts_of_group {text : List Char} {g : GroupSplit} (h : Balanced text)
    (hg : firstGroup? (splitOutside '.' text) = some g) :
    texts text = (bodyAlternatives g.body).flatMap fun a => texts (g.paste a) := by
  obtain ⟨hparts, hbody⟩ := firstGroup?_eq_some hg
  have hgroup : partTexts ('{' :: g.body ++ ['}']) = (bodyAlternatives g.body).flatMap texts := by
    rw [partTexts, groupBody?_eq_some_iff.2 ⟨rfl, hbody⟩]
  have hbefore : ∀ l ∈ g.before.map partTexts, l.length ≤ 1 := by
    intro l hl
    obtain ⟨part, hpart, rfl⟩ := List.mem_map.1 hl
    exact length_partTexts_le (firstGroup?_eq_none_iff.1 (firstGroup?_before hg) part hpart)
  rw [texts_eq, hparts, List.map_append, List.map_cons, hgroup, dottedProduct_flatMap hbefore]
  refine List.flatMap_congr fun a ha => ?_
  have hne : (splitOutside '.' a).map partTexts ≠ [] := by
    simpa using splitOutside_ne_nil '.' a
  rw [texts_eq, texts_eq, splitOutside_paste h hg (hbody.of_mem_bodyAlternatives ha),
    dottedProduct_middle _ hne, List.map_append, List.map_append]

/-- Without a group, an expression stands for itself, or for nothing if there are braces. -/
theorem texts_of_groupless {text : List Char} (h : Balanced text)
    (hg : firstGroup? (splitOutside '.' text) = none) :
    texts text = if HasBraces text then [] else [text] := by
  have hjoined := intercalate_splitOutside '.' text
  rw [firstGroup?_eq_none_iff] at hg
  rw [texts_eq]
  split
  · rename_i hbraces
    rw [← hjoined] at hbraces
    obtain ⟨part, hpart, hopen⟩ := (mem_intercalate (by decide)).1 hbraces.1
    refine dottedProduct_eq_nil_of_mem (List.mem_map.2 ⟨part, hpart, ?_⟩)
    rw [partTexts, hg part hpart]
    exact if_pos ((h.unbroken_of_mem hpart).balanced.hasBraces hopen)
  · rename_i hbraces
    have hmap : (splitOutside '.' text).map partTexts =
        (splitOutside '.' text).map fun part => [part] := by
      refine List.map_congr_left fun part hpart => ?_
      rw [partTexts, hg part hpart]
      exact if_neg fun hpb => hbraces (hpb.of_mem_splitOutside hpart)
    rw [hmap, dottedProduct_map_singleton (splitOutside_ne_nil '.' text), hjoined]

/-- What two expressions with a dot between them stand for. -/
theorem texts_dot {x : List Char} (hx : Balanced x) (y : List Char) :
    texts (x ++ '.' :: y) = dotted (texts x) (texts y) := by
  have hne : ∀ s, (splitOutside '.' s).map partTexts ≠ [] := fun s => by
    simpa using splitOutside_ne_nil '.' s
  rw [texts_eq, texts_eq, texts_eq, hx.splitOutside_dot, List.map_append,
    dottedProduct_append (hne x) (hne y)]

/-! ## The end of a joined list -/

section suffix

variable {α : Type} {x y : α} {l u v : List α}

/-- The end of a joined list lies in its second part, or goes over into the first. -/
theorem suffix_append_cases (h : l <:+ u ++ v) :
    l <:+ v ∨ ∃ front, front ≠ [] ∧ l = front ++ v ∧ front <:+ u := by
  obtain ⟨rest, hrest⟩ := h
  rcases List.append_eq_append_iff.1 hrest with ⟨front, hu, hl⟩ | ⟨behind, -, hv⟩
  · by_cases hfront : front = []
    · subst hfront
      exact Or.inl (hl ▸ List.suffix_refl v)
    · exact Or.inr ⟨front, hfront, hl, rest, hu.symm⟩
  · exact Or.inl ⟨behind, hv.symm⟩

theorem singleton_suffix_append (hv : v ≠ []) : [x] <:+ u ++ v ↔ [x] <:+ v := by
  refine ⟨fun h => ?_, List.suffix_append_of_suffix⟩
  rcases suffix_append_cases h with h | ⟨front, hfront, hx, -⟩
  · exact h
  · obtain ⟨z, front, rfl⟩ := List.exists_cons_of_ne_nil hfront
    simp [hv] at hx

theorem pair_suffix_append (hv : v ≠ []) (h : [x, y] <:+ u ++ v) :
    [x, y] <:+ v ∨ v = [y] ∧ [x] <:+ u := by
  rcases suffix_append_cases h with h | ⟨front, hfront, heq, hu⟩
  · exact Or.inl h
  · obtain ⟨z, front, rfl⟩ := List.exists_cons_of_ne_nil hfront
    obtain ⟨rfl, hy⟩ : x = z ∧ [y] = front ++ v := by simpa using heq
    rcases List.append_eq_singleton_iff.1 hy.symm with ⟨rfl, rfl⟩ | ⟨-, rfl⟩
    · exact Or.inr ⟨rfl, hu⟩
    · exact absurd rfl hv

end suffix

/-! ## Empty parts at the end -/

/-- The last part of the expression is a group. -/
def EndsInGroup (text : List Char) : Prop :=
  ∃ body, Balanced body ∧ [braced body] <:+ splitOutside '.' text

/-- Some way through the alternatives leads to an empty part at the end, right behind a group. -/
inductive LosesEnd : List Char → Prop where
  | behind {text body : List Char} (hbody : Balanced body)
      (hend : [braced body, []] <:+ splitOutside '.' text) : LosesEnd text
  | within {text body alternative : List Char} (hbody : Balanced body)
      (hend : [braced body] <:+ splitOutside '.' text)
      (ha : alternative ∈ bodyAlternatives body) (h : LosesEnd alternative) : LosesEnd text

theorem LosesEnd.hasBraces {text : List Char} (h : LosesEnd text) : HasBraces text := by
  cases h with
  | behind _ hend => exact .of_mem_splitOutside (mem_braced _) (hend.subset List.mem_cons_self)
  | within _ hend => exact .of_mem_splitOutside (mem_braced _) (hend.subset List.mem_cons_self)

theorem EndsInGroup.firstGroup?_ne_none {text : List Char} (h : EndsInGroup text) :
    firstGroup? (splitOutside '.' text) ≠ none := by
  obtain ⟨body, hbody, hend⟩ := h
  exact fun hnone => hbody.braced_notMem hnone (hend.subset (List.mem_singleton_self _))

section paste

variable {text alternative : List Char} {g : GroupSplit} (h : Balanced text)
  (hg : firstGroup? (splitOutside '.' text) = some g)

include hg

/-- With nothing behind its first group, a text ends in a group. -/
theorem endsInGroup_of_after_eq_nil (hafter : g.after = []) : EndsInGroup text := by
  obtain ⟨hparts, hbody⟩ := firstGroup?_eq_some hg
  exact ⟨g.body, hbody, by rw [hparts, hafter]; exact List.suffix_append _ _⟩

theorem losesEnd_of_after_eq (hafter : g.after = [[]]) : LosesEnd text := by
  obtain ⟨hparts, hbody⟩ := firstGroup?_eq_some hg
  exact .behind hbody (by rw [hparts, hafter]; exact List.suffix_append _ _)

theorem EndsInGroup.after_ne (hend : EndsInGroup text) : g.after ≠ [[]] := by
  intro hafter
  obtain ⟨body, -, hend⟩ := hend
  rw [(firstGroup?_eq_some hg).1, hafter, List.append_cons,
    singleton_suffix_append (List.cons_ne_nil [] [])] at hend
  simpa [braced] using hend.subset (List.mem_singleton_self _)

include h

/-- What stands behind the first group stays at the end. -/
theorem endsInGroup_paste (ha : Balanced alternative) (hafter : g.after ≠ []) :
    EndsInGroup (g.paste alternative) ↔ EndsInGroup text := by
  have hparts := (firstGroup?_eq_some hg).1
  refine exists_congr fun body => and_congr_right fun _ => ?_
  rw [splitOutside_paste h hg ha, ← List.append_assoc, singleton_suffix_append hafter, hparts,
    List.append_cons, singleton_suffix_append hafter]

/-- An end that is lost after a step of the expansion is lost in the expression. -/
theorem losesEnd_of_paste (ha : alternative ∈ bodyAlternatives g.body)
    (hloses : LosesEnd (g.paste alternative)) : LosesEnd text := by
  obtain ⟨hparts, hbody⟩ := firstGroup?_eq_some hg
  have hpaste := splitOutside_paste h hg (hbody.of_mem_bodyAlternatives ha)
  have hne := splitOutside_ne_nil '.' alternative
  by_cases hafter : g.after = []
  · -- The alternative is the end of what comes of the step, and the group that of the expression.
    have hgroup : [braced g.body] <:+ splitOutside '.' text := by
      rw [hparts, hafter]
      exact List.suffix_append _ _
    rw [hafter, List.append_nil] at hpaste
    refine .within hbody hgroup ha ?_
    cases hloses with
    | behind hbody' hend =>
      rw [hpaste] at hend
      rcases pair_suffix_append hne hend with hend | ⟨-, hbefore⟩
      · exact .behind hbody' hend
      · exact absurd (hbefore.subset (List.mem_singleton_self _))
          (hbody'.braced_notMem (firstGroup?_before hg))
    | within hbody' hend ha' hloses =>
      rw [hpaste, singleton_suffix_append hne] at hend
      exact .within hbody' hend ha' hloses
  · have hsuffix : g.after <:+ splitOutside '.' text := by
      rw [hparts, List.append_cons]
      exact List.suffix_append _ _
    rw [← List.append_assoc] at hpaste
    cases hloses with
    | behind hbody' hend =>
      rw [hpaste] at hend
      rcases pair_suffix_append hafter hend with hend | ⟨hend, -⟩
      · exact .behind hbody' (hend.trans hsuffix)
      · exact losesEnd_of_after_eq hg hend
    | within hbody' hend ha' hloses =>
      rw [hpaste, singleton_suffix_append hafter] at hend
      exact .within hbody' (hend.trans hsuffix) ha' hloses

end paste

/-! ## The expansion -/

/-- **The expansion finds what the expression stands for**, unless it loses its end. -/
theorem texts_eq_expand {text : List Char} (h : Balanced text) (hend : ¬LosesEnd text) :
    texts text = expand text := by
  induction text using expand_induction with
  | groupless text hg => rw [texts_of_groupless h hg, expand_of_groupless hg]
  | group text g hg ih =>
    rw [texts_of_group h hg, expand_of_group hg]
    refine List.flatMap_congr fun a ha => ?_
    have hbalanced := (firstGroup?_eq_some hg).2.of_mem_bodyAlternatives ha
    have hplug := GroupSplit.plug_eq_paste (fun hafter => hend (losesEnd_of_after_eq hg hafter)) a
    have hstep := ih a ha
    rw [hplug] at hstep ⊢
    exact hstep (balanced_paste h hg hbalanced) fun hl => hend (losesEnd_of_paste h hg ha hl)

/-- A dot right behind a group is lost at the end. -/
theorem expand_dot_nil {x : List Char} (hx : Balanced x) (hend : EndsInGroup x) :
    expand (x ++ ['.']) = expand x := by
  induction x using expand_induction with
  | groupless x hg => exact absurd hg hend.firstGroup?_ne_none
  | group x g hg ih =>
    have hg' := firstGroup?_append_of_eq_some hg (splitOutside '.' [])
    rw [← hx.splitOutside_dot] at hg'
    rw [expand_of_group hg, expand_of_group hg']
    refine List.flatMap_congr fun a ha => ?_
    by_cases hafter : g.after = []
    · simp [GroupSplit.plug, hafter, splitOutside]
    have hbalanced := (firstGroup?_eq_some hg).2.of_mem_bodyAlternatives ha
    have hplug : g.plug a = g.paste a := GroupSplit.plug_eq_paste (hend.after_ne hg) a
    have hplug' : GroupSplit.plug { g with after := g.after ++ splitOutside '.' [] } a =
        g.paste a ++ ['.'] := GroupSplit.plug_append_after (fun hnil => absurd hnil hafter) a
    have hstep := ih a ha
    rw [hplug] at hstep ⊢
    rw [hplug']
    exact hstep (balanced_paste hx hg hbalanced) ((endsInGroup_paste hx hg hbalanced hafter).2 hend)

/-- The expansion joins what the first expression stands for with what it finds for the second,
unless the first ends in a group and the second is empty. -/
theorem expand_dot_texts {x y : List Char} (hx : Balanced x) (hy : Balanced y)
    (hend : y = [] → ¬EndsInGroup x) :
    expand (x ++ '.' :: y) = dotted (texts x) (expand y) := by
  generalize htext : x ++ '.' :: y = text
  induction text using expand_induction generalizing x y with
  | groupless text hg =>
    subst htext
    have hgy : firstGroup? (splitOutside '.' y) = none := by
      rw [hx.splitOutside_dot, firstGroup?_eq_none_iff, List.forall_mem_append] at hg
      exact firstGroup?_eq_none_iff.2 hg.2
    -- Without groups, the expansion of both texts is what they stand for.
    calc expand (x ++ '.' :: y)
        = texts (x ++ '.' :: y) := by rw [expand_of_groupless hg, texts_of_groupless (hx.dot hy) hg]
      _ = dotted (texts x) (texts y) := texts_dot hx y
      _ = dotted (texts x) (expand y) := by rw [texts_of_groupless hy hgy, expand_of_groupless hgy]
  | group text g hg ih =>
    subst htext
    have hbody := (firstGroup?_eq_some hg).2
    have hcut := hx.splitOutside_dot y
    rw [expand_of_group hg]
    rw [hcut] at hg
    cases hgx : firstGroup? (splitOutside '.' x) with
    | some gx =>
      obtain rfl := Option.some.inj ((firstGroup?_append_of_eq_some hgx _).symm.trans hg)
      rw [texts_of_group hx hgx, dotted_flatMap]
      refine List.flatMap_congr fun a ha => ?_
      have hbalanced := hbody.of_mem_bodyAlternatives ha
      have hafter : gx.after = [] → y ≠ [] := fun hnil hy₀ =>
        hend hy₀ (endsInGroup_of_after_eq_nil hgx hnil)
      have hplug := GroupSplit.plug_append_after hafter a
      refine hplug ▸ ih a ha (balanced_paste hx hgx hbalanced) hy (fun hy₀ => ?_) hplug.symm
      rw [endsInGroup_paste hx hgx hbalanced fun hnil => hafter hnil hy₀]
      exact hend hy₀
    | none =>
      rw [firstGroup?_append_of_eq_none hgx] at hg
      obtain ⟨gy, hgy, rfl⟩ := Option.map_eq_some_iff.1 hg
      have htexts : (texts x).length ≤ 1 := by
        rw [texts_of_groupless hx hgx]
        split <;> simp
      rw [expand_of_group hgy, dotted_flatMap_of_length_le htexts]
      refine List.flatMap_congr fun a ha => ?_
      have hplug := GroupSplit.plug_append_before x gy a
      exact hplug ▸ ih a ha hx (balanced_plug hy hgy (hbody.of_mem_bodyAlternatives ha))
        (fun _ hx' => hx'.firstGroup?_ne_none hgx) hplug.symm

/-- **Two expressions with a dot between them.** The expansion joins what it finds for the two,
unless the first loses its end; whether it does or not, what the first stands for is joined with
what is found for the second. Only a dot right behind a group, with nothing behind it, is lost. -/
theorem expand_dot {x y : List Char} (hx : Balanced x) (hy : Balanced y) :
    (¬LosesEnd x → (y = [] → ¬EndsInGroup x) →
      expand (x ++ '.' :: y) = dotted (expand x) (expand y)) ∧
    ((y = [] → ¬EndsInGroup x) → expand (x ++ '.' :: y) = dotted (texts x) (expand y)) ∧
    (y = [] → EndsInGroup x → expand (x ++ '.' :: y) = expand x) := by
  refine ⟨fun hloses hend => ?_, expand_dot_texts hx hy, ?_⟩
  · rw [expand_dot_texts hx hy hend, texts_eq_expand hx hloses]
  · rintro rfl hend
    exact expand_dot_nil hx hend

/-- The expression `{a,b}`. -/
def oneGroup : List Char :=
  braced ['a', ',', 'b']

theorem not_losesEnd_oneGroup : ¬LosesEnd oneGroup := by
  intro hloses
  have hcut : splitOutside '.' oneGroup = [oneGroup] := by decide
  cases hloses with
  | behind hbody hend =>
    rw [hcut] at hend
    have hlength := hend.length_le
    simp at hlength
  | within hbody hend ha h =>
    rename_i body alternative
    rw [hcut] at hend
    obtain rfl : body = ['a', ',', 'b'] := by
      simpa only [braced, oneGroup, List.mem_singleton, List.append_cancel_right_eq, List.cons.injEq,
        true_and] using hend.subset (List.mem_singleton_self _)
    have hletter : alternative ∈ [['a'], ['b']] := ha
    rcases List.mem_pair.1 hletter with rfl | rfl <;> exact absurd h.hasBraces (by decide)

theorem expand_dot_oneGroup : Balanced oneGroup ∧ Balanced ['c'] ∧ Balanced [] ∧ ¬LosesEnd oneGroup ∧
    EndsInGroup oneGroup ∧
    expand (oneGroup ++ ['.', 'c']) = [['a', '.', 'c'], ['b', '.', 'c']] ∧
    expand (oneGroup ++ ['.']) = [['a'], ['b']] := by
  have honeGroup : Balanced oneGroup := by decide
  have hend : EndsInGroup oneGroup := ⟨['a', ',', 'b'], by decide, by decide⟩
  have hexpand : expand oneGroup = [['a'], ['b']] := by decide +kernel
  have hc : Balanced ['c'] := by decide
  have hnothing : Balanced [] := rfl
  have hbehind := (expand_dot honeGroup hc).1 not_losesEnd_oneGroup (by simp)
  have hnil := (expand_dot honeGroup hnothing).2.2 rfl hend
  have hkey : expand ['c'] = [['c']] := by decide +kernel
  rw [hexpand, hkey] at hbehind
  rw [hexpand] at hnil
  exact ⟨honeGroup, hc, hnothing, not_losesEnd_oneGroup, hend, hbehind, hnil⟩

/-- A group with nothing behind its dot: `{a}.` stands for `a.`, and the expansion finds `a`. -/
theorem not_expand_dot : ¬∀ x y, Balanced x → Balanced y →
    expand (x ++ '.' :: y) = dotted (expand x) (expand y) := by
  intro h
  have hdot := h (braced ['a']) [] (by decide) rfl
  have hwhole : expand (braced ['a'] ++ ['.']) = [['a']] := by decide +kernel
  have hgroup : expand (braced ['a']) = [['a']] := by decide +kernel
  have hnothing : expand [] = [[]] := by decide +kernel
  rw [hwhole, hgroup, hnothing] at hdot
  exact absurd hdot (by decide)

end Stencil.Selector
