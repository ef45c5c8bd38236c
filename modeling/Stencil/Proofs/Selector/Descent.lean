import Stencil.Proofs.Selector.Rewriting
import Stencil.Selector.Basic

/-!
# The end of the expansion

A step of the expansion takes the two braces of a group out of a text and puts nothing in: what it
makes, of any text, is found in the rest of the text, character by character and in order. So the
steps come to an end, and there nothing is left to expand.

* `successors`: the texts that the expansion of a text goes on with.
* `exists_sublist_of_mem_successors`: one step, in a text with or without balanced braces.
* `length_le_of_isChain`: each of several steps in a row takes out an opening brace.
* `expand_terminates`: the expansion ends, and how deep it goes and how long its paths are.
* `expand_final`: the paths that it ends with stand for themselves.
-/

namespace Stencil.Selector

open Text

/-! ## What a step keeps of the text -/

/-- The text around the first group. The dot behind the group goes with it if nothing follows. -/
theorem exists_around_firstGroup {text : List Char} {g : GroupSplit}
    (hg : firstGroup? (splitOutside '.' text) = some g) :
    ∃ front behind, text = front ++ braced g.body ++ behind ∧
      ∀ alternative, (g.plug alternative).Sublist (front ++ alternative ++ behind) := by
  have htext := intercalate_splitOutside '.' text
  rw [(firstGroup?_eq_some hg).1, ← flatMap_append_dot g.before (List.cons_ne_nil _ _)] at htext
  by_cases hafter : g.after = []
  · refine ⟨g.before.flatMap (· ++ ['.']), [], ?_, fun alternative => ?_⟩
    · simpa [hafter, braced] using htext.symm
    · simp [GroupSplit.plug, hafter]
  · refine ⟨g.before.flatMap (· ++ ['.']), '.' :: ['.'].intercalate g.after, ?_,
      fun alternative => ?_⟩
    · rw [intercalate_cons _ hafter] at htext
      simpa [braced] using htext.symm
    · rw [GroupSplit.plug]
      refine List.Sublist.append_left ?_ _
      split
      · exact List.nil_sublist _
      · exact List.Sublist.refl _

/-! ## One step -/

/-- The texts that the expansion of a text goes on with: one for each alternative of its first
group, and none without a group. -/
def successors (text : List Char) : List (List Char) :=
  match firstGroup? (splitOutside '.' text) with
  | some g => (bodyAlternatives g.body).map g.plug
  | none => []

/-- The expansion of a text with both braces is that of its successors, one after another. -/
theorem expand_eq_flatMap_successors (text : List Char) :
    expand text = if HasBraces text then (successors text).flatMap expand else [text] := by
  unfold successors
  cases hg : firstGroup? (splitOutside '.' text) with
  | none =>
    rw [expand_of_groupless hg]
    rfl
  | some g => rw [expand_of_group hg, if_pos (hasBraces_of_firstGroup? hg), List.flatMap_map]

section step

variable {text next : List Char} (h : next ∈ successors text)

include h

/-- **A step takes out the braces of a group and puts nothing in.** -/
theorem exists_sublist_of_mem_successors : ∃ front body behind,
    text = front ++ braced body ++ behind ∧ next.Sublist (front ++ body ++ behind) := by
  unfold successors at h
  split at h
  · rename_i g hg
    obtain ⟨alternative, ha, rfl⟩ := List.mem_map.1 h
    obtain ⟨front, behind, htext, hplug⟩ := exists_around_firstGroup hg
    refine ⟨front, g.body, behind, htext, (hplug alternative).trans ?_⟩
    exact ((sublist_of_mem_bodyAlternatives ha).append_left front).append_right behind
  · cases h

theorem count_open_lt_of_mem_successors : next.count '{' < text.count '{' := by
  obtain ⟨front, body, behind, rfl, hnext⟩ := exists_sublist_of_mem_successors h
  have hcount := hnext.count_le '{'
  simp only [braced, List.count_append, List.count_cons_self] at hcount ⊢
  omega

theorem count_close_lt_of_mem_successors : next.count '}' < text.count '}' := by
  obtain ⟨front, body, behind, rfl, hnext⟩ := exists_sublist_of_mem_successors h
  have hcount := hnext.count_le '}'
  have hopen : ('{' :: body).count '}' = body.count '}' := List.count_cons_of_ne (by decide)
  simp only [braced, List.count_append, List.count_cons_self, hopen] at hcount ⊢
  omega

theorem length_add_two_le_of_mem_successors : next.length + 2 ≤ text.length := by
  obtain ⟨front, body, behind, rfl, hnext⟩ := exists_sublist_of_mem_successors h
  have hlength := hnext.length_le
  simp only [braced, List.length_append, List.length_cons, List.length_nil] at hlength ⊢
  omega

end step

/-! ## All steps -/

/-- Steps in a row are no more than there are opening braces. -/
theorem length_le_of_isChain {text : List Char} {nexts : List (List Char)}
    (h : List.IsChain (fun text next => next ∈ successors text) (text :: nexts)) :
    nexts.length ≤ text.count '{' := by
  induction nexts generalizing text with
  | nil => exact Nat.zero_le _
  | cons next nexts ih =>
    rw [List.isChain_cons_cons] at h
    have hstep := count_open_lt_of_mem_successors h.1
    have hrest := ih h.2
    rw [List.length_cons]
    omega

theorem wellFounded_successors : WellFounded fun next text => next ∈ successors text :=
  Subrelation.wf (r := InvImage (· < ·) fun text : List Char => text.count '{')
    (fun h => count_open_lt_of_mem_successors h) (InvImage.wf _ Nat.lt_wfRel.wf)

/-- No path is longer than the text that it comes from. -/
theorem length_le_of_mem_expand {text path : List Char} (h : path ∈ expand text) :
    path.length ≤ text.length := by
  induction text using wellFounded_successors.induction with
  | _ text ih =>
    rw [expand_eq_flatMap_successors] at h
    split at h
    · obtain ⟨next, hnext, hpath⟩ := List.mem_flatMap.1 h
      have hstep := length_add_two_le_of_mem_successors hnext
      have hrest := ih next hnext hpath
      omega
    · rw [List.mem_singleton.1 h]

/-- **The expansion ends on every text**, balanced or not. It goes on with texts that have fewer
braces of either kind and are shorter by two characters at least, so it goes no deeper than there are
opening braces, and no path is longer than the text. -/
theorem expand_terminates :
    (WellFounded fun next text => next ∈ successors text) ∧
    ∀ text, expand text = (if HasBraces text then (successors text).flatMap expand else [text]) ∧
      (∀ next ∈ successors text, next.count '{' < text.count '{' ∧
        next.count '}' < text.count '}' ∧ next.length + 2 ≤ text.length) ∧
      (∀ nexts, List.IsChain (fun text next => next ∈ successors text) (text :: nexts) →
        nexts.length ≤ text.count '{') ∧
      ∀ path ∈ expand text, path.length ≤ text.length := by
  refine ⟨wellFounded_successors, fun text => ⟨expand_eq_flatMap_successors text,
    fun next hnext => ⟨?_, ?_, ?_⟩, fun nexts => length_le_of_isChain,
    fun path => length_le_of_mem_expand⟩⟩
  · exact count_open_lt_of_mem_successors hnext
  · exact count_close_lt_of_mem_successors hnext
  · exact length_add_two_le_of_mem_successors hnext

/-! ## What the expansion ends with -/

theorem not_hasBraces_of_mem_expand {text path : List Char} (h : path ∈ expand text) :
    ¬HasBraces path := by
  induction text using expand_induction with
  | groupless text hg =>
    rw [expand_of_groupless hg] at h
    split at h
    · cases h
    · rename_i hbraces
      rwa [List.mem_singleton.1 h]
  | group text g hg ih =>
    rw [expand_of_group hg] at h
    obtain ⟨alternative, ha, hpath⟩ := List.mem_flatMap.1 h
    exact ih alternative ha hpath

/-- Braces that are balanced stay so to the end. -/
theorem Balanced.of_mem_expand {text path : List Char} (hbalanced : Balanced text)
    (h : path ∈ expand text) : Balanced path := by
  induction text using expand_induction with
  | groupless text hg =>
    rw [expand_of_groupless hg] at h
    split at h
    · cases h
    · rwa [List.mem_singleton.1 h]
  | group text g hg ih =>
    rw [expand_of_group hg] at h
    obtain ⟨alternative, ha, hpath⟩ := List.mem_flatMap.1 h
    have halternative := (firstGroup?_eq_some hg).2.of_mem_bodyAlternatives ha
    exact ih alternative ha (balanced_plug hbalanced hg halternative) hpath

/-- A balanced text without braces of both kinds has none of either kind. -/
theorem Balanced.notMem_of_not_hasBraces {text : List Char} (h : Balanced text)
    (hbraces : ¬HasBraces text) : '{' ∉ text ∧ '}' ∉ text := by
  have hcount := add_count_of_depthThrough? h
  have hopen : '{' ∉ text := fun hmem => hbraces (h.hasBraces hmem)
  refine ⟨hopen, List.count_eq_zero.1 ?_⟩
  rw [List.count_eq_zero.2 hopen] at hcount
  omega

/-- **Nothing is left to expand.** No path of an expansion holds braces of both kinds, and it stands
for itself alone; if the braces of the expression are balanced, it holds none. So an expression
denotes in every document what its paths denote there, each taken as an expression. -/
theorem expand_final (source : String) :
    (∀ path ∈ expand source.toList, ¬HasBraces path ∧ expand path = [path] ∧
      (Balanced source.toList → '{' ∉ path ∧ '}' ∉ path)) ∧
    ∀ doc, (ofText source).resolve doc =
      (ofText source).alternatives.flatMap fun path => (ofText path).resolve doc := by
  have hitself : ∀ path ∈ expand source.toList, expand path = [path] := fun path hpath =>
    expand_of_not_hasBraces (not_hasBraces_of_mem_expand hpath)
  refine ⟨fun path hpath => ⟨not_hasBraces_of_mem_expand hpath, hitself path hpath, ?_⟩,
    fun doc => ?_⟩
  · intro hbalanced
    exact (hbalanced.of_mem_expand hpath).notMem_of_not_hasBraces
      (not_hasBraces_of_mem_expand hpath)
  · simp only [resolve, ofText, List.flatMap_map]
    refine List.flatMap_congr fun path hpath => ?_
    rw [String.toList_ofList, hitself path hpath]
    simp

end Stencil.Selector
