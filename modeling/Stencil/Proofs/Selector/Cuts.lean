import Stencil.Proofs.Selector.Outside

/-!
# Where a text is cut

The cut of a text follows its brace depth, and a part that is cut again, by itself, starts at depth
zero. The two agree in every text, balanced or not: a separator is a place of the cut exactly if the
depth in front of it is zero, so the depth is zero wherever a part starts.

* `length_splitFrom`: how many parts there are.
* `splitOutside_cuts`: where a text is cut, and what the parts are.
-/

namespace Stencil.Selector

/-- A text is cut once for each separator that it holds at depth zero. -/
theorem length_splitFrom {sep : Char} (h₁ : sep ≠ '{') (h₂ : sep ≠ '}') (depth : Nat)
    (text : List Char) :
    (splitFrom sep depth text).length = (outsideFrom depth text).count sep + 1 := by
  induction text generalizing depth with
  | nil => rfl
  | cons c text ih =>
    rw [splitFrom, outsideFrom]
    by_cases hdepth : depth = 0
    · subst hdepth
      by_cases hc : c = sep
      · subst hc
        simp [depthAfter_of_ne h₁ h₂, ih]
      · simp [hc, ih]
    · simp [hdepth, ih]

/-- **A text is cut exactly at the separators outside its braces**, be it balanced or not. The
parts, joined again with the separator, are the text; a part that is cut again stays in one piece;
there is one part more than there are separators at brace depth zero; and a separator is a place of
the cut, with the text on either side of it cut as it is by itself, exactly if the depth in front of
it is zero. -/
theorem splitOutside_cuts {sep : Char} (h₁ : sep ≠ '{') (h₂ : sep ≠ '}') (text : List Char) :
    [sep].intercalate (splitOutside sep text) = text ∧
    (∀ part ∈ splitOutside sep text, splitOutside sep part = [part]) ∧
    (splitOutside sep text).length = (outside text).count sep + 1 ∧
    ∀ s t, text = s ++ sep :: t →
      (splitOutside sep text = splitOutside sep s ++ splitOutside sep t ↔
        depthBehind 0 s = 0) := by
  refine ⟨intercalate_splitOutside sep text, fun part hpart => ?_,
    length_splitFrom h₁ h₂ 0 text, ?_⟩
  · exact splitFrom_of_notMem (sep_notMem_outside_of_mem_splitOutside h₁ h₂ hpart)
  · rintro s t rfl
    exact splitOutside_append_sep_iff h₁ h₂ s t

/-- The text `}.{a.b}.c{.d`, which closes a brace too many and leaves one open. -/
def unbalancedText : List Char :=
  ['}', '.', '{', 'a', '.', 'b', '}', '.', 'c', '{', '.', 'd']

theorem splitOutside_cuts_unbalanced :
    '.' ≠ '{' ∧ '.' ≠ '}' ∧
    splitOutside '.' unbalancedText =
      [['}'], ['{', 'a', '.', 'b', '}'], ['c', '{', '.', 'd']] ∧
    splitOutside '.' ['c', '{', '.', 'd'] = [['c', '{', '.', 'd']] ∧
    (outside unbalancedText).count '.' = 2 ∧
    splitOutside '.' unbalancedText =
      splitOutside '.' ['}'] ++ splitOutside '.' (unbalancedText.drop 2) := by
  have hdot : '.' ≠ '{' ∧ '.' ≠ '}' := by decide
  have hparts : splitOutside '.' unbalancedText =
      [['}'], ['{', 'a', '.', 'b', '}'], ['c', '{', '.', 'd']] := by decide
  obtain ⟨-, hpart, hcount, hcut⟩ := splitOutside_cuts hdot.1 hdot.2 unbalancedText
  refine ⟨hdot.1, hdot.2, hparts, hpart _ (by simp [hparts]), ?_, (hcut ['}'] _ rfl).2 rfl⟩
  rw [hparts] at hcount
  exact (Nat.succ.inj hcount).symm

end Stencil.Selector
