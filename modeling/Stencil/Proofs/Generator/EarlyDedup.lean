import Stencil.Proofs.Generator.Congruence
import Stencil.Proofs.Generator.FirstOccurrences

/-!
# Dropping repeated results early

Results that are structurally equal may still differ in the order of their fields, and what is made
of them then differs in the same way. So a result that has been dropped early would have led only to
documents that are alike to those of the result that has been kept in its stead, and these come
first. The deduplication at the end drops them, and keeps the very same documents.

* `Thins`: a list without some of the values that are alike to values before them.
* `dedupValues_of_thins`: a thinned list has the same first occurrences.
* `thins_dedupValues`, `Thins.flatMap`: a deduplication thins a list, and what is made of the values
  is thinned with them.
* `dedup_early`: an early structural deduplication does not show in the end.
-/

namespace Stencil.Generator

/-! ## Thinned lists -/

/-- Behind the values of `seen`, the second list is the first without some of the values that are
alike to values before them. -/
inductive Thins : List Value → List Value → List Value → Prop
  | nil (seen : List Value) : Thins seen [] []
  | keep (value : Value) {seen l l' : List Value} :
    Thins (seen ++ [value]) l l' → Thins seen (value :: l) (value :: l')
  /-- A value goes that is alike to one before it. -/
  | drop {seen l l' : List Value} {value earlier : Value} :
    earlier ∈ seen → earlier.Alike value → Thins seen l l' → Thins seen (value :: l) l'

namespace Thins

variable {seen l l' : List Value}

theorem append_left (more : List Value) (h : Thins (seen ++ more) l l') :
    Thins seen (more ++ l) (more ++ l') := by
  induction more generalizing seen with
  | nil => simpa using h
  | cons value more ih => exact keep value (ih (by simpa using h))

/-- Several values go. -/
theorem drop_all {more : List Value} (hmore : ∀ value ∈ more, ∃ earlier ∈ seen, earlier.Alike value)
    (h : Thins seen l l') : Thins seen (more ++ l) l' := by
  induction more with
  | nil => exact h
  | cons value more ih =>
    rw [List.forall_mem_cons] at hmore
    obtain ⟨earlier, hearlier, halike⟩ := hmore.1
    exact drop hearlier halike (ih hmore.2)

/-- What is made of a value that goes is alike to what is made of the value before it. -/
theorem flatMap {f : Value → List Value} (hf : ∀ v w, v.Alike w → ListAlike (f v) (f w))
    (h : Thins seen l l') : Thins (seen.flatMap f) (l.flatMap f) (l'.flatMap f) := by
  induction h with
  | nil seen => exact nil _
  | keep value _ ih =>
    rw [List.flatMap_cons, List.flatMap_cons]
    exact append_left _ (by simpa using ih)
  | @drop seen l l' value earlier hearlier halike _ ih =>
    rw [List.flatMap_cons]
    refine drop_all (fun made hmade => ?_) ih
    obtain ⟨i, hi⟩ := List.getElem?_of_mem hmade
    obtain ⟨hlength, hmades⟩ := Value.forall₂_iff_getElem?.1 (hf earlier value halike)
    have hlt : i < (f earlier).length := hlength ▸ (List.getElem?_eq_some_iff.1 hi).1
    exact ⟨(f earlier)[i], List.mem_flatMap.2 ⟨earlier, hearlier, List.getElem_mem hlt⟩,
      hmades i _ _ (List.getElem?_eq_getElem hlt) hi⟩

end Thins

/-! ## The values that are kept -/

theorem any_equal_of_alike {kept : List Value} {value : Value}
    (h : ∃ earlier ∈ kept, earlier.Alike value) : kept.any (·.equal value) = true := by
  obtain ⟨earlier, hearlier, halike⟩ := h
  exact List.any_eq_true.2 ⟨earlier, hearlier, halike.equal⟩

theorem exists_alike_of_any_equal {kept : List Value} {value : Value}
    (hkept : ∀ v ∈ kept, v.KeysDistinct) (hvalue : value.KeysDistinct)
    (h : kept.any (·.equal value) = true) : ∃ earlier ∈ kept, earlier.Alike value := by
  obtain ⟨earlier, hearlier, hequal⟩ := List.any_eq_true.1 h
  exact ⟨earlier, hearlier, (hkept earlier hearlier).alike_of_equal hvalue hequal⟩

theorem keepStructural_append (kept l more : List Value) :
    keepStructural kept (l ++ more) = keepStructural (keepStructural kept l) more := by
  induction l generalizing kept with
  | nil => rfl
  | cons value l ih =>
    rw [List.cons_append, keepStructural, keepStructural]
    split <;> exact ih _

/-- The induction is on how the list is thinned: each value that was seen is alike to one that was
kept, whether or not it was kept itself. -/
theorem keepStructural_of_thins {seen kept l l' : List Value} (h : Thins seen l l')
    (hkept : ∀ v ∈ kept, v.KeysDistinct) (hl : ∀ v ∈ l, v.KeysDistinct)
    (hseen : ∀ v ∈ seen, ∃ earlier ∈ kept, earlier.Alike v) :
    keepStructural kept l' = keepStructural kept l := by
  induction h generalizing kept with
  | nil => rfl
  | keep value _ ih =>
    rw [List.forall_mem_cons] at hl
    rw [keepStructural, keepStructural]
    split
    · rename_i hany
      refine ih hkept hl.2 fun v hv => ?_
      rcases List.mem_append.1 hv with hv | hv
      · exact hseen v hv
      · obtain rfl := List.mem_singleton.1 hv
        exact exists_alike_of_any_equal hkept hl.1 hany
    · refine ih (fun v hv => ?_) hl.2 fun v hv => ?_
      · rcases List.mem_append.1 hv with hv | hv
        · exact hkept v hv
        · exact List.mem_singleton.1 hv ▸ hl.1
      · rcases List.mem_append.1 hv with hv | hv
        · obtain ⟨earlier, hearlier, halike⟩ := hseen v hv
          exact ⟨earlier, List.mem_append_left _ hearlier, halike⟩
        · obtain rfl := List.mem_singleton.1 hv
          exact ⟨v, List.mem_append_right _ hv, hl.1.alike_self⟩
  | drop hearlier halike _ ih =>
    rw [List.forall_mem_cons] at hl
    obtain ⟨first, hfirst, hfirst_alike⟩ := hseen _ hearlier
    rw [ih hkept hl.2 hseen, keepStructural,
      if_pos (any_equal_of_alike ⟨first, hfirst, hfirst_alike.trans halike⟩)]

/-- **A thinned list has the same first occurrences.** -/
theorem dedupValues_of_thins {l l' : List Value} (h : Thins [] l l')
    (hl : ∀ v ∈ l, v.KeysDistinct) :
    dedupValues .structural l' = dedupValues .structural l :=
  keepStructural_of_thins h (by simp) hl (by simp)

theorem exists_thins_keepStructural (kept l : List Value) (hkept : ∀ v ∈ kept, v.KeysDistinct)
    (hl : ∀ v ∈ l, v.KeysDistinct) :
    ∃ l', keepStructural kept l = kept ++ l' ∧ Thins kept l l' := by
  induction l generalizing kept with
  | nil => exact ⟨[], by simp [keepStructural], .nil kept⟩
  | cons value l ih =>
    rw [List.forall_mem_cons] at hl
    rw [keepStructural]
    split
    · rename_i hany
      obtain ⟨l', hl', hthins⟩ := ih kept hkept hl.2
      obtain ⟨earlier, hearlier, halike⟩ := exists_alike_of_any_equal hkept hl.1 hany
      exact ⟨l', hl', .drop hearlier halike hthins⟩
    · obtain ⟨l', hl', hthins⟩ := ih (kept ++ [value])
        (by simpa [or_imp, forall_and] using ⟨hkept, hl.1⟩) hl.2
      exact ⟨value :: l', by simpa using hl', .keep value hthins⟩

/-- A structural deduplication thins a list. -/
theorem thins_dedupValues {l : List Value} (hl : ∀ v ∈ l, v.KeysDistinct) :
    Thins [] l (dedupValues .structural l) := by
  obtain ⟨l', hl', hthins⟩ := exists_thins_keepStructural [] l (by simp) hl
  have hdedup : dedupValues .structural l = l' := hl'
  rwa [hdedup]

/-! ## What is made of the values -/

/-- Of documents made of all values and of those made of the deduplicated ones the same are kept. -/
theorem dedupValues_flatMap {f : Value → List Value}
    (hf : ∀ v w, v.Alike w → ListAlike (f v) (f w)) {values : List Value}
    (hkeys : ∀ value ∈ values, value.KeysDistinct) :
    dedupValues .structural ((dedupValues .structural values).flatMap f) =
      dedupValues .structural (values.flatMap f) := by
  refine dedupValues_of_thins ((thins_dedupValues hkeys).flatMap hf) fun made hmade => ?_
  obtain ⟨value, hvalue, hmade⟩ := List.mem_flatMap.1 hmade
  have hself := hf value value (hkeys value hvalue).alike_self
  exact (List.forall₂_same.1 hself made hmade).keysDistinct

theorem dedupValues_append_dedupValues (values more : List Value) :
    dedupValues .structural (dedupValues .structural values ++ more) =
      dedupValues .structural (values ++ more) := by
  have happend := fun l => keepStructural_append [] l more
  have htwice := dedupValues_dedupValues .structural values
  simp only [dedupValues] at htwice ⊢
  rw [happend, happend, htwice]

/-- **An early structural deduplication does not show in the end.** Whether or not repeated results
are dropped before the results are renamed, extended or made the templates of a further generation,
a structural deduplication behind it leaves the same results. -/
theorem dedup_early {g : Generator} (hkeys : ∀ value ∈ g.results, value.KeysDistinct) :
    (∀ pairs, ((g.dedup .structural).rename pairs).dedup .structural =
      (g.rename pairs).dedup .structural) ∧
    (∀ documents, ((g.dedup .structural).concat documents).dedup .structural =
      (g.concat documents).dedup .structural) ∧
    (∀ other, ((g.dedup .structural).concatResults other).dedup .structural =
      (g.concatResults other).dedup .structural) ∧
    (∀ paths combos, (∀ combo ∈ combos, combo.KeysDistinct) →
      (((g.dedup .structural).adoptResults.generate paths combos).dedup .structural).results =
        ((g.adoptResults.generate paths combos).dedup .structural).results) := by
  refine ⟨fun pairs => ?_, fun documents => ?_, fun other => ?_, fun paths combos hcombos => ?_⟩
  · have hresults := dedupValues_flatMap
      (fun v w h => List.Forall₂.cons (h.renameValue pairs) .nil) hkeys
    simp only [← List.map_eq_flatMap] at hresults
    simp only [rename, dedup, hresults]
  · unfold concat
    split
    · simp only [dedup, dedupValues_append_dedupValues]
    · simp only [dedup, dedupValues_dedupValues]
  · simp only [concatResults, dedup, dedupValues_append_dedupValues]
  · refine dedupValues_flatMap (fun v w h => ?_) hkeys
    simpa [product] using product_alike (paths.map Selector.ofText) hcombos (.cons h .nil)

theorem dedup_early_drafts :
    let combos : List Value := [.mapping [("seats.0", .bool false)], .mapping [("to", .null)]]
    (∀ value ∈ drafts.results, value.KeysDistinct) ∧
    (∀ combo ∈ combos, combo.KeysDistinct) ∧
    ((drafts.dedup .structural).rename [("to", "for"), ("seats", "to")]).dedup .structural =
      (drafts.rename [("to", "for"), ("seats", "to")]).dedup .structural ∧
    ((drafts.dedup .structural).concat drafts.results).dedup .structural =
      (drafts.concat drafts.results).dedup .structural ∧
    (((drafts.dedup .structural).adoptResults.generate ["seats.@each"] combos).dedup
        .structural).results =
      ((drafts.adoptResults.generate ["seats.@each"] combos).dedup .structural).results ∧
    ((drafts.adoptResults.generate ["seats.@each"] combos).dedup .structural).results.length = 3 ∧
    (drafts.adoptResults.generate ["seats.@each"] combos).results.length = 8 := by
  intro combos
  have hcombos : ∀ combo ∈ combos, combo.KeysDistinct := by
    intro combo hcombo
    simp only [combos, List.mem_cons, List.not_mem_nil, or_false] at hcombo
    rcases hcombo with rfl | rfl <;> exact .mapping (by decide) (by simp)
  obtain ⟨hrename, hconcat, -, hgenerate⟩ := dedup_early keysDistinct_drafts
  exact ⟨keysDistinct_drafts, hcombos, hrename _, hconcat _, hgenerate _ _ hcombos,
    by decide +kernel, by decide +kernel⟩

end Stencil.Generator
