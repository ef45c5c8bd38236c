import Stencil.Proofs.Generator.EarlyDedup
import Stencil.Proofs.Json.Compact

/-!
# Dropping results with the same text

A value is told by its text, so a deduplication that compares texts drops no more than exact copies:
values with the same leaves, the same numbers in the same form, and the same order of fields at
every depth. An exact copy is alike to the value it copies. So such a deduplication thins a list,
and a structural one behind it keeps what it would have kept alone.

* `DedupPolicy.same_serialized_iff`: values with the same text are equal.
* `thins_dedupValues_serialized`: a deduplication by texts thins a list.
* `Generator.dedup_serialized`: what a deduplication by texts keeps, and a structural one behind it.
-/

namespace Stencil

theorem DedupPolicy.same_serialized_iff {v w : Value} : serialized.same v w = true ↔ v = w := by
  rw [same, beq_iff_eq]
  exact Json.compactText_injective.eq_iff

namespace Generator

/-- The invariant is that each text in `texts` is that of a value that was seen. -/
theorem thins_keepSerialized {texts : List String} {seen values : List Value}
    (hvalues : ∀ value ∈ values, value.KeysDistinct)
    (htexts : ∀ text ∈ texts, ∃ earlier ∈ seen, Json.compactText earlier = text) :
    Thins seen values (keepSerialized texts values) := by
  induction values generalizing texts seen with
  | nil => exact .nil seen
  | cons value rest ih =>
    rw [List.forall_mem_cons] at hvalues
    rw [keepSerialized]
    split
    · rename_i hmem
      obtain ⟨earlier, hearlier, htext⟩ := htexts _ hmem
      obtain rfl := Json.compactText_injective htext
      exact .drop hearlier hvalues.1.alike_self (ih hvalues.2 htexts)
    · refine .keep value (ih hvalues.2 fun text htext => ?_)
      rcases List.mem_cons.1 htext with rfl | htext
      · exact ⟨value, by simp, rfl⟩
      · obtain ⟨earlier, hearlier, heq⟩ := htexts text htext
        exact ⟨earlier, List.mem_append_left _ hearlier, heq⟩

/-- A deduplication by texts thins a list. -/
theorem thins_dedupValues_serialized {values : List Value}
    (hvalues : ∀ value ∈ values, value.KeysDistinct) :
    Thins [] values (dedupValues .serialized values) :=
  thins_keepSerialized hvalues (by simp)

/-- **A deduplication by texts drops exact copies only.** The results that stay are those at the
positions before which the very same value does not occur. So where no mapping has a key twice, a
structural deduplication behind it leaves what it would have left alone, and this is a part of what
the deduplication by texts has left, in the same order. -/
theorem dedup_serialized (g : Generator) :
    (g.dedup .serialized).results = firstOccurrences DedupPolicy.serialized.same g.results ∧
    (∀ i, ∀ value ∈ g.results[i]?,
      ¬IsFirst DedupPolicy.serialized.same g.results i ↔ ∃ j < i, g.results[j]? = some value) ∧
    ((∀ value ∈ g.results, value.KeysDistinct) →
      (g.dedup .serialized).dedup .structural = g.dedup .structural ∧
      (g.dedup .structural).results.Sublist (g.dedup .serialized).results) := by
  refine ⟨(dedup_firstOccurrences (by simp)).1, fun i value hvalue => ?_, fun hkeys => ?_⟩
  · rw [not_isFirst_iff hvalue]
    simp only [DedupPolicy.same_serialized_iff, exists_eq_right', Option.mem_def]
  · have hdedup := dedupValues_of_thins (thins_dedupValues_serialized hkeys) hkeys
    have hsublist := dedupValues_sublist .structural (dedupValues .serialized g.results)
    rw [hdedup] at hsublist
    exact ⟨by simp only [dedup, hdedup], hsublist⟩

theorem dedup_serialized_drafts :
    (∀ value ∈ drafts.results, value.KeysDistinct) ∧
    (drafts.dedup .serialized).dedup .structural = drafts.dedup .structural ∧
    (drafts.dedup .structural).results.Sublist (drafts.dedup .serialized).results ∧
    (drafts.dedup .serialized).results.length = 3 ∧
    (drafts.dedup .structural).results.length = 2 := by
  obtain ⟨hafter, hsublist⟩ := (dedup_serialized drafts).2.2 keysDistinct_drafts
  exact ⟨keysDistinct_drafts, hafter, hsublist, by decide +kernel, by decide +kernel⟩

end Generator

end Stencil
