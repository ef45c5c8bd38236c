import Stencil.Generator.Basic

/-!
# Dropping repeated values

Both policies go through the values from the front and keep each that is not the same as one kept
before; they differ in what they call the same, and in how they remember what has been kept.

* `Generator.dedupValues_eq_eraseDupsBy`: of values that are the same the first is kept.
-/

namespace Stencil

/-- Whether a value counts as the same as an earlier one. -/
def DedupPolicy.same : DedupPolicy → Value → Value → Bool
  | structural, value, earlier => earlier.equal value
  | serialized, value, earlier => Json.compactText value == Json.compactText earlier

namespace Generator

theorem keepStructural_eq_loop (kept values : List Value) :
    keepStructural kept values =
      List.eraseDupsBy.loop DedupPolicy.structural.same values kept.reverse := by
  induction values generalizing kept with
  | nil => simp [keepStructural, List.eraseDupsBy.loop]
  | cons value rest ih =>
    have hany : kept.reverse.any (DedupPolicy.structural.same value) = kept.any (·.equal value) :=
      List.any_reverse
    rw [keepStructural, List.eraseDupsBy.loop, hany]
    cases kept.any (·.equal value) with
    | true => exact ih kept
    | false => simpa using ih (kept ++ [value])

theorem keepSerialized_eq_loop (kept values : List Value) :
    kept.reverse ++ keepSerialized (kept.map Json.compactText) values =
      List.eraseDupsBy.loop DedupPolicy.serialized.same values kept := by
  induction values generalizing kept with
  | nil => simp [keepSerialized, List.eraseDupsBy.loop]
  | cons value rest ih =>
    have hany : kept.any (DedupPolicy.serialized.same value) = true ↔
        Json.compactText value ∈ kept.map Json.compactText := by
      simp only [List.any_eq_true, DedupPolicy.same, beq_iff_eq, List.mem_map]
      exact exists_congr fun _ => and_congr_right fun _ => eq_comm
    simp only [keepSerialized, List.eraseDupsBy.loop]
    cases hkept : kept.any (DedupPolicy.serialized.same value) with
    | true => rw [if_pos (hany.1 hkept), ih]
    | false =>
      rw [if_neg fun hmem => by simp [hany.2 hmem] at hkept]
      simpa using ih (value :: kept)

/-- **Of values that are the same the first is kept.** -/
theorem dedupValues_eq_eraseDupsBy (policy : DedupPolicy) (values : List Value) :
    dedupValues policy values = values.eraseDupsBy policy.same := by
  cases policy with
  | structural => exact keepStructural_eq_loop [] values
  | serialized => exact keepSerialized_eq_loop [] values

end Generator

end Stencil
