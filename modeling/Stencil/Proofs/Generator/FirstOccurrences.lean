import Stencil.Proofs.Generator.Dedup
import Stencil.Proofs.Generator.Documents
import Stencil.Proofs.Value.Equality

/-!
# First occurrences

A value of a list is a first occurrence if no value before it is the same. Dropping repeated values
compares each value with those that have been kept only, not with all that came before; where being
the same is an equivalence, this comes to the same, since what has been dropped is the same as
something kept.

* `IsFirst`, `firstOccurrences`: the positions of first occurrences, and the values there.
* `eraseDupsBy_eq_firstOccurrences`: comparing with the kept values finds the first occurrences.
* `exists_isFirst`: a value that is no first occurrence is the same as an earlier one that is.
* `Generator.dedup_firstOccurrences`: what a deduplication keeps and what it drops.
-/

namespace Stencil

/-! ## Lists -/

section lists

variable {α : Type} (same : α → α → Bool)

/-- Whether the value at a position is not the same as any value before it. -/
def IsFirst (values : List α) (i : Nat) : Prop :=
  ∀ value ∈ values[i]?, ∀ earlier ∈ values.take i, same value earlier = false

instance (values : List α) (i : Nat) : Decidable (IsFirst same values i) :=
  inferInstanceAs (Decidable
    (∀ value ∈ values[i]?, ∀ earlier ∈ values.take i, same value earlier = false))

/-- The values at the positions of first occurrences, in order. -/
def firstOccurrences (values : List α) : List α :=
  (values.zipIdx.filter fun entry => IsFirst same values entry.2).map Prod.fst

variable {same} {values : List α}

theorem isFirst_length_append {seen rest : List α} {value : α} :
    IsFirst same (seen ++ value :: rest) seen.length ↔ seen.any (same value) = false := by
  simp [IsFirst]

/-- Whether being the same passes on from value to value in a list. -/
def SameTrans (same : α → α → Bool) (values : List α) : Prop :=
  ∀ u ∈ values, ∀ v ∈ values, ∀ w ∈ values, same u v = true → same v w = true → same u w = true

/-- The loop of the deduplication, when it has gone through `seen` and kept `kept` of it. The
invariant is that a value which is the same as one that was seen is the same as one that was
kept. -/
theorem eraseDupsBy_loop_eq (seen kept rest : List α) (htrans : SameTrans same (seen ++ rest))
    (hkept : ∀ v ∈ kept, v ∈ seen)
    (hseen : ∀ v ∈ seen ++ rest, seen.any (same v) = true → kept.any (same v) = true) :
    List.eraseDupsBy.loop same rest kept = kept.reverse ++
      ((rest.zipIdx seen.length).filter fun entry =>
        IsFirst same (seen ++ rest) entry.2).map Prod.fst := by
  induction rest generalizing seen kept with
  | nil => simp [List.eraseDupsBy.loop]
  | cons value rest ih =>
    have hvalue : value ∈ seen ++ value :: rest := by simp
    have hany : kept.any (same value) = seen.any (same value) := by
      refine Bool.eq_iff_iff.2 ⟨fun h => ?_, hseen value hvalue⟩
      obtain ⟨v, hv, hsame⟩ := List.any_eq_true.1 h
      exact List.any_eq_true.2 ⟨v, hkept v hv, hsame⟩
    have happend : seen ++ value :: rest = (seen ++ [value]) ++ rest := by simp
    have hlength : seen.length + 1 = (seen ++ [value]).length := by simp
    rw [List.eraseDupsBy.loop, hany, List.zipIdx_cons, List.filter_cons]
    simp only [isFirst_length_append]
    rw [happend] at htrans hseen hvalue ⊢
    cases hrepeated : seen.any (same value) with
    | true =>
      have hseen' : ∀ v ∈ (seen ++ [value]) ++ rest, (seen ++ [value]).any (same v) = true →
          kept.any (same v) = true := by
        intro v hv h
        rw [List.any_append, Bool.or_eq_true] at h
        rcases h with h | h
        · exact hseen v hv h
        · -- `v` is the same as `value`, which is the same as a value that was kept
          obtain ⟨u, hu, hsame⟩ := List.any_eq_true.1 (hany.trans hrepeated)
          refine List.any_eq_true.2 ⟨u, hu, htrans v hv value hvalue u ?_ (by simpa using h) hsame⟩
          simp [hkept u hu]
      simp only [Bool.true_eq_false, decide_false, Bool.false_eq_true, if_false, hlength]
      exact ih _ _ htrans (fun v hv => List.mem_append_left _ (hkept v hv)) hseen'
    | false =>
      have hseen' : ∀ v ∈ (seen ++ [value]) ++ rest, (seen ++ [value]).any (same v) = true →
          (value :: kept).any (same v) = true := by
        intro v hv h
        rw [List.any_append, Bool.or_eq_true] at h
        rw [List.any_cons, Bool.or_eq_true]
        exact h.symm.imp (fun h => by simpa using h) (hseen v hv)
      simp only [decide_true, if_true, hlength, List.map_cons]
      rw [ih _ _ htrans (by simpa using fun v hv => Or.inl (hkept v hv)) hseen', List.reverse_cons,
        List.append_assoc, List.singleton_append]

/-- **Comparing with the kept values finds the first occurrences.** -/
theorem eraseDupsBy_eq_firstOccurrences (htrans : SameTrans same values) :
    values.eraseDupsBy same = firstOccurrences same values :=
  eraseDupsBy_loop_eq [] [] values htrans (by simp) (by simp)

theorem not_isFirst_iff {i : Nat} {value : α} (hvalue : values[i]? = some value) :
    ¬IsFirst same values i ↔ ∃ j < i, ∃ earlier ∈ values[j]?, same value earlier = true := by
  have hi : i < values.length := (List.getElem?_eq_some_iff.1 hvalue).1
  simp only [IsFirst, hvalue, Option.mem_some_iff, forall_eq', not_forall, Bool.not_eq_false]
  constructor
  · rintro ⟨earlier, hmem, hsame⟩
    obtain ⟨j, hj, rfl⟩ := List.mem_take_iff_getElem.1 hmem
    exact ⟨j, by omega, _, List.getElem?_eq_getElem (by omega), hsame⟩
  · rintro ⟨j, hj, earlier, hearlier, hsame⟩
    obtain ⟨hlt, rfl⟩ := List.getElem?_eq_some_iff.1 hearlier
    exact ⟨_, List.mem_take_iff_getElem.2 ⟨j, by omega, rfl⟩, hsame⟩

/-- A value that is no first occurrence is the same as an earlier one that is. -/
theorem exists_isFirst (htrans : SameTrans same values) {i : Nat} {value : α}
    (hvalue : values[i]? = some value) (h : ¬IsFirst same values i) :
    ∃ j < i, IsFirst same values j ∧ ∃ first ∈ values[j]?, same value first = true := by
  induction i using Nat.strongRecOn generalizing value with
  | ind i ih =>
    obtain ⟨j, hj, earlier, hearlier, hsame⟩ := (not_isFirst_iff hvalue).1 h
    by_cases hfirst : IsFirst same values j
    · exact ⟨j, hj, hfirst, earlier, hearlier, hsame⟩
    · obtain ⟨k, hk, hfirst, first, hmem, hsame'⟩ := ih j hj hearlier hfirst
      refine ⟨k, by omega, hfirst, first, hmem, ?_⟩
      exact htrans value (List.mem_of_getElem? hvalue) earlier (List.mem_of_getElem? hearlier) first
        (List.mem_of_getElem? hmem) hsame hsame'

/-- No kept value is the same as one kept before it. -/
theorem pairwise_eraseDupsBy_loop (kept rest : List α)
    (h : kept.reverse.Pairwise fun v w => same w v = false) :
    (List.eraseDupsBy.loop same rest kept).Pairwise fun v w => same w v = false := by
  induction rest generalizing kept with
  | nil => exact h
  | cons value rest ih =>
    rw [List.eraseDupsBy.loop]
    cases hany : kept.any (same value) with
    | true => exact ih kept h
    | false =>
      refine ih _ ?_
      rw [List.reverse_cons, List.pairwise_append]
      refine ⟨h, List.pairwise_singleton _ _, fun v hv w hw => ?_⟩
      obtain rfl := List.mem_singleton.1 hw
      exact Bool.eq_false_iff.2 fun hsame =>
        List.any_eq_false.1 hany v (List.mem_reverse.1 hv) hsame

/-- Of values of which none is the same as one before it, all are kept. -/
theorem eraseDupsBy_loop_of_pairwise (kept rest : List α)
    (h : (kept.reverse ++ rest).Pairwise fun v w => same w v = false) :
    List.eraseDupsBy.loop same rest kept = kept.reverse ++ rest := by
  induction rest generalizing kept with
  | nil => simp [List.eraseDupsBy.loop]
  | cons value rest ih =>
    have hany : kept.any (same value) = false := by
      rw [List.any_eq_false]
      intro v hv
      rw [(List.pairwise_append.1 h).2.2 v (List.mem_reverse.2 hv) value List.mem_cons_self]
      exact Bool.false_ne_true
    have happend : kept.reverse ++ value :: rest = (value :: kept).reverse ++ rest := by simp
    rw [List.eraseDupsBy.loop, hany, happend]
    exact ih _ (happend ▸ h)

end lists

namespace DedupPolicy

variable {policy : DedupPolicy} {values : List Value}
  (hkeys : policy = .structural → ∀ value ∈ values, value.KeysDistinct)

include hkeys

/-- Being the same under a policy is symmetric. -/
theorem same_symm {v w : Value} (hv : v ∈ values) (hw : w ∈ values)
    (h : policy.same v w = true) : policy.same w v = true := by
  cases policy with
  | structural => exact ((hkeys rfl w hw).alike_of_equal (hkeys rfl v hv) h).symm.equal
  | serialized =>
    rw [same, beq_iff_eq] at h ⊢
    exact h.symm

theorem same_trans : SameTrans policy.same values := by
  intro u hu v hv w hw huv hvw
  cases policy with
  | structural =>
    have hvu := (hkeys rfl v hv).alike_of_equal (hkeys rfl u hu) huv
    have hwv := (hkeys rfl w hw).alike_of_equal (hkeys rfl v hv) hvw
    exact (hwv.trans hvu).equal
  | serialized =>
    simp only [same, beq_iff_eq] at huv hvw ⊢
    rw [huv, hvw]

end DedupPolicy

namespace Generator

theorem pairwise_dedupValues (policy : DedupPolicy) (values : List Value) :
    (dedupValues policy values).Pairwise fun v w => policy.same w v = false := by
  rw [dedupValues_eq_eraseDupsBy]
  exact pairwise_eraseDupsBy_loop [] _ List.Pairwise.nil

theorem dedupValues_dedupValues (policy : DedupPolicy) (values : List Value) :
    dedupValues policy (dedupValues policy values) = dedupValues policy values := by
  rw [dedupValues_eq_eraseDupsBy policy (dedupValues policy values)]
  exact eraseDupsBy_loop_of_pairwise [] _ (pairwise_dedupValues policy values)

/-- **A deduplication keeps exactly the first occurrences.** Under either policy the results that
stay are those at the positions before which no result is the same. So no two of them are the same,
each result that goes is the same as an earlier one that stays, the templates are left alone, and a
second deduplication changes nothing. For structural equality to be an equivalence, no mapping may
have a key twice. -/
theorem dedup_firstOccurrences {policy : DedupPolicy} {g : Generator}
    (hkeys : policy = .structural → ∀ value ∈ g.results, value.KeysDistinct) :
    (g.dedup policy).results = firstOccurrences policy.same g.results ∧
    ((g.dedup policy).results.Pairwise fun v w =>
      policy.same v w = false ∧ policy.same w v = false) ∧
    (∀ i, ∀ value ∈ g.results[i]?, ¬IsFirst policy.same g.results i →
      ∃ j < i, IsFirst policy.same g.results j ∧
        ∃ first ∈ g.results[j]?, policy.same value first = true) ∧
    (g.dedup policy).templates = g.templates ∧
    (g.dedup policy).dedup policy = g.dedup policy := by
  have htrans := DedupPolicy.same_trans hkeys
  refine ⟨(dedupValues_eq_eraseDupsBy policy g.results).trans
      (eraseDupsBy_eq_firstOccurrences htrans), ?_,
    fun i value hvalue h => exists_isFirst htrans hvalue h, rfl, ?_⟩
  · refine (pairwise_dedupValues policy g.results).imp_of_mem fun {v w} hv hw hsame => ⟨?_, hsame⟩
    have hmem := (dedupValues_sublist policy g.results).subset
    refine Bool.eq_false_iff.2 fun h => ?_
    simp [DedupPolicy.same_symm hkeys (hmem hv) (hmem hw) h] at hsame
  · simp only [dedup, dedupValues_dedupValues]

/-- A draft, another one, the first one with its fields in another order, and the first one again. -/
def drafts : Generator where
  templates := []
  results :=
    [.mapping [("to", .string "Ann"), ("seats", .sequence [.bool true])],
      .mapping [("to", .string "Bob")],
      .mapping [("seats", .sequence [.bool true]), ("to", .string "Ann")],
      .mapping [("to", .string "Ann"), ("seats", .sequence [.bool true])]]

theorem keysDistinct_drafts : ∀ value ∈ drafts.results, value.KeysDistinct := by
  intro value hvalue
  simp only [drafts, List.mem_cons, List.not_mem_nil, or_false] at hvalue
  have hseats : (Value.sequence [.bool true]).KeysDistinct := .sequence (by simp)
  rcases hvalue with rfl | rfl | rfl | rfl <;> exact .mapping (by decide) (by simp [hseats])

theorem dedup_firstOccurrences_drafts :
    (∀ value ∈ drafts.results, value.KeysDistinct) ∧
    (drafts.dedup .structural).results =
      firstOccurrences DedupPolicy.structural.same drafts.results ∧
    (drafts.dedup .serialized).results =
      firstOccurrences DedupPolicy.serialized.same drafts.results ∧
    (List.range 4).map (fun i => decide (IsFirst DedupPolicy.structural.same drafts.results i)) =
      [true, true, false, false] ∧
    (List.range 4).map (fun i => decide (IsFirst DedupPolicy.serialized.same drafts.results i)) =
      [true, true, true, false] :=
  ⟨keysDistinct_drafts, (dedup_firstOccurrences fun _ => keysDistinct_drafts).1,
    (dedup_firstOccurrences fun _ => keysDistinct_drafts).1, by decide +kernel,
    by decide +kernel⟩

end Generator

end Stencil
