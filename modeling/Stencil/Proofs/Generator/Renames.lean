import Stencil.Plan.Model
import Stencil.Proofs.Generator.Congruence

/-!
# Renames that do not touch each other

Fields are renamed pair by pair, each pair in the mapping that the pairs before it have left. If no
name is renamed twice, no name is taken twice, and no name that is taken is renamed, no pair finds
anything that another has written or removed. Then the pairs act as if at once, each on the mapping
as it was at first, and their order shows in the order of the fields only.

* `Independent`: pairs that do not touch each other.
* `RenamesTo`, `Value.RenamesTo`: what all pairs at once make of fields, and of a value.
* `Independent.renamesTo_foldl`: one pair after the other makes the same.
* `RenameTable.toList_ofPairs_perm`: a table holds its pairs in an order of its own.
* `rename_simultaneous`: independent renames act at once and in any order.
-/

namespace Stencil

namespace RenameTable

theorem insertPair_perm {pair : String × String} {l : List (String × String)}
    (h : pair.1 ∉ l.map Prod.fst) : (insertPair pair l).Perm (pair :: l) := by
  induction l with
  | nil => exact .refl _
  | cons p rest ih =>
    rw [List.map_cons, List.mem_cons, not_or] at h
    rw [insertPair]
    split
    · exact .refl _
    · rw [if_neg h.1]
      exact ((ih h.2).cons p).trans (.swap pair p rest)

theorem toList_foldl_insert_perm {table : RenameTable} {pairs : List (String × String)}
    (h : ((table.toList ++ pairs).map Prod.fst).Nodup) :
    (pairs.foldl insert table).toList.Perm (table.toList ++ pairs) := by
  induction pairs generalizing table with
  | nil => simp
  | cons pair rest ih =>
    have hmiddle : (pair :: (table.toList ++ rest)).Perm (table.toList ++ pair :: rest) :=
      List.perm_middle.symm
    have hnodup := (hmiddle.map Prod.fst).nodup_iff.2 h
    rw [List.map_cons, List.nodup_cons, List.map_append, List.mem_append, not_or] at hnodup
    have hinsert : ((table.insert pair).toList ++ rest).Perm (table.toList ++ pair :: rest) :=
      ((insertPair_perm hnodup.1.1).append_right rest).trans hmiddle
    rw [List.foldl_cons]
    exact (ih ((hinsert.map Prod.fst).nodup_iff.2 h)).trans hinsert

/-- A table of pairs for distinct names holds these pairs, in an order of its own. -/
theorem toList_ofPairs_perm {pairs : List (String × String)} (h : (pairs.map Prod.fst).Nodup) :
    (ofPairs pairs).toList.Perm pairs :=
  @toList_foldl_insert_perm empty pairs h

end RenameTable

namespace Generator

/-! ## All pairs at once -/

/-- No name is renamed twice, none is taken twice, and none that is taken is renamed. -/
structure Independent (pairs : List (String × String)) : Prop where
  before : (pairs.map Prod.fst).Nodup
  after : (pairs.map Prod.snd).Nodup
  disjoint : ∀ p ∈ pairs, ∀ q ∈ pairs, p.1 ≠ q.2

/-- What renaming all pairs at once makes of fields, up to their order: no old name is left, each new
name holds what its old name held, or else what it held itself, and nothing else changes. -/
structure RenamesTo (pairs : List (String × String)) (fields renamed : Fields Value) : Prop where
  nodup : (Fields.keys renamed).Nodup
  before : ∀ p ∈ pairs, Fields.get? p.1 renamed = none
  after : ∀ p ∈ pairs, Fields.get? p.2 renamed =
    (Fields.get? p.1 fields).or (Fields.get? p.2 fields)
  other : ∀ key, (∀ p ∈ pairs, key ≠ p.1 ∧ key ≠ p.2) →
    Fields.get? key renamed = Fields.get? key fields

theorem Independent.perm {pairs pairs' : List (String × String)} (h : Independent pairs)
    (hperm : pairs'.Perm pairs) : Independent pairs' where
  before := (hperm.map Prod.fst).nodup_iff.2 h.before
  after := (hperm.map Prod.snd).nodup_iff.2 h.after
  disjoint := fun p hp q hq => h.disjoint p (hperm.subset hp) q (hperm.subset hq)

namespace RenamesTo

variable {pairs pairs' : List (String × String)} {fields renamed renamed' : Fields Value}

/-- At once there is no order of the pairs. -/
theorem perm (h : RenamesTo pairs fields renamed) (hperm : pairs'.Perm pairs) :
    RenamesTo pairs' fields renamed where
  nodup := h.nodup
  before := fun p hp => h.before p (hperm.subset hp)
  after := fun p hp => h.after p (hperm.subset hp)
  other := fun key hkey => h.other key fun p hp => hkey p (hperm.symm.subset hp)

/-- All that is left open is the order of the fields. -/
theorem get?_eq (h : RenamesTo pairs fields renamed) (h' : RenamesTo pairs fields renamed')
    (key : String) : Fields.get? key renamed = Fields.get? key renamed' := by
  by_cases hbefore : ∃ p ∈ pairs, key = p.1
  · obtain ⟨p, hp, rfl⟩ := hbefore
    rw [h.before p hp, h'.before p hp]
  · by_cases hafter : ∃ p ∈ pairs, key = p.2
    · obtain ⟨p, hp, rfl⟩ := hafter
      rw [h.after p hp, h'.after p hp]
    · have hother : ∀ p ∈ pairs, key ≠ p.1 ∧ key ≠ p.2 := fun p hp =>
        ⟨fun hkey => hbefore ⟨p, hp, hkey⟩, fun hkey => hafter ⟨p, hp, hkey⟩⟩
      rw [h.other key hother, h'.other key hother]

end RenamesTo

/-! ## One pair after the other -/

/-- Independent pairs, one after the other, rename as if at once. The induction is on the pairs: the
later ones neither read nor write a name of the first. -/
theorem Independent.renamesTo_foldl {pairs : List (String × String)} (h : Independent pairs)
    {fields : Fields Value} (hkeys : (Fields.keys fields).Nodup) :
    RenamesTo pairs fields (pairs.foldl renameField fields) := by
  induction pairs generalizing fields with
  | nil => exact ⟨hkeys, by simp, by simp, fun _ _ => rfl⟩
  | cons p rest ih =>
    have hne : p.1 ≠ p.2 := h.disjoint p List.mem_cons_self p List.mem_cons_self
    have hold : ∀ q ∈ rest, p.1 ≠ q.1 ∧ p.1 ≠ q.2 := fun q hq =>
      ⟨fun heq => (List.nodup_cons.1 h.before).1 (heq ▸ List.mem_map_of_mem hq),
        h.disjoint p List.mem_cons_self q (List.mem_cons_of_mem _ hq)⟩
    have hnew : ∀ q ∈ rest, p.2 ≠ q.1 ∧ p.2 ≠ q.2 := fun q hq =>
      ⟨(h.disjoint q (List.mem_cons_of_mem _ hq) p List.mem_cons_self).symm,
        fun heq => (List.nodup_cons.1 h.after).1 (heq ▸ List.mem_map_of_mem hq)⟩
    have hrest : Independent rest := ⟨(List.nodup_cons.1 h.before).2, (List.nodup_cons.1 h.after).2,
      fun q hq q' hq' => h.disjoint q (List.mem_cons_of_mem _ hq) q' (List.mem_cons_of_mem _ hq')⟩
    -- What the first pair leaves, name by name.
    have hstep := fun key => get?_renameField hkeys p key
    simp only [if_neg hne] at hstep
    have hstep_ne : ∀ key, p.1 ≠ key → p.2 ≠ key →
        Fields.get? key (renameField fields p) = Fields.get? key fields := fun key h₁ h₂ => by
      rw [hstep, if_neg h₁.symm, if_neg h₂.symm]
    have hfold := ih hrest (nodup_keys_renameField hkeys p)
    rw [List.foldl_cons]
    refine ⟨hfold.nodup, fun q hq => ?_, fun q hq => ?_, fun key hkey => ?_⟩
    · rcases List.mem_cons.1 hq with rfl | hq
      · rw [hfold.other _ hold, hstep, if_pos rfl]
      · exact hfold.before q hq
    · rcases List.mem_cons.1 hq with rfl | hq
      · rw [hfold.other _ hnew, hstep, if_neg hne.symm, if_pos rfl]
      · rw [hfold.after q hq, hstep_ne q.1 (hold q hq).1 (hnew q hq).1,
          hstep_ne q.2 (hold q hq).2 (hnew q hq).2]
    · rw [List.forall_mem_cons] at hkey
      rw [hfold.other key hkey.2, hstep_ne key hkey.1.1.symm hkey.1.2.symm]

end Generator

/-- What renaming all pairs at once makes of a value: one that is no mapping has no fields. -/
inductive Value.RenamesTo (pairs : List (String × String)) : Value → Value → Prop
  | mapping {fields renamed : Fields Value} :
    Generator.RenamesTo pairs fields renamed → RenamesTo pairs (mapping fields) (mapping renamed)
  | other {value : Value} : (∀ fields, value ≠ mapping fields) → RenamesTo pairs value value

namespace Generator

section renameValue

variable {pairs pairs' : List (String × String)} (h : Independent pairs) {value : Value}
  (hkeys : value.KeysDistinct)

include h hkeys

theorem Independent.renamesTo_renameValue : value.RenamesTo pairs (renameValue pairs value) := by
  cases hkeys with
  | mapping hfields _ => exact .mapping (h.renamesTo_foldl hfields)
  | _ => exact .other (by simp)

/-- The order of independent pairs shows in the order of the fields only. -/
theorem Independent.alike_renameValue (hperm : pairs'.Perm pairs) :
    (renameValue pairs' value).Alike (renameValue pairs value) := by
  have hself := hkeys.alike_self.renameValue pairs
  cases hkeys with
  | mapping hfields _ =>
    have hrenames := h.renamesTo_foldl hfields
    have hrenames' := ((h.perm hperm).renamesTo_foldl hfields).perm hperm.symm
    refine Value.alike_mapping_iff.2 ⟨hrenames'.nodup, hrenames.nodup, fun key => ?_⟩
    rw [hrenames'.get?_eq hrenames key]
    exact (Value.alike_mapping_iff.1 hself).2.2 key
  | _ => exact hself

end renameValue

/-- **Independent renames act at once and in any order.** Let no name be renamed twice, none be taken
twice, and none that is taken be renamed. Then each result becomes what renaming all pairs at once
makes of it, the templates are left alone, and in every other order of the pairs, that of a table of
renames among them, the results are structurally equal to these, place by place. -/
theorem rename_simultaneous {pairs : List (String × String)} (h : Independent pairs) {g : Generator}
    (hkeys : ∀ value ∈ g.results, value.KeysDistinct) :
    List.Forall₂ (Value.RenamesTo pairs) g.results (g.rename pairs).results ∧
    (g.rename pairs).templates = g.templates ∧
    (∀ pairs', pairs'.Perm pairs → List.Forall₂ (fun v w => v.equal w = true)
      (g.rename pairs').results (g.rename pairs).results) ∧
    List.Forall₂ (fun v w => v.equal w = true)
      (g.rename (RenameTable.ofPairs pairs).toList).results (g.rename pairs).results := by
  have hperm : ∀ pairs', pairs'.Perm pairs → List.Forall₂ (fun v w => v.equal w = true)
      (g.rename pairs').results (g.rename pairs).results := by
    intro pairs' hperm
    simp only [rename, List.forall₂_map_left_iff, List.forall₂_map_right_iff, List.forall₂_same]
    exact fun value hvalue => (h.alike_renameValue (hkeys value hvalue) hperm).equal
  refine ⟨?_, rfl, hperm, hperm _ (RenameTable.toList_ofPairs_perm h.before)⟩
  simp only [rename, List.forall₂_map_right_iff, List.forall₂_same]
  exact fun value hvalue => h.renamesTo_renameValue (hkeys value hvalue)

/-- A booking of one guest for another, and a list. -/
def seats : Generator where
  templates := []
  results :=
    [.mapping [("to", .string "Ann"), ("for", .string "Bob"), ("seats", .sequence [.bool true])],
      .sequence [.null]]

theorem rename_simultaneous_seats :
    let pairs := [("to", "for"), ("seats", "places"), ("paid", "due")]
    Independent pairs ∧ (∀ value ∈ seats.results, value.KeysDistinct) ∧
    List.Forall₂ (Value.RenamesTo pairs) seats.results (seats.rename pairs).results ∧
    List.Forall₂ (fun v w => v.equal w = true)
      (seats.rename pairs.reverse).results (seats.rename pairs).results ∧
    (seats.rename pairs.reverse).results.map Json.compactText ≠
      (seats.rename pairs).results.map Json.compactText := by
  intro pairs
  have hpairs : Independent pairs := ⟨by decide, by decide, by decide⟩
  have hkeys : ∀ value ∈ seats.results, value.KeysDistinct := by
    intro value hvalue
    simp only [seats, List.mem_cons, List.not_mem_nil, or_false] at hvalue
    have hplaces : (Value.sequence [.bool true]).KeysDistinct := .sequence (by simp)
    rcases hvalue with rfl | rfl
    · exact .mapping (by decide) (by simp [hplaces])
    · exact .sequence (by simp)
  obtain ⟨hrenames, -, hperm, -⟩ := rename_simultaneous hpairs hkeys
  exact ⟨hpairs, hkeys, hrenames, hperm _ (List.reverse_perm pairs), by decide +kernel⟩

end Generator

end Stencil
