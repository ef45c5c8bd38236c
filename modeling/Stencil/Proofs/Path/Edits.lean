import Stencil.Proofs.Path.Naming
import Stencil.Proofs.Path.Writing

/-!
# Edits in a row

An edit at a path that is absent does nothing, so edits can be made one after another without a
thought for failure. Two of them at paths that part do not meet. Of two at paths one of which is a
beginning of the other, the edit at the shorter path comes to see what the other one has done.

* `Value.modifyAt`: the document after an edit at a path, if that is present.
* `Value.get?_modifyAt_of_apart`, `Value.modifyAt_comm`: edits at paths that part.
* `Value.modifyAt_modifyAt_append`: an edit above an earlier one.
* `Path.apart_or_same_or_above`: how two paths can lie.
-/

namespace Stencil

namespace Path

/-- Two paths part, or the texts of one are the first texts of the other. -/
theorem apart_or_prefix (p q : Path) :
    p.Apart q ∨ p.map Segment.text <+: q.map Segment.text ∨
      q.map Segment.text <+: p.map Segment.text := by
  induction p generalizing q with
  | nil => exact Or.inr (Or.inl List.nil_prefix)
  | cons s p ih =>
    cases q with
    | nil => exact Or.inr (Or.inr List.nil_prefix)
    | cons t q =>
      by_cases htext : s.text = t.text
      · simpa [apart_cons, htext, List.cons_prefix_cons] using ih q
      · exact Or.inl (apart_cons.2 (Or.inl htext))

theorem Apart.symm {p q : Path} (h : p.Apart q) : q.Apart p := by
  obtain ⟨i, s, t, hs, ht, hne⟩ := h
  exact ⟨i, t, s, ht, hs, hne.symm⟩

/-- Whether the texts of a path are the first texts of a longer path, which leads inside the place
of the first one. -/
def Above (p q : Path) : Prop :=
  p.map Segment.text <+: q.map Segment.text ∧ p.length < q.length

instance (p q : Path) : Decidable (p.Above q) :=
  inferInstanceAs (Decidable (_ ∧ _))

theorem Above.trans {p q r : Path} (h : p.Above q) (h' : q.Above r) : p.Above r :=
  ⟨h.1.trans h'.1, h.2.trans h'.2⟩

theorem map_text_of_same {p q : Path} (h : List.Forall₂ Segment.Same p q) :
    p.map Segment.text = q.map Segment.text := by
  induction h with
  | nil => rfl
  | cons hstep _ ih => rw [List.map_cons, List.map_cons, hstep.text_eq, ih]

theorem Above.of_same {p q r : Path} (h : p.Above q) (hr : List.Forall₂ Segment.Same q r) :
    p.Above r :=
  ⟨map_text_of_same hr ▸ h.1, hr.length_eq ▸ h.2⟩

section InBounds

variable {p q : Path} (hp : p.InBounds) (hq : q.InBounds)

include hp hq

/-- Two paths part, or have the same steps, or one leads inside the place of the other. -/
theorem apart_or_same_or_above :
    p.Apart q ∨ List.Forall₂ Segment.Same p q ∨ p.Above q ∨ q.Above p := by
  rcases apart_or_prefix p q with h | h | h
  · exact Or.inl h
  · rcases Nat.lt_or_ge p.length q.length with hlt | hge
    · exact Or.inr (Or.inr (Or.inl ⟨h, hlt⟩))
    · exact Or.inr (Or.inl (forall₂_same hp hq (h.eq_of_length_le (by simpa using hge))))
  · rcases Nat.lt_or_ge q.length p.length with hlt | hge
    · exact Or.inr (Or.inr (Or.inr ⟨h, hlt⟩))
    · exact Or.inr (Or.inl (forall₂_same hp hq (h.eq_of_length_le (by simpa using hge)).symm))

/-- A path that leads inside the place of another goes on behind the same steps. -/
theorem Above.exists_append (h : p.Above q) :
    ∃ p' step rest, q = p' ++ step :: rest ∧ List.Forall₂ Segment.Same p p' := by
  obtain ⟨⟨texts, htexts⟩, hlt⟩ := h
  obtain ⟨p', rest, rfl, hp', -⟩ := List.map_eq_append_iff.1 htexts.symm
  have hsame : List.Forall₂ Segment.Same p p' :=
    forall₂_same hp (fun s hs => hq s (List.mem_append_left _ hs)) hp'.symm
  cases rest with
  | nil => exact absurd hsame.length_eq (by simp at hlt; omega)
  | cons step rest => exact ⟨p', step, rest, rfl, hsame⟩

end InBounds

end Path

namespace Value

variable {f g : Value → Value} {doc : Value}

/-- The document with the value at a path edited, if the path is present. -/
def modifyAt (f : Value → Value) (doc : Value) (path : Path) : Value :=
  (doc.update? f path).getD doc

@[simp] theorem modifyAt_nil (f : Value → Value) (doc : Value) : doc.modifyAt f [] = f doc := rfl

theorem modifyAt_cons_of_some {segment : Segment} {child : Value}
    (h : doc.child? segment = some child) (f : Value → Value) (rest : Path) :
    doc.modifyAt f (segment :: rest) = doc.replaceChild segment (child.modifyAt f rest) := by
  unfold modifyAt
  cases hrest : child.update? f rest with
  | none => simp [update?, h, hrest, replaceChild_child h]
  | some child' => simp [update?, h, hrest]

theorem modifyAt_cons_of_none {segment : Segment} (h : doc.child? segment = none)
    (f : Value → Value) (rest : Path) : doc.modifyAt f (segment :: rest) = doc := by
  simp [modifyAt, update?, h]

theorem modifyAt_of_same {p q : Path} (h : List.Forall₂ Segment.Same p q) (f : Value → Value)
    (doc : Value) : doc.modifyAt f p = doc.modifyAt f q := by
  rw [modifyAt, modifyAt, update?_of_same h]

theorem modifyAt_congr {path : Path} (h : ∀ value, doc.get? path = some value → f value = g value) :
    doc.modifyAt f path = doc.modifyAt g path := by
  rw [modifyAt, modifyAt, update?_congr h]

/-! ## What one edit leaves -/

/-- An edit below a segment is an edit of the child that the segment addresses. -/
theorem child?_modifyAt_cons_of_eq {s t : Segment} (h : doc.slot? s = doc.slot? t)
    (f : Value → Value) (rest : Path) :
    (doc.modifyAt f (s :: rest)).child? t = (doc.child? t).map (modifyAt f · rest) := by
  rw [← child?_congr h]
  cases hchild : doc.child? s with
  | none => rw [modifyAt_cons_of_none hchild, ← child?_congr h, hchild, Option.map_none]
  | some child =>
    rw [modifyAt_cons_of_some hchild, child?_replaceChild_of_eq h hchild, Option.map_some]

theorem child?_modifyAt_cons_of_ne {s t : Segment} (h : doc.slot? s ≠ doc.slot? t)
    (f : Value → Value) (rest : Path) :
    (doc.modifyAt f (s :: rest)).child? t = doc.child? t := by
  cases hchild : doc.child? s with
  | none => rw [modifyAt_cons_of_none hchild]
  | some child => rw [modifyAt_cons_of_some hchild, child?_replaceChild_of_ne h]

/-- Along a path that parts from the edited one nothing changes. -/
theorem get?_modifyAt_of_apart {p q : Path} (h : p.Apart q) (f : Value → Value) (doc : Value) :
    (doc.modifyAt f p).get? q = doc.get? q := by
  induction p generalizing doc q with
  | nil => exact absurd h (Path.not_apart_nil_left q)
  | cons s p ih =>
    obtain ⟨t, q, rfl⟩ := List.exists_cons_of_ne_nil h.ne_nil
    rw [get?_cons, get?_cons]
    by_cases hslot : doc.slot? s = doc.slot? t
    · rw [child?_modifyAt_cons_of_eq hslot]
      cases hchild : doc.child? t with
      | none => rfl
      | some child =>
        have hrest := (Path.apart_cons.1 h).resolve_left fun hne =>
          slot?_ne_of_text_ne ((child?_congr hslot).trans hchild) hne hslot
        exact ih hrest child
    · rw [child?_modifyAt_cons_of_ne hslot]

/-- An edit below a path is an edit of the value that the path leads to. -/
theorem get?_modifyAt_append (f : Value → Value) (doc : Value) (p rest : Path) :
    (doc.modifyAt f (p ++ rest)).get? p = (doc.get? p).map (modifyAt f · rest) := by
  induction p generalizing doc with
  | nil => rfl
  | cons s p ih =>
    rw [List.cons_append, get?_cons, get?_cons, child?_modifyAt_cons_of_eq rfl]
    cases doc.child? s with
    | none => rfl
    | some child => exact ih child

/-! ## Two edits -/

/-- Edits at paths that part can be made in either order. -/
theorem modifyAt_comm {p q : Path} (h : p.Apart q) (f g : Value → Value) (doc : Value) :
    (doc.modifyAt f p).modifyAt g q = (doc.modifyAt g q).modifyAt f p := by
  induction p generalizing doc q with
  | nil => exact absurd h (Path.not_apart_nil_left q)
  | cons s p ih =>
    obtain ⟨t, q, rfl⟩ := List.exists_cons_of_ne_nil h.ne_nil
    by_cases hslot : doc.slot? s = doc.slot? t
    · cases hs : doc.child? s with
      | none =>
        have ht : doc.child? t = none := by rwa [← child?_congr hslot]
        rw [modifyAt_cons_of_none hs, modifyAt_cons_of_none ht, modifyAt_cons_of_none hs]
      | some child =>
        have ht : doc.child? t = some child := by rwa [← child?_congr hslot]
        have hrest := (Path.apart_cons.1 h).resolve_left fun hne =>
          slot?_ne_of_text_ne hs hne hslot
        rw [modifyAt_cons_of_some hs, modifyAt_cons_of_some ht,
          modifyAt_cons_of_some (child?_replaceChild_of_eq hslot hs _),
          modifyAt_cons_of_some (child?_replaceChild_of_eq hslot.symm ht _),
          replaceChild_replaceChild_of_eq hslot, replaceChild_replaceChild_of_eq hslot.symm,
          replaceChild_congr hslot, ih hrest]
    · -- each edit leaves the child that the other one acts on
      have hs : (doc.modifyAt g (t :: q)).child? s = doc.child? s :=
        child?_modifyAt_cons_of_ne (Ne.symm hslot) g q
      have ht : (doc.modifyAt f (s :: p)).child? t = doc.child? t :=
        child?_modifyAt_cons_of_ne hslot f p
      cases hfirst : doc.child? s with
      | none => rw [modifyAt_cons_of_none hfirst, modifyAt_cons_of_none (hs.trans hfirst)]
      | some first =>
        cases hsecond : doc.child? t with
        | none => rw [modifyAt_cons_of_none hsecond, modifyAt_cons_of_none (ht.trans hsecond)]
        | some second =>
          rw [modifyAt_cons_of_some (ht.trans hsecond), modifyAt_cons_of_some hfirst,
            modifyAt_cons_of_some (hs.trans hfirst), modifyAt_cons_of_some hsecond,
            replaceChild_comm hslot]

/-- An edit at a path sees what an edit below the path has done. -/
theorem modifyAt_modifyAt_append (f g : Value → Value) (doc : Value) (p rest : Path) :
    (doc.modifyAt g (p ++ rest)).modifyAt f p =
      doc.modifyAt (fun value => f (value.modifyAt g rest)) p := by
  induction p generalizing doc with
  | nil => rfl
  | cons s p ih =>
    rw [List.cons_append]
    cases hchild : doc.child? s with
    | none => simp only [modifyAt_cons_of_none hchild]
    | some child =>
      rw [modifyAt_cons_of_some hchild, modifyAt_cons_of_some hchild,
        modifyAt_cons_of_some (child?_replaceChild_self _ hchild), replaceChild_replaceChild, ih]

end Value

end Stencil
