import Mathlib.Data.List.Infix
import Stencil.Proofs.Path.Slot

/-!
# Writing along a path

A write walks to the container of its last segment and puts the value there. It fails where the walk
cannot go on, or where the last segment is no place of the container, and then leaves the document
as it was. A write that succeeds is seen below its path and nowhere else.

* `Value.reach`: how far a path is present.
* `Value.Puts`: all that a write can do, one case for each step.
* `Value.write_outcome`: when a write succeeds, and the error and the document if it does not.
* `Value.set_overwrites`: what a write leaves to be read, and how it agrees with an edit.
-/

namespace Stencil

/-! ## Paths that part -/

/-- Whether the texts of two paths differ at some position that both have. -/
def Path.Apart (p q : Path) : Prop :=
  ∃ (i : Nat) (s t : Segment), p[i]? = some s ∧ q[i]? = some t ∧ s.text ≠ t.text

theorem Path.apart_cons {s t : Segment} {p q : Path} :
    Path.Apart (s :: p) (t :: q) ↔ s.text ≠ t.text ∨ Path.Apart p q := by
  constructor
  · rintro ⟨i, s', t', hs, ht, hne⟩
    cases i with
    | zero =>
      obtain rfl : s = s' := by simpa using hs
      obtain rfl : t = t' := by simpa using ht
      exact Or.inl hne
    | succ i => exact Or.inr ⟨i, s', t', by simpa using hs, by simpa using ht, hne⟩
  · rintro (hne | ⟨i, s', t', hs, ht, hne⟩)
    · exact ⟨0, s, t, rfl, rfl, hne⟩
    · exact ⟨i + 1, s', t', by simpa using hs, by simpa using ht, hne⟩

theorem Path.not_apart_nil_left (q : Path) : ¬Path.Apart [] q := by
  rintro ⟨i, s, t, hs, -⟩
  simp at hs

theorem Path.Apart.ne_nil {p q : Path} (h : p.Apart q) : q ≠ [] := by
  rintro rfl
  obtain ⟨i, s, t, -, ht, -⟩ := h
  simp at ht

namespace Value

theorem slot?_ne_of_text_ne {value child : Value} {s t : Segment}
    (hchild : value.child? s = some child) (h : s.text ≠ t.text) :
    value.slot? s ≠ value.slot? t := by
  cases value with
  | mapping fields => simpa [slot?] using h
  | sequence items =>
    obtain ⟨position, hs, -⟩ := Option.bind_eq_some_iff.1 hchild
    intro hslot
    have ht : t.index? = some position := by
      rw [← hs]
      exact Option.map_injective (fun _ _ => Segment.index.inj) hslot.symm
    exact h (by rw [Segment.text_of_index? hs, Segment.text_of_index? ht])
  | _ => cases hchild

/-! ## How far a path is present -/

/-- The number of leading segments of a path that are present. -/
def reach (doc : Value) : Path → Nat
  | [] => 0
  | segment :: rest =>
    match doc.child? segment with
    | some child => child.reach rest + 1
    | none => 0

/-- A beginning of a path is present exactly when it is no longer than the path is present. -/
theorem has_take_iff {doc : Value} {path : Path} {n : Nat} (h : n ≤ path.length) :
    doc.Has (path.take n) ↔ n ≤ doc.reach path := by
  induction path generalizing doc n with
  | nil => simp [Has, show n = 0 by simpa using h]
  | cons segment rest ih =>
    cases n with
    | zero => simp [Has]
    | succ n =>
      rw [List.take_succ_cons, Has, get?_cons, reach]
      cases doc.child? segment with
      | none => simp
      | some child => simpa [Has] using @ih child n (by simpa using h)

/-! ## The steps of a write -/

theorem isDocument_of_child? {value child : Value} {segment : Segment}
    (h : value.child? segment = some child) : value.IsDocument := by
  cases value with
  | mapping fields => trivial
  | sequence items => trivial
  | _ => cases h

/-- Whether a value can be written under a segment of a container: in a mapping always, in a
sequence at a position that it has. -/
def Admits (segment : Segment) : Value → Prop
  | mapping _ => True
  | sequence items => ∃ position, segment.index? = some position ∧ position < items.length
  | _ => False

/-- What a write of `value` under the segments to the container and the last one makes of a
document. -/
inductive Puts (value : Value) (last : Segment) : Value → Path → Value → Prop
  /-- A field is added to a mapping, or overwritten. -/
  | field (fields : Fields Value) :
    Puts value last (.mapping fields) [] (.mapping (Fields.insert last.text value fields))
  | element {items : List Value} {position : Nat} (hposition : last.index? = some position)
    (hlt : position < items.length) :
    Puts value last (.sequence items) [] (.sequence (items.set position value))
  /-- The value is written into a child, which keeps its place. -/
  | inChild {doc child child' : Value} {segment : Segment} {rest : Path}
    (hchild : doc.child? segment = some child) (h : Puts value last child rest child') :
    Puts value last doc (segment :: rest) (doc.replaceChild segment child')

section Steps

variable {value doc doc' container : Value} {last : Segment} {parents : Path} {text : String}

theorem writeLast_eq_ok_iff :
    writeLast text last value doc = (doc', .ok ()) ↔ Puts value last doc [] doc' := by
  constructor
  · intro h
    cases doc with
    | mapping fields =>
      obtain rfl : _ = doc' := congrArg Prod.fst h
      exact .field fields
    | sequence items =>
      simp only [writeLast] at h
      split at h
      · rename_i position hposition
        split at h
        · rename_i hlt
          obtain rfl : _ = doc' := congrArg Prod.fst h
          exact .element hposition hlt
        · cases congrArg Prod.snd h
      · cases congrArg Prod.snd h
    | _ => cases congrArg Prod.snd h
  · intro h
    cases h with
    | field fields => rfl
    | element hposition hlt => simp [writeLast, hposition, hlt]

theorem writeBelow_eq_ok_iff :
    writeBelow text last value doc parents = (doc', .ok ()) ↔ Puts value last doc parents doc' := by
  induction parents generalizing doc doc' with
  | nil => exact writeLast_eq_ok_iff
  | cons segment rest ih =>
    rw [writeBelow]
    constructor
    · intro h
      split at h
      · split at h
        · rename_i child hchild
          obtain ⟨hdoc, houtcome⟩ := Prod.mk.inj h
          subst hdoc
          exact .inChild hchild (ih.1 (Prod.ext rfl houtcome))
        · cases congrArg Prod.snd h
      · cases congrArg Prod.snd h
    · rintro (_ | _ | ⟨hchild, h⟩)
      rw [if_pos (isDocument_of_child? hchild), hchild]
      simp only [ih.2 h]

/-- A write succeeds exactly when its container is present and admits the last segment. -/
theorem exists_puts_iff :
    (∃ doc', Puts value last doc parents doc') ↔
      ∃ container, doc.get? parents = some container ∧ container.Admits last := by
  induction parents generalizing doc with
  | nil =>
    simp only [get?_nil, Option.some.injEq, exists_eq_left']
    constructor
    · rintro ⟨_, _ | ⟨hposition, hlt⟩⟩
      · trivial
      · exact ⟨_, hposition, hlt⟩
    · intro h
      cases doc with
      | mapping fields => exact ⟨_, .field fields⟩
      | sequence items =>
        obtain ⟨position, hposition, hlt⟩ := h
        exact ⟨_, .element hposition hlt⟩
      | _ => cases h
  | cons segment rest ih =>
    rw [get?_cons]
    constructor
    · rintro ⟨_, _ | _ | ⟨hchild, h⟩⟩
      rw [hchild]
      exact ih.1 ⟨_, h⟩
    · rintro ⟨container, hget, hadmits⟩
      obtain ⟨child, hchild, hrest⟩ := Option.bind_eq_some_iff.1 hget
      obtain ⟨child', h⟩ := ih.2 ⟨container, hrest, hadmits⟩
      exact ⟨_, .inChild hchild h⟩

theorem writeLast_fst_of_error {error : WriteError}
    (h : (writeLast text last value doc).2 = .error error) :
    (writeLast text last value doc).1 = doc := by
  cases doc with
  | mapping fields => cases h
  | sequence items =>
    simp only [writeLast] at h ⊢
    split
    · split
      · simp_all
      · rfl
    · rfl
  | _ => rfl

/-- A write that fails leaves the document as it was: on the way back every child is put where it
was. -/
theorem writeBelow_fst_of_error {error : WriteError}
    (h : (writeBelow text last value doc parents).2 = .error error) :
    (writeBelow text last value doc parents).1 = doc := by
  induction parents generalizing doc with
  | nil => exact writeLast_fst_of_error h
  | cons segment rest ih =>
    rw [writeBelow] at h ⊢
    split
    · rename_i hdoc
      rw [if_pos hdoc] at h
      split
      · rename_i child hchild
        simp only [hchild] at h
        simp only [ih h, replaceChild_child hchild]
      · rfl
    · rfl

/-- Where a parent is absent, the write stops in front of it. -/
theorem writeBelow_snd_of_absent {segment : Segment}
    (hsegment : parents[doc.reach parents]? = some segment) :
    ∃ found, doc.get? (parents.take (doc.reach parents)) = some found ∧
      (writeBelow text last value doc parents).2 =
        .error (if found.IsDocument then .missingSegment text segment.text
          else .notAContainer text segment.text) := by
  induction parents generalizing doc with
  | nil => simp at hsegment
  | cons first rest ih =>
    rw [reach] at hsegment ⊢
    rw [writeBelow]
    cases hchild : doc.child? first with
    | none =>
      simp only [hchild] at hsegment
      obtain rfl : first = segment := by simpa using hsegment
      refine ⟨doc, rfl, ?_⟩
      by_cases hdoc : doc.IsDocument <;> simp [hdoc]
    | some child =>
      simp only [hchild] at hsegment
      obtain ⟨found, hfound, hwrite⟩ := @ih child (by simpa using hsegment)
      refine ⟨found, by simpa [hchild] using hfound, ?_⟩
      rw [if_pos (isDocument_of_child? hchild)]
      exact hwrite

/-- Where all parents are present, the outcome of the write is that at the container. -/
theorem writeBelow_snd_of_get? (hget : doc.get? parents = some container) :
    (writeBelow text last value doc parents).2 = (writeLast text last value container).2 := by
  induction parents generalizing doc with
  | nil => rw [writeBelow, Option.some.inj hget]
  | cons segment rest ih =>
    obtain ⟨child, hchild, hrest⟩ := Option.bind_eq_some_iff.1 hget
    rw [writeBelow, if_pos (isDocument_of_child? hchild), hchild]
    exact ih hrest

theorem writeLast_snd_of_not_isDocument (h : ¬doc.IsDocument) :
    (writeLast text last value doc).2 = .error (.notAContainer text last.text) := by
  cases doc with
  | mapping fields => exact absurd trivial h
  | sequence items => exact absurd trivial h
  | _ => rfl

theorem writeLast_snd_of_not_admits {items : List Value} (h : ¬(sequence items).Admits last) :
    (writeLast text last value (sequence items)).2 =
      .error (.indexOutOfBounds text last.text items.length) := by
  rw [writeLast]
  split
  · rename_i position hposition
    rw [if_neg fun hlt => h ⟨position, hposition, hlt⟩]
  · rfl

end Steps

/-- **When a write succeeds, and what it leaves if it does not.** A write succeeds exactly when the
value at the parents of the last segment is a mapping, or a sequence that has the position of the
last segment. Otherwise the document is as it was; the error names the first parent that is absent,
which stands behind all those that are present, or the last segment if there is none, and it holds
the text of the whole path. -/
theorem write_outcome (doc value : Value) (parents : Path) (last : Segment) :
    ((doc.write (parents ++ [last]) value).2 = .ok () ↔
      ∃ container, doc.get? parents = some container ∧ container.Admits last) ∧
    ((doc.write (parents ++ [last]) value).2 ≠ .ok () →
      (doc.write (parents ++ [last]) value).1 = doc) ∧
    (∀ n, n ≤ parents.length → (doc.Has (parents.take n) ↔ n ≤ doc.reach parents)) ∧
    (∀ segment, parents[doc.reach parents]? = some segment →
      ∃ found, doc.get? (parents.take (doc.reach parents)) = some found ∧
        (doc.write (parents ++ [last]) value).2 =
          .error (if found.IsDocument then
            .missingSegment (Path.text (parents ++ [last])) segment.text
          else .notAContainer (Path.text (parents ++ [last])) segment.text)) ∧
    (∀ container, doc.get? parents = some container → ¬container.IsDocument →
      (doc.write (parents ++ [last]) value).2 =
        .error (.notAContainer (Path.text (parents ++ [last])) last.text)) ∧
    (∀ items, doc.get? parents = some (.sequence items) → ¬(sequence items).Admits last →
      (doc.write (parents ++ [last]) value).2 =
        .error (.indexOutOfBounds (Path.text (parents ++ [last])) last.text items.length)) := by
  rw [write_concat]
  have hok : (writeBelow (Path.text (parents ++ [last])) last value doc parents).2 = .ok () ↔
      ∃ doc', Puts value last doc parents doc' :=
    ⟨fun h => ⟨_, writeBelow_eq_ok_iff.1 (Prod.ext rfl h)⟩,
      fun ⟨_, h⟩ => congrArg Prod.snd (writeBelow_eq_ok_iff.2 h)⟩
  refine ⟨hok.trans exists_puts_iff, fun h => ?_, fun n => has_take_iff,
    fun segment => writeBelow_snd_of_absent, fun container hget hleaf => ?_,
    fun items hget hadmits => ?_⟩
  · cases houtcome : (writeBelow (Path.text (parents ++ [last])) last value doc parents).2 with
    | ok _ => exact absurd houtcome h
    | error error => exact writeBelow_fst_of_error houtcome
  · rw [writeBelow_snd_of_get? hget, writeLast_snd_of_not_isDocument hleaf]
  · rw [writeBelow_snd_of_get? hget, writeLast_snd_of_not_admits hadmits]

/-! ## What a write leaves to be read -/

namespace Puts

variable {value doc doc' : Value} {last : Segment} {parents : Path}

/-- The value is read under the path. -/
theorem get?_append (h : Puts value last doc parents doc') (rest : Path) :
    doc'.get? (parents ++ last :: rest) = value.get? rest := by
  induction h with
  | field fields => simp [child?, Fields.get?_insert_self]
  | element hposition hlt => simp [child?, hposition, hlt]
  | inChild hchild _ ih =>
    rw [List.cons_append, get?_cons, child?_replaceChild_self _ hchild]
    exact ih

/-- Nothing else is read along a path that parts from it. -/
theorem get?_apart (h : Puts value last doc parents doc') {q : Path}
    (hq : Path.Apart (parents ++ [last]) q) : doc'.get? q = doc.get? q := by
  induction h generalizing q with
  | field fields =>
    obtain ⟨t, q, rfl⟩ := List.exists_cons_of_ne_nil hq.ne_nil
    have hne : last.text ≠ t.text :=
      (Path.apart_cons.1 hq).resolve_right (Path.not_apart_nil_left q)
    simp only [get?_cons, child?, Fields.get?_insert_of_ne hne.symm]
  | @element items position hposition hlt =>
    obtain ⟨t, q, rfl⟩ := List.exists_cons_of_ne_nil hq.ne_nil
    have hne : last.text ≠ t.text :=
      (Path.apart_cons.1 hq).resolve_right (Path.not_apart_nil_left q)
    have hother : ∀ n, t.index? = some n → position ≠ n := by
      rintro n ht rfl
      exact hne (by rw [Segment.text_of_index? hposition, Segment.text_of_index? ht])
    cases ht : t.index? with
    | none => simp [child?, ht]
    | some n => simp [child?, ht, List.getElem?_set_ne (hother n ht)]
  | @inChild doc child child' segment rest hchild _ ih =>
    obtain ⟨t, q, rfl⟩ := List.exists_cons_of_ne_nil hq.ne_nil
    rw [List.cons_append, Path.apart_cons] at hq
    by_cases hslot : doc.slot? segment = doc.slot? t
    · have hrest : Path.Apart (rest ++ [last]) q :=
        hq.resolve_left fun hne => slot?_ne_of_text_ne hchild hne hslot
      rw [get?_cons, get?_cons, child?_replaceChild_of_eq hslot hchild, ← child?_congr hslot,
        hchild]
      exact ih hrest
    · rw [get?_cons, get?_cons, child?_replaceChild_of_ne hslot]

/-- Above the path only the container of the last segment can change its shape, by a key that is new
and comes last. -/
theorem shape_above (h : Puts value last doc parents doc') {r : Path} (hr : r <+: parents) :
    ∃ before after, doc.get? r = some before ∧ doc'.get? r = some after ∧
      (after.shape = before.shape ∨ ∃ keys, r = parents ∧ before.shape = .mapping keys ∧
        last.text ∉ keys ∧ after.shape = .mapping (keys ++ [last.text])) := by
  induction h generalizing r with
  | field fields =>
    obtain rfl := List.prefix_nil.1 hr
    refine ⟨_, _, rfl, rfl, ?_⟩
    by_cases hkey : last.text ∈ Fields.keys fields
    · exact Or.inl (by simp only [shape, Fields.keys_insert_of_mem hkey])
    · exact Or.inr ⟨_, rfl, rfl, hkey, by simp only [shape, Fields.keys_insert_of_notMem hkey]⟩
  | element hposition hlt =>
    obtain rfl := List.prefix_nil.1 hr
    exact ⟨_, _, rfl, rfl, Or.inl (by simp [shape])⟩
  | @inChild doc child child' segment rest hchild _ ih =>
    cases r with
    | nil => exact ⟨_, _, rfl, rfl, Or.inl (shape_replaceChild ..)⟩
    | cons t r =>
      obtain ⟨rfl, hrest⟩ := List.cons_prefix_cons.1 hr
      obtain ⟨before, after, hbefore, hafter, hshape⟩ := ih hrest
      refine ⟨before, after, ?_, ?_, ?_⟩
      · simpa [hchild] using hbefore
      · simpa [child?_replaceChild_self _ hchild] using hafter
      · refine hshape.imp id ?_
        rintro ⟨keys, rfl, hkeys⟩
        exact ⟨keys, rfl, hkeys⟩

/-- A second write at the path leaves what it would have left without the first one. -/
theorem again (h : Puts value last doc parents doc') (other : Value) :
    ∃ doc'', Puts other last doc parents doc'' ∧ Puts other last doc' parents doc'' := by
  induction h with
  | field fields =>
    refine ⟨_, .field fields, ?_⟩
    rw [← Fields.insert_insert last.text value other fields]
    exact .field _
  | @element items position hposition hlt =>
    refine ⟨_, .element hposition hlt, ?_⟩
    rw [← List.set_set value (b := other)]
    exact .element hposition (by simpa using hlt)
  | @inChild doc child child' segment rest hchild _ ih =>
    obtain ⟨child'', h, h'⟩ := ih
    refine ⟨_, .inChild hchild h, ?_⟩
    rw [← replaceChild_replaceChild doc segment child' child'']
    exact .inChild (child?_replaceChild_self _ hchild) h'

/-- Writing the value that is there changes nothing. -/
theorem eq_of_get? (h : Puts value last doc parents doc')
    (hget : doc.get? (parents ++ [last]) = some value) : doc' = doc := by
  induction h with
  | field fields =>
    have hvalue : Fields.get? last.text fields = some value := by simpa [child?] using hget
    have hkey := Fields.get?_isSome_iff.1 (Option.isSome_of_eq_some hvalue)
    rw [Fields.insert_eq_modify hkey, Fields.modify_of_get? hvalue]
  | element hposition hlt =>
    have hitem := (List.getElem?_eq_some_iff.1 (by simpa [child?, hposition] using hget)).2
    rw [← hitem, List.set_getElem_self]
  | inChild hchild _ ih =>
    rw [ih (by simpa [hchild] using hget), replaceChild_child hchild]

end Puts

/-- Writing at a path that is present is editing there. -/
theorem exists_puts_of_has {doc : Value} {parents : Path} {last : Segment}
    (h : doc.Has (parents ++ [last])) (value : Value) :
    ∃ doc', Puts value last doc parents doc' ∧
      doc.update? (fun _ => value) (parents ++ [last]) = some doc' := by
  induction parents generalizing doc with
  | nil =>
    obtain ⟨found, hfound⟩ : ∃ found, doc.child? last = some found := by
      simpa [Has, Option.isSome_iff_exists] using h
    simp only [List.nil_append, update?, hfound, Option.bind_some, Option.map_some]
    cases doc with
    | mapping fields =>
      have hkey := Fields.get?_isSome_iff.1 (Option.isSome_of_eq_some hfound)
      refine ⟨_, .field fields, ?_⟩
      simp only [replaceChild, Fields.insert_eq_modify hkey]
    | sequence items =>
      obtain ⟨position, hposition, hitem⟩ := Option.bind_eq_some_iff.1 hfound
      refine ⟨_, .element hposition (List.getElem?_eq_some_iff.1 hitem).1, ?_⟩
      simp only [replaceChild, hposition]
    | _ => cases hfound
  | cons segment rest ih =>
    cases hchild : doc.child? segment with
    | none => simp [Has, hchild] at h
    | some child =>
      obtain ⟨child', hputs, hupdate⟩ := @ih child (by simpa [Has, hchild] using h)
      exact ⟨_, .inChild hchild hputs, by simp [update?, hchild, hupdate]⟩

/-- What a document has to do with the one into which `value` was written at `path`. -/
structure Overwrites (doc : Value) (path : Path) (value doc' : Value) : Prop where
  /-- Under the path the written value is read. -/
  get?_append : ∀ rest, doc'.get? (path ++ rest) = value.get? rest
  get?_apart : ∀ q, path.Apart q → doc'.get? q = doc.get? q
  /-- Above the path shapes are kept, but that a new last key comes behind the others. -/
  shape_above : ∀ r, r <+: path → r ≠ path → ∃ before after, doc.get? r = some before ∧
    doc'.get? r = some after ∧ (after.shape = before.shape ∨
      ∃ last keys, path = r ++ [last] ∧ before.shape = .mapping keys ∧ last.text ∉ keys ∧
        after.shape = .mapping (keys ++ [last.text]))
  /-- A second write leaves what it would have left without the first. -/
  set_again : ∀ other, doc'.set path other = doc.set path other
  eq_of_get? : doc.get? path = some value → doc' = doc

theorem set_concat_eq_ok_iff {doc value doc' : Value} {parents : Path} {last : Segment} :
    doc.set (parents ++ [last]) value = .ok doc' ↔ Puts value last doc parents doc' := by
  rw [set_eq_ok_iff, write_concat, writeBelow_eq_ok_iff]

theorem overwrites_of_set {doc value doc' : Value} {path : Path}
    (h : doc.set path value = .ok doc') : Overwrites doc path value doc' := by
  rcases List.eq_nil_or_concat' path with rfl | ⟨parents, last, rfl⟩
  · obtain rfl : value = doc' := Except.ok.inj h
    exact {
      get?_append := fun rest => rfl
      get?_apart := fun q hq => absurd hq (Path.not_apart_nil_left q)
      shape_above := fun r hr hne => absurd (List.prefix_nil.1 hr) hne
      set_again := fun other => rfl
      eq_of_get? := fun hget => (Option.some.inj hget).symm }
  · rw [set_concat_eq_ok_iff] at h
    exact {
      get?_append := fun rest => by simpa using h.get?_append rest
      get?_apart := fun q hq => h.get?_apart hq
      shape_above := fun r hr hne => by
        have hparents : r <+: parents := (List.prefix_concat_iff.1 hr).resolve_left hne
        obtain ⟨before, after, hbefore, hafter, hshape⟩ := h.shape_above hparents
        refine ⟨before, after, hbefore, hafter, hshape.imp id ?_⟩
        rintro ⟨keys, rfl, hkeys⟩
        exact ⟨last, keys, rfl, hkeys⟩
      set_again := fun other => by
        obtain ⟨doc'', hfirst, hsecond⟩ := h.again other
        rw [set_concat_eq_ok_iff.2 hfirst, set_concat_eq_ok_iff.2 hsecond]
      eq_of_get? := h.eq_of_get? }

/-- **Writing, reading and editing agree.** -/
theorem set_overwrites (doc value : Value) (path : Path) :
    (∀ doc', doc.set path value = .ok doc' → Overwrites doc path value doc') ∧
    (doc.Has path → ∃ doc', doc.set path value = .ok doc' ∧
      doc.update? (fun _ => value) path = some doc') ∧
    (¬doc.Has path → ∀ f, doc.update? f path = none) ∧
    (∀ f, (doc.update? f path).isSome ↔ (doc.get? path).isSome) ∧
    (∀ f found, doc.get? path = some found →
      doc.update? f path = doc.update? (fun _ => f found) path) := by
  refine ⟨fun _ => overwrites_of_set, fun h => ?_, fun h f => ?_, fun f => update?_isSome_iff,
    fun f found hfound => update?_congr fun value hvalue => ?_⟩
  · rcases List.eq_nil_or_concat' path with rfl | ⟨parents, last, rfl⟩
    · exact ⟨value, rfl, rfl⟩
    · obtain ⟨doc', hputs, hupdate⟩ := exists_puts_of_has h value
      exact ⟨doc', set_concat_eq_ok_iff.2 hputs, hupdate⟩
  · rw [← update?_isSome_iff (f := f), Option.not_isSome_iff_eq_none] at h
    exact h
  · rw [Option.some.inj (hvalue.symm.trans hfound)]

end Value

end Stencil
