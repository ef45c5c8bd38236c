import Mathlib.Data.List.Forall2
import Stencil.Proofs.Path.Slot
import Stencil.Proofs.Selector.Repetition
import Stencil.Selector.Basic

/-!
# The text of a path names its place

An index and a key with its decimal text are one and the same step: on a mapping only the text of a
segment counts, on a sequence only its position, and below the bound for indices the text decides
the position. So paths with the same dotted text read, edit and write alike, as long as no dot in a
segment blurs where one segment ends and the next begins. The paths that a selector finds have no
such dot.

* `Path.map_text_eq`: the dotted text gives back the texts of the segments.
* `Path.SameEffect`: reading, editing and writing alike in every document.
* `Selector.dot_notMem_of_mem_resolveSteps`: the paths found by a selector have no dot in a segment.
* `Path.sameEffect_of_text_eq`: the dotted text names the place.
-/

namespace Stencil

/-! ## Segments with the same text -/

namespace Segment

/-- Whether the segment is a key, or an index below the bound for indices. -/
def InBounds : Segment → Prop
  | key _ => True
  | index position => position < indexBound

instance : DecidablePred InBounds
  | key _ => inferInstanceAs (Decidable True)
  | index position => inferInstanceAs (Decidable (position < indexBound))

/-- Whether two segments are the same step on mappings and on sequences. -/
structure Same (s t : Segment) : Prop where
  text_eq : s.text = t.text
  index?_eq : s.index? = t.index?

theorem index?_key_text {segment : Segment} (h : segment.InBounds) :
    (key segment.text).index? = segment.index? := by
  cases segment with
  | key text => rfl
  | index position => exact index?_key_eq_some_iff.2 ⟨h, rfl⟩

theorem same_of_text_eq {s t : Segment} (hs : s.InBounds) (ht : t.InBounds)
    (h : s.text = t.text) : s.Same t where
  text_eq := h
  index?_eq := by rw [← index?_key_text hs, ← index?_key_text ht, h]

theorem dot_notMem_repr (position : Nat) : '.' ∉ position.repr.toList := by
  intro h
  have hmem : '.' ∈ Nat.toDigits 10 position := by simpa [Nat.repr] using h
  exact absurd (Nat.isDigit_of_mem_toDigits (by decide) (by decide) hmem) (by decide)

end Segment

/-! ## Paths with the same segments -/

namespace Value

theorem slot?_of_same {s t : Segment} (h : s.Same t) (value : Value) :
    value.slot? s = value.slot? t := by
  cases value with
  | mapping fields => simp only [slot?, h.text_eq]
  | sequence items => simp only [slot?, h.index?_eq]
  | _ => rfl

section Same

variable {p q : Path} (h : List.Forall₂ Segment.Same p q)

include h

theorem get?_of_same (doc : Value) : doc.get? p = doc.get? q := by
  induction h generalizing doc with
  | nil => rfl
  | cons hstep _ ih =>
    rw [get?_cons, get?_cons, child?_congr (slot?_of_same hstep doc)]
    exact congrArg _ (funext ih)

theorem update?_of_same (f : Value → Value) (doc : Value) : doc.update? f p = doc.update? f q := by
  induction h generalizing doc with
  | nil => rfl
  | cons hstep _ ih =>
    have hslot := slot?_of_same hstep doc
    simp only [update?, child?_congr hslot, ih, replaceChild_congr hslot]

theorem writeBelow_of_same {s t : Segment} (hlast : s.Same t) (text : String)
    (value doc : Value) : writeBelow text s value doc p = writeBelow text t value doc q := by
  induction h generalizing doc with
  | nil =>
    cases doc <;> simp only [writeBelow, writeLast, hlast.text_eq, hlast.index?_eq]
  | cons hstep _ ih =>
    have hslot := slot?_of_same hstep doc
    simp only [writeBelow, child?_congr hslot, ih, replaceChild_congr hslot, hstep.text_eq]

theorem write_of_same (htext : p.text = q.text) (doc value : Value) :
    doc.write p value = doc.write q value := by
  rcases List.eq_nil_or_concat p with rfl | ⟨parents, last, rfl⟩
  · cases h
    rfl
  rcases List.eq_nil_or_concat q with rfl | ⟨parents', last', rfl⟩
  · exact absurd h.length_eq (by simp)
  simp only [List.concat_eq_append] at h htext ⊢
  have hlength : parents.length = parents'.length := by simpa using h.length_eq
  have hparents : List.Forall₂ Segment.Same parents parents' := by
    simpa [← hlength] using List.forall₂_take_append _ _ _ h
  have hlast : last.Same last' := by
    simpa [← hlength] using List.forall₂_drop_append _ _ _ h
  rw [write_concat, write_concat, htext]
  exact writeBelow_of_same hparents hlast _ value doc

end Same

end Value

/-! ## The dotted text -/

namespace Path

/-- Whether the indices of a path are below the bound. -/
def InBounds (path : Path) : Prop :=
  ∀ segment ∈ path, segment.InBounds

instance : DecidablePred InBounds := fun path =>
  inferInstanceAs (Decidable (∀ segment ∈ path, segment.InBounds))

/-- A path that its dotted text names: it has a segment, no segment has a dot in its text, and its
indices are below the bound. -/
structure Nameable (path : Path) : Prop where
  ne_nil : path ≠ []
  dot_notMem : ∀ segment ∈ path, '.' ∉ segment.text.toList
  inBounds : path.InBounds

instance (path : Path) : Decidable (Nameable path) :=
  decidable_of_iff (path ≠ [] ∧ (∀ segment ∈ path, '.' ∉ segment.text.toList) ∧ path.InBounds)
    ⟨fun h => ⟨h.1, h.2.1, h.2.2⟩, fun h => ⟨h.ne_nil, h.dot_notMem, h.inBounds⟩⟩

/-- Whether two paths do the same in every document: they read the same value, edit the same value
and write with the same result, errors included. -/
structure SameEffect (p q : Path) : Prop where
  get?_eq : ∀ doc : Value, doc.get? p = doc.get? q
  has_iff : ∀ doc : Value, doc.Has p ↔ doc.Has q
  update?_eq : ∀ (f : Value → Value) (doc : Value), doc.update? f p = doc.update? f q
  write_eq : ∀ doc value : Value, doc.write p value = doc.write q value

/-- Cut at its dots, the text of a path gives back the texts of its segments. -/
theorem splitOn_text {path : Path} (hne : path ≠ [])
    (hdot : ∀ segment ∈ path, '.' ∉ segment.text.toList) :
    path.text.toList.splitOn '.' = path.map fun segment => segment.text.toList := by
  have htext : path.text.toList =
      ['.'].intercalate (path.map fun segment => segment.text.toList) := by
    simp [text, String.toList_intercalate, Function.comp_def]
  rw [htext]
  exact List.splitOn_intercalate '.' (by simpa using hdot) (by simpa using hne)

theorem map_text_eq {p q : Path} (hp : p.Nameable) (hq : q.Nameable) (h : p.text = q.text) :
    p.map Segment.text = q.map Segment.text := by
  have htexts := congrArg (fun text => (text.toList.splitOn '.').map String.ofList) h
  simpa [splitOn_text hp.ne_nil hp.dot_notMem, splitOn_text hq.ne_nil hq.dot_notMem,
    Function.comp_def] using htexts

theorem forall₂_same {p q : Path} (hp : p.InBounds) (hq : q.InBounds)
    (h : p.map Segment.text = q.map Segment.text) : List.Forall₂ Segment.Same p q := by
  induction p generalizing q with
  | nil =>
    obtain rfl : q = [] := by simpa using h.symm
    exact List.Forall₂.nil
  | cons s p ih =>
    cases q with
    | nil => simp at h
    | cons t q =>
      obtain ⟨htext, hrest⟩ := List.cons.inj h
      rw [InBounds, List.forall_mem_cons] at hp hq
      exact List.Forall₂.cons (Segment.same_of_text_eq hp.1 hq.1 htext) (ih hp.2 hq.2 hrest)

theorem ofText_text {path : Path} (h : path.Nameable) :
    ofText path.text = path.map fun segment => .key segment.text := by
  simp [ofText, splitOn_text h.ne_nil h.dot_notMem]

/-- The path of keys with the same text is nameable as well. -/
theorem Nameable.ofText_text {path : Path} (h : path.Nameable) :
    (ofText path.text).Nameable ∧ (ofText path.text).text = path.text := by
  rw [Path.ofText_text h]
  refine ⟨⟨by simpa using h.ne_nil, ?_, ?_⟩, ?_⟩
  · simpa using h.dot_notMem
  · simp [InBounds, Segment.InBounds]
  · simp [text, Function.comp_def]

end Path

/-! ## The paths that selectors find -/

namespace Selector

/-- No part of a text that is cut at a character holds that character. -/
theorem notMem_of_mem_splitOn {c : Char} {text part : List Char} (h : part ∈ text.splitOn c) :
    c ∉ part := by
  induction text generalizing part with
  | nil =>
    obtain rfl : part = [] := by simpa using h
    simp
  | cons d rest ih =>
    rw [List.splitOn_cons_eq_if_modifyHead] at h
    split at h
    · rcases List.mem_cons.1 h with rfl | h
      · simp
      · exact ih h
    · rename_i hd
      obtain ⟨first, others, hfirst⟩ := List.exists_cons_of_ne_nil (List.splitOn_ne_nil c rest)
      rw [hfirst, List.modifyHead_cons] at h
      rcases List.mem_cons.1 h with rfl | h
      · have hc : c ≠ d := fun hcd => hd (by simp [hcd])
        simpa [hc] using ih (hfirst ▸ List.mem_cons_self)
      · exact ih (hfirst ▸ List.mem_cons_of_mem _ h)

theorem dot_notMem_of_mem_resolveSteps {text : List Char} {doc : Value} {path : Path}
    (h : path ∈ resolveSteps (stepsOfText text) doc) :
    path ≠ [] ∧ ∀ segment ∈ path, '.' ∉ segment.text.toList := by
  have hinst : Instantiates (some doc) (text.splitOn '.') path := mem_resolveBelow.1 h
  have hlength := hinst.length_eq
  refine ⟨?_, fun segment hsegment => ?_⟩
  · rintro rfl
    exact List.splitOn_ne_nil '.' text (List.length_eq_zero_iff.1 hlength.symm)
  · obtain ⟨i, hi, rfl⟩ := List.getElem_of_mem hsegment
    have hfits := hinst.fits i _ _ (List.getElem?_eq_getElem (hlength ▸ hi))
      (List.getElem?_eq_getElem hi)
    unfold Fits at hfits
    split at hfits
    · obtain ⟨position, -, hindex, -⟩ := hfits
      rw [hindex]
      exact Segment.dot_notMem_repr position
    · rw [hfits]
      simpa using notMem_of_mem_splitOn (List.getElem_mem _)

end Selector

namespace Path

/-- **The dotted text of a path names its place.** The paths that a path expression denotes, or a
brace-free path, are not empty and have no dot in a segment; and paths of this kind with the same
text do the same in every document. So does the path that is read from the text. -/
theorem sameEffect_of_text_eq :
    (∀ (expression : String) (doc : Value), ∀ path ∈ (Selector.ofText expression).resolve doc,
      path ≠ [] ∧ ∀ segment ∈ path, '.' ∉ segment.text.toList) ∧
    (∀ (alternative : List Char) (doc : Value),
      ∀ path ∈ Selector.resolveSteps (Selector.stepsOfText alternative) doc,
        path ≠ [] ∧ ∀ segment ∈ path, '.' ∉ segment.text.toList) ∧
    (∀ p q : Path, p.Nameable → q.Nameable → p.text = q.text → SameEffect p q) ∧
    (∀ p : Path, p.Nameable → SameEffect p (ofText p.text)) := by
  have hsame : ∀ p q : Path, p.Nameable → q.Nameable → p.text = q.text → SameEffect p q := by
    intro p q hp hq htext
    have hsteps := forall₂_same hp.inBounds hq.inBounds (map_text_eq hp hq htext)
    exact {
      get?_eq := Value.get?_of_same hsteps
      has_iff := fun doc => by rw [Value.Has, Value.Has, Value.get?_of_same hsteps]
      update?_eq := Value.update?_of_same hsteps
      write_eq := Value.write_of_same hsteps htext }
  refine ⟨fun expression doc path hpath => ?_, fun alternative doc path hpath => ?_, hsame, ?_⟩
  · obtain ⟨steps, hsteps, hmem⟩ := List.mem_flatMap.1 hpath
    obtain ⟨alternative, -, rfl⟩ := List.mem_map.1 hsteps
    exact Selector.dot_notMem_of_mem_resolveSteps hmem
  · exact Selector.dot_notMem_of_mem_resolveSteps hpath
  · intro p hp
    obtain ⟨hnameable, htext⟩ := hp.ofText_text
    exact hsame p _ hp hnameable htext.symm

theorem sameEffect_of_text_eq_rows :
    Nameable [.key "rows", .index 10] ∧ Nameable [.key "rows", .key "10"] ∧
    text [.key "rows", .index 10] = text [.key "rows", .key "10"] ∧
    SameEffect [.key "rows", .index 10] [.key "rows", .key "10"] := by
  have hindex : Nameable [.key "rows", .index 10] := by decide +kernel
  have hkey : Nameable [.key "rows", .key "10"] := by decide +kernel
  have htext : text [.key "rows", .index 10] = text [.key "rows", .key "10"] := by decide +kernel
  exact ⟨hindex, hkey, htext, sameEffect_of_text_eq.2.2.1 _ _ hindex hkey htext⟩

end Path

end Stencil
