import Stencil.Generator.Substitute
import Stencil.Proofs.Path.Edits
import Stencil.Proofs.Placeholder
import Stencil.Proofs.Selector.Echoes

/-!
# Edits at places that overlap

One variable is applied to a list of places one after another, each in the document that the edits
before it have left. An edit above a place overwrites what an earlier edit has made of that place;
an edit at a place a second time changes nothing more, if the first one has left a settled text
there. So an edit that comes again later in the list may be left out.

* `SettledAlong`: the edits of a run leave settled values at their places.
* `editAt_of_above`: an edit above another one overwrites it.
* `foldl_editAt_again`: an edit that comes again later changes nothing.
* `foldl_editAt_of_echoes`, `foldl_editAt_of_flat`: runs over the same places.
-/

namespace Stencil.Generator

open Placeholder

/-- Whether a value is no string, or a settled one. -/
def SettledValue (name : String) (value : Value) : Value → Prop
  | .string text => Settled name value text.toList
  | _ => True

instance (name : String) (value : Value) : DecidablePred (SettledValue name value)
  | .string text => inferInstanceAs (Decidable (Settled name value text.toList))
  | .null | .bool _ | .number _ | .sequence _ | .mapping _ => inferInstanceAs (Decidable True)

section editAt

variable (combo : Fields Value) (name : String) (value : Value)

/-- Whether an edit at a path leaves a settled value there, if the path is present. -/
def SettledAt (doc : Value) (path : Path) : Prop :=
  ∀ left ∈ (doc.get? path).map (edit combo name value path), SettledValue name value left

instance (doc : Value) : DecidablePred (SettledAt combo name value doc) := fun path =>
  inferInstanceAs (Decidable
    (∀ left ∈ (doc.get? path).map (edit combo name value path), SettledValue name value left))

/-- Whether every edit in a run over a list of paths leaves a settled value at its place, but for
those that a later edit around their place overwrites. -/
def SettledAlong (doc : Value) : List Path → Prop
  | [] => True
  | path :: rest =>
    ((∀ p ∈ rest, ¬p.Above path) → SettledAt combo name value doc path) ∧
      SettledAlong (editAt combo name value doc path) rest

instance decidableSettledAlong (doc : Value) :
    (paths : List Path) → Decidable (SettledAlong combo name value doc paths)
  | [] => inferInstanceAs (Decidable True)
  | path :: rest =>
    have := decidableSettledAlong (editAt combo name value doc path) rest
    inferInstanceAs (Decidable ((_ → _) ∧ _))

end editAt

/-- Whether none of the paths leads inside the place of another. -/
def Flat (paths : List Path) : Prop :=
  ∀ p ∈ paths, ∀ q ∈ paths, ¬p.Above q

instance : DecidablePred Flat := fun paths =>
  inferInstanceAs (Decidable (∀ p ∈ paths, ∀ q ∈ paths, ¬p.Above q))

variable {combo : Fields Value} {name : String} {value doc : Value}

/-! ## One edit -/

theorem editAt_eq_modifyAt (doc : Value) (path : Path) :
    editAt combo name value doc path = doc.modifyAt (edit combo name value path) path := rfl

theorem edit_of_text_eq {p q : Path} (h : p.map Segment.text = q.map Segment.text) :
    edit combo name value p = edit combo name value q := by
  have htext : p.text = q.text := by rw [Path.text, Path.text, h]
  funext found
  cases found <;> simp only [edit, htext]

theorem edit_of_same {p q : Path} (h : List.Forall₂ Segment.Same p q) :
    edit combo name value p = edit combo name value q :=
  edit_of_text_eq (Path.map_text_of_same h)

theorem editAt_of_same {p q : Path} (h : List.Forall₂ Segment.Same p q) (doc : Value) :
    editAt combo name value doc p = editAt combo name value doc q := by
  rw [editAt_eq_modifyAt, editAt_eq_modifyAt, edit_of_same h, Value.modifyAt_of_same h]

theorem settledAt_of_same {p q : Path} (h : List.Forall₂ Segment.Same p q)
    (hp : SettledAt combo name value doc p) : SettledAt combo name value doc q := by
  unfold SettledAt at hp ⊢
  rwa [← edit_of_same h, ← Value.get?_of_same h]

/-- An edit overwrites a container, whatever has been edited in it, and leaves a leaf to be edited
as there is nothing in it. -/
theorem edit_modifyAt_cons (path : Path) (f : Value → Value) (found : Value) (segment : Segment)
    (rest : Path) :
    edit combo name value path (found.modifyAt f (segment :: rest)) =
      edit combo name value path found := by
  cases hchild : found.child? segment with
  | none => rw [Value.modifyAt_cons_of_none hchild]
  | some child =>
    rw [Value.modifyAt_cons_of_some hchild]
    cases found with
    | mapping fields => rfl
    | sequence items =>
      rw [Value.replaceChild]
      split <;> rfl
    | _ => cases hchild

theorem edit_string_of_settled (path : Path) {text : String}
    (h : Settled name value text.toList) :
    edit combo name value path (.string text) = .string text := by
  simp only [edit, h.replaceAll_eq, String.ofList_toList]

/-- A settled value is left as it is by a second edit. -/
theorem edit_edit (path : Path) {found : Value}
    (h : SettledValue name value (edit combo name value path found)) :
    edit combo name value path (edit combo name value path found) =
      edit combo name value path found := by
  cases hleft : edit combo name value path found with
  | string text =>
    rw [hleft] at h
    exact edit_string_of_settled path h
  | _ =>
    -- no edit of a string leaves this, so it is the entry of the combo for the path
    cases found with
    | string text => cases hleft
    | _ => exact hleft

theorem editAt_editAt {path : Path} (h : SettledAt combo name value doc path) :
    editAt combo name value (editAt combo name value doc path) path =
      editAt combo name value doc path := by
  have hagain := Value.modifyAt_modifyAt_append (edit combo name value path)
    (edit combo name value path) doc path []
  rw [List.append_nil] at hagain
  rw [editAt_eq_modifyAt, editAt_eq_modifyAt, hagain]
  refine Value.modifyAt_congr fun found hfound => edit_edit path (h _ ?_)
  rw [hfound]
  rfl

/-! ## Two edits -/

theorem editAt_comm {p q : Path} (h : p.Apart q) (doc : Value) :
    editAt combo name value (editAt combo name value doc p) q =
      editAt combo name value (editAt combo name value doc q) p :=
  Value.modifyAt_comm h _ _ doc

theorem settledAt_editAt_of_apart {p q : Path} (h : p.Apart q) :
    SettledAt combo name value (editAt combo name value doc p) q ↔
      SettledAt combo name value doc q := by
  rw [SettledAt, SettledAt, editAt_eq_modifyAt, Value.get?_modifyAt_of_apart h]

section Above

variable {p q : Path} (hp : p.InBounds) (hq : q.InBounds) (h : p.Above q)

include hp hq h

/-- An edit above an earlier one overwrites it. -/
theorem editAt_of_above :
    editAt combo name value (editAt combo name value doc q) p = editAt combo name value doc p := by
  obtain ⟨p', segment, rest, rfl, hsame⟩ := h.exists_append hp hq
  rw [editAt_of_same hsame, editAt_of_same hsame, editAt_eq_modifyAt, editAt_eq_modifyAt,
    Value.modifyAt_modifyAt_append]
  exact Value.modifyAt_congr fun found _ => edit_modifyAt_cons p' _ found segment rest

/-- What an edit inside a place has done does not count for a later edit at the place. -/
theorem settledAt_editAt_of_above :
    SettledAt combo name value (editAt combo name value doc q) p ↔
      SettledAt combo name value doc p := by
  obtain ⟨p', segment, rest, rfl, hsame⟩ := h.exists_append hp hq
  have hedit : edit combo name value p' ∘ (Value.modifyAt
      (edit combo name value (p' ++ segment :: rest)) · (segment :: rest)) =
        edit combo name value p' :=
    funext fun found => edit_modifyAt_cons p' _ found segment rest
  simp only [SettledAt, edit_of_same hsame, Value.get?_of_same hsame, editAt_eq_modifyAt,
    Value.get?_modifyAt_append, Option.map_map, hedit]

end Above

/-- Edits neither of which is inside the place of the other can be made in either order. -/
theorem editAt_comm_of_not_above {p q : Path} (hp : p.InBounds) (hq : q.InBounds)
    (hpq : ¬p.Above q) (hqp : ¬q.Above p) :
    editAt combo name value (editAt combo name value doc p) q =
      editAt combo name value (editAt combo name value doc q) p := by
  rcases Path.apart_or_same_or_above hp hq with h | h | h | h
  · exact editAt_comm h doc
  · simp only [editAt_of_same h]
  · exact absurd h hpq
  · exact absurd h hqp

/-- An edit that commutes with all edits of a run can be made ahead of the run. -/
theorem editAt_foldl_comm {run : List Path} {q : Path}
    (h : ∀ path ∈ run, ∀ doc,
      editAt combo name value (editAt combo name value doc path) q =
        editAt combo name value (editAt combo name value doc q) path) (doc : Value) :
    editAt combo name value (run.foldl (editAt combo name value) doc) q =
      run.foldl (editAt combo name value) (editAt combo name value doc q) := by
  induction run generalizing doc with
  | nil => rfl
  | cons path run ih =>
    rw [List.forall_mem_cons] at h
    rw [List.foldl_cons, List.foldl_cons, ih h.2, h.1]

/-! ## An edit that comes again -/

section again

variable {paths : List Path} {q : Path} (hpaths : ∀ path ∈ paths, path.InBounds)

include hpaths

/-- An edit is lost in a run that comes to a place around its own. -/
theorem foldl_editAt_of_above (hq : q.InBounds) (h : ∃ p ∈ paths, p.Above q) :
    paths.foldl (editAt combo name value) (editAt combo name value doc q) =
      paths.foldl (editAt combo name value) doc := by
  induction paths generalizing doc q with
  | nil => simp at h
  | cons r paths ih =>
    rw [List.forall_mem_cons] at hpaths
    obtain ⟨p, hp, hpq⟩ := h
    rw [List.foldl_cons, List.foldl_cons]
    rcases List.mem_cons.1 hp with rfl | hp
    · rw [editAt_of_above hpaths.1 hq hpq]
    -- an edit at a place that is `q` or inside it is lost in the rest of the run like that at `q`
    have hinside : p.Above r →
        paths.foldl (editAt combo name value)
            (editAt combo name value (editAt combo name value doc q) r) =
          paths.foldl (editAt combo name value) (editAt combo name value doc r) := fun hpr => by
      rw [ih hpaths.2 hpaths.1 ⟨p, hp, hpr⟩, ih hpaths.2 hpaths.1 ⟨p, hp, hpr⟩,
        ih hpaths.2 hq ⟨p, hp, hpq⟩]
    rcases Path.apart_or_same_or_above hq hpaths.1 with hqr | hqr | hqr | hrq
    · rw [editAt_comm hqr, ih hpaths.2 hq ⟨p, hp, hpq⟩]
    · exact hinside (hpq.of_same hqr)
    · exact hinside (hpq.trans hqr)
    · rw [editAt_of_above hpaths.1 hq hrq]

/-- An edit that leaves a settled value adds nothing to a run that comes to its place again. -/
theorem foldl_editAt_of_settledAt (hq : q ∈ paths) (htop : ∀ p ∈ paths, ¬p.Above q)
    (hsettled : SettledAt combo name value doc q) :
    paths.foldl (editAt combo name value) (editAt combo name value doc q) =
      paths.foldl (editAt combo name value) doc := by
  induction paths generalizing doc with
  | nil => cases hq
  | cons r paths ih =>
    have hbounds : q.InBounds := hpaths q hq
    rw [List.forall_mem_cons] at hpaths htop
    rw [List.foldl_cons, List.foldl_cons]
    rcases List.mem_cons.1 hq with rfl | hq
    · rw [editAt_editAt hsettled]
    rcases Path.apart_or_same_or_above hbounds hpaths.1 with hqr | hqr | hqr | hrq
    · rw [editAt_comm hqr, ih hpaths.2 hq htop.2 ((settledAt_editAt_of_apart hqr.symm).2 hsettled)]
    · rw [← editAt_of_same hqr, ← editAt_of_same hqr, editAt_editAt hsettled]
    · rw [foldl_editAt_of_above hpaths.2 hpaths.1 ⟨q, hq, hqr⟩,
        foldl_editAt_of_above hpaths.2 hpaths.1 ⟨q, hq, hqr⟩, ih hpaths.2 hq htop.2 hsettled]
    · exact absurd hrq htop.1

/-- **An edit that comes again later changes nothing**, if it leaves a settled value where no edit
around its place follows. -/
theorem foldl_editAt_again (hq : q ∈ paths)
    (hsettled : (∀ p ∈ paths, ¬p.Above q) → SettledAt combo name value doc q) :
    paths.foldl (editAt combo name value) (editAt combo name value doc q) =
      paths.foldl (editAt combo name value) doc := by
  by_cases htop : ∃ p ∈ paths, p.Above q
  · exact foldl_editAt_of_above hpaths (hpaths q hq) htop
  · simp only [not_exists, not_and] at htop
    exact foldl_editAt_of_settledAt hpaths hq htop (hsettled htop)

/-- The first edit of a run at a place, if there is none around it, finds the place with what it
leaves there settled from the start. -/
theorem settledAt_of_settledAlong (h : SettledAlong combo name value doc paths) (hq : q ∈ paths)
    (htop : ∀ p ∈ paths, ¬p.Above q) : SettledAt combo name value doc q := by
  induction paths generalizing doc with
  | nil => cases hq
  | cons r paths ih =>
    have hbounds : q.InBounds := hpaths q hq
    obtain ⟨hr, hrest⟩ := h
    rw [List.forall_mem_cons] at hpaths htop
    rcases List.mem_cons.1 hq with rfl | hq
    · exact hr htop.2
    have hlater := ih hpaths.2 hrest hq htop.2
    rcases Path.apart_or_same_or_above hpaths.1 hbounds with hrq | hrq | hrq | hqr
    · exact (settledAt_editAt_of_apart hrq).1 hlater
    · exact settledAt_of_same hrq (hr fun p hp hpr => htop.2 p hp (hpr.of_same hrq))
    · exact absurd hrq htop.1
    · exact (settledAt_editAt_of_above hbounds hpaths.1 hqr).1 hlater

end again

/-! ## Runs over the same places -/

section runs

variable {paths paths' : List Path} (hpaths : ∀ path ∈ paths, path.InBounds)
  (hsettled : SettledAlong combo name value doc paths)

include hpaths hsettled

/-- Copies of edits put in ahead of the edits that they repeat change nothing. -/
theorem foldl_editAt_of_echoes (h : Echoes paths paths') :
    paths'.foldl (editAt combo name value) doc = paths.foldl (editAt combo name value) doc := by
  induction h generalizing doc with
  | nil => rfl
  | keep path _ ih =>
    rw [List.forall_mem_cons] at hpaths
    exact ih hpaths.2 hsettled.2
  | again hechoes hmem ih =>
    have hpaths' := fun path hpath => hpaths path (hechoes.mem_iff.1 hpath)
    rw [List.foldl_cons, ← ih hpaths hsettled]
    refine foldl_editAt_again hpaths' hmem fun htop => ?_
    exact settledAt_of_settledAlong hpaths hsettled (hechoes.mem_iff.1 hmem)
      fun p hp => htop p (hechoes.mem_iff.2 hp)

/-- An edit made once more behind a run over flat paths changes nothing. -/
theorem editAt_foldl_of_flat (hflat : Flat paths) (hmem : ∀ path, path ∈ paths' ↔ path ∈ paths)
    {q : Path} (hq : q ∈ paths) :
    editAt combo name value (paths'.foldl (editAt combo name value) doc) q =
      paths'.foldl (editAt combo name value) doc := by
  rw [editAt_foldl_comm]
  · refine foldl_editAt_again (fun path hpath => hpaths path ((hmem path).1 hpath)) ((hmem q).2 hq)
      fun _ => settledAt_of_settledAlong hpaths hsettled hq fun p hp => hflat p hp q hq
  · intro path hpath doc
    have hpath := (hmem path).1 hpath
    exact editAt_comm_of_not_above (hpaths path hpath) (hpaths q hq) (hflat path hpath q hq)
      (hflat q hq path hpath)

/-- Runs over the same flat paths, in any order and each any number of times, come to the same: the
second one ahead of the first is lost, and the first one behind the second changes nothing. -/
theorem foldl_editAt_of_flat (hflat : Flat paths) (hmem : ∀ path, path ∈ paths' ↔ path ∈ paths) :
    paths'.foldl (editAt combo name value) doc = paths.foldl (editAt combo name value) doc := by
  have hahead : (paths' ++ paths).foldl (editAt combo name value) doc =
      paths.foldl (editAt combo name value) doc :=
    foldl_editAt_of_echoes hpaths hsettled
      ((Echoes.refl paths).append_left fun path hpath => (hmem path).1 hpath)
  have hbehind : (paths' ++ paths).foldl (editAt combo name value) doc =
      paths'.foldl (editAt combo name value) doc := by
    rw [List.foldl_append]
    refine List.foldlRecOn (motive := (· = paths'.foldl (editAt combo name value) doc)) _ _ rfl ?_
    rintro _ rfl path hpath
    exact editAt_foldl_of_flat hpaths hsettled hflat hmem hpath
  rw [← hbehind, hahead]

end runs

end Stencil.Generator
