import Stencil.Selector.Each

/-!
# The paths of a repetition

A brace-free path with `@each` in it is resolved by enumerating positions. The paths found are
exactly those that fit the parts one by one, and they come in the lexicographic order of their
positions.

* `mem_resolveBelow_cons`: the first segment is found by the first step, the others below it.
* `resolveSteps_enumerates`: membership, order and presence of the paths found.
-/

namespace Stencil.Selector

/-- Whether a segment fits one part of a brace-free path at a place that holds `found`. -/
def Fits (found : Option Value) (part : List Char) (segment : Segment) : Prop :=
  if part = eachToken then
    ∃ position items, segment = .index position ∧ found = some (.sequence items) ∧
      position < items.length
  else segment = .key (String.ofList part)

/-- Whether a path has one segment for each part, each of which fits its part at the place that the
segments before it lead to. -/
structure Instantiates (value : Option Value) (parts : List (List Char)) (path : Path) : Prop where
  length_eq : path.length = parts.length
  fits : ∀ (i : Nat) (part : List Char) (segment : Segment), parts[i]? = some part →
    path[i]? = some segment → Fits (value.bind (Value.get? · (path.take i))) part segment

/-- The positions that a path has where the parts repeat. -/
def eachPositions (parts : List (List Char)) (path : Path) : List Nat :=
  (parts.zip path).filterMap fun (part, segment) =>
    if part = eachToken then segment.index? else none

/-- The segments that a step finds at a place that holds `found`. -/
def Step.Finds (found : Option Value) : Step → Segment → Prop
  | .literal key, segment => segment = .key key
  | .each, segment =>
    ∃ position items, segment = .index position ∧ found = some (.sequence items) ∧
      position < items.length

/-! ## One step at a time -/

theorem fits_iff_finds {found : Option Value} {part : List Char} {segment : Segment} :
    Fits found part segment ↔ (Step.ofPart part).Finds found segment := by
  unfold Fits Step.ofPart
  split <;> rfl

/-- The first segment of a path is found by the first step, the others are found below it. -/
theorem mem_resolveBelow_cons {value : Option Value} {step : Step} {rest : List Step}
    {path : Path} :
    path ∈ resolveBelow value (step :: rest) ↔
      ∃ segment below, path = segment :: below ∧ step.Finds value segment ∧
        below ∈ resolveBelow (value.bind (Value.child? segment)) rest := by
  cases step with
  | literal key =>
    rw [resolveBelow, List.mem_map]
    constructor
    · rintro ⟨below, hbelow, rfl⟩
      exact ⟨_, below, rfl, rfl, hbelow⟩
    · rintro ⟨_, below, rfl, rfl, hbelow⟩
      exact ⟨below, hbelow, rfl⟩
  | each =>
    have hchild : ∀ {items : List Value} {position : Nat} (item : Value),
        items[position]? = some item →
          (some (Value.sequence items)).bind (Value.child? (.index position)) = some item :=
      fun item hitem => hitem
    simp only [resolveBelow]
    constructor
    · intro h
      split at h
      · rename_i items
        obtain ⟨⟨item, position⟩, hmem, h⟩ := List.mem_flatMap.1 h
        obtain ⟨below, hbelow, rfl⟩ := List.mem_map.1 h
        have hitem := List.mem_zipIdx_iff_getElem?.1 hmem
        have hlt := (List.getElem?_eq_some_iff.1 hitem).1
        exact ⟨_, below, rfl, ⟨position, items, rfl, rfl, hlt⟩, hchild item hitem ▸ hbelow⟩
      · cases h
    · rintro ⟨_, below, rfl, ⟨position, items, rfl, rfl, hlt⟩, hbelow⟩
      have hitem := List.getElem?_eq_getElem hlt
      rw [hchild _ hitem] at hbelow
      exact List.mem_flatMap.2 ⟨(items[position], position), List.mem_zipIdx_iff_getElem?.2 hitem,
        List.mem_map_of_mem hbelow⟩

theorem instantiates_cons {value : Option Value} {part : List Char} {parts : List (List Char)}
    {path : Path} :
    Instantiates value (part :: parts) path ↔
      ∃ segment below, path = segment :: below ∧ Fits value part segment ∧
        Instantiates (value.bind (Value.child? segment)) parts below := by
  have hget : ∀ (segment : Segment) (below : Path),
      value.bind (Value.get? · (segment :: below)) =
        (value.bind (Value.child? segment)).bind (Value.get? · below) := by
    intro segment below
    cases value <;> rfl
  have hroot : value.bind (Value.get? · []) = value := by cases value <;> rfl
  constructor
  · rintro ⟨hlength, hfits⟩
    match path, hlength with
    | segment :: below, hlength =>
      refine ⟨segment, below, rfl, ?_, ?_, ?_⟩
      · have h := hfits 0 part segment rfl rfl
        rwa [List.take_zero, hroot] at h
      · simpa using hlength
      · intro i part' segment' h₁ h₂
        have h := hfits (i + 1) part' segment' h₁ h₂
        rwa [List.take_succ_cons, hget] at h
  · rintro ⟨segment, below, rfl, hfirst, hlength, hfits⟩
    refine ⟨by simp [hlength], fun i part' segment' h₁ h₂ => ?_⟩
    cases i with
    | zero =>
      obtain rfl : part = part' := by simpa using h₁
      obtain rfl : segment = segment' := by simpa using h₂
      rwa [List.take_zero, hroot]
    | succ i =>
      rw [List.take_succ_cons, hget]
      exact hfits i part' segment' h₁ h₂

/-- A path is found exactly when it fits the parts. -/
theorem mem_resolveBelow {parts : List (List Char)} {value : Option Value} {path : Path} :
    path ∈ resolveBelow value (parts.map Step.ofPart) ↔ Instantiates value parts path := by
  induction parts generalizing value path with
  | nil =>
    rw [List.map_nil, resolveBelow, List.mem_singleton]
    constructor
    · rintro rfl
      exact ⟨rfl, by simp⟩
    · exact fun h => List.eq_nil_of_length_eq_zero h.length_eq
  | cons part parts ih =>
    rw [List.map_cons, mem_resolveBelow_cons, instantiates_cons]
    simp only [fits_iff_finds, ih]

/-! ## The order of the paths -/

theorem eachPositions_each (parts : List (List Char)) (position : Nat) (path : Path) :
    eachPositions (eachToken :: parts) (.index position :: path) =
      position :: eachPositions parts path := rfl

theorem eachPositions_of_ne {part : List Char} (h : part ≠ eachToken) (parts : List (List Char))
    (segment : Segment) (path : Path) :
    eachPositions (part :: parts) (segment :: path) = eachPositions parts path := by
  simp [eachPositions, h]

theorem pairwise_zipIdx (items : List Value) :
    items.zipIdx.Pairwise fun a b => a.2 < b.2 := by
  rw [← List.pairwise_map (f := Prod.snd), List.zipIdx_map_snd]
  exact List.pairwise_lt_range'

/-- The positions of the paths found increase. -/
theorem pairwise_resolveBelow (parts : List (List Char)) (value : Option Value) :
    (resolveBelow value (parts.map Step.ofPart)).Pairwise
      fun p q => eachPositions parts p < eachPositions parts q := by
  induction parts generalizing value with
  | nil => exact List.pairwise_singleton _ _
  | cons part parts ih =>
    by_cases hpart : part = eachToken
    · subst hpart
      simp only [List.map_cons, Step.ofPart, if_pos, resolveBelow]
      split
      · rename_i items
        rw [List.pairwise_flatMap]
        constructor
        · rintro ⟨item, position⟩ -
          rw [List.pairwise_map]
          refine (ih (some item)).imp fun h => ?_
          simpa only [eachPositions_each, List.cons_lt_cons_self] using h
        · refine (pairwise_zipIdx items).imp fun hlt p hp q hq => ?_
          obtain ⟨p, -, rfl⟩ := List.mem_map.1 hp
          obtain ⟨q, -, rfl⟩ := List.mem_map.1 hq
          exact List.cons_lt_cons_iff.2 (Or.inl hlt)
      · exact List.Pairwise.nil
    · simp only [List.map_cons, Step.ofPart, if_neg hpart, resolveBelow]
      rw [List.pairwise_map]
      refine (ih _).imp fun h => ?_
      simpa only [eachPositions_of_ne hpart] using h

/-- A path that ends in a position of a sequence is present. -/
theorem Instantiates.has_of_getLast? {doc : Value} {parts : List (List Char)} {path : Path}
    (h : Instantiates (some doc) parts path) (hlast : parts.getLast? = some eachToken) :
    doc.Has path := by
  obtain ⟨init, rfl⟩ := List.getLast?_eq_some_iff.1 hlast
  have hne : path ≠ [] := List.ne_nil_of_length_pos (by simp [h.length_eq])
  obtain ⟨before, segment, rfl⟩ : ∃ before segment, path = before ++ [segment] :=
    ⟨_, _, (List.dropLast_concat_getLast hne).symm⟩
  have hlength : before.length = init.length := by simpa using h.length_eq
  have hfits := h.fits init.length eachToken segment (by simp) (by simp [← hlength])
  rw [← hlength, List.take_left, Fits, if_pos rfl] at hfits
  obtain ⟨position, items, rfl, hitems, hlt⟩ := hfits
  have hget : doc.get? before = some (.sequence items) := hitems
  simp [Value.Has, Value.get?_append, hget, Value.child?, Segment.index?, hlt]

/-- **Resolving a brace-free path enumerates its instances.** -/
theorem resolveSteps_enumerates (text : List Char) (doc : Value) :
    (∀ path, path ∈ resolveSteps (stepsOfText text) doc ↔
      Instantiates (some doc) (text.splitOn '.') path) ∧
    (resolveSteps (stepsOfText text) doc).Pairwise (fun p q =>
      eachPositions (text.splitOn '.') p < eachPositions (text.splitOn '.') q) ∧
    (resolveSteps (stepsOfText text) doc).Nodup ∧
    ((text.splitOn '.').getLast? = some eachToken →
      ∀ path ∈ resolveSteps (stepsOfText text) doc, doc.Has path) := by
  have hpairwise := pairwise_resolveBelow (text.splitOn '.') (some doc)
  refine ⟨fun path => mem_resolveBelow, hpairwise, hpairwise.imp ?_, fun hlast path hp => ?_⟩
  · rintro p _ h rfl
    exact List.lt_irrefl _ h
  · exact (mem_resolveBelow.1 hp).has_of_getLast? hlast

end Stencil.Selector
