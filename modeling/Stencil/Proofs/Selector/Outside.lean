import Stencil.Selector.Split

/-!
# The text outside the braces

`outside` keeps the characters of a text that are read at brace depth zero. A text that is balanced
and holds no separator there is `Unbroken`: it survives the cut at that separator in one piece.

* `depthBehind`: the brace depth that a text leads to.
* `exists_splitFrom_append`: the cut of a joined text, in front of the joint and behind it.
* `splitOutside_append_sep_iff`: the separators at which a text is cut.
* `exists_splitFrom_cons`: what the parts hold.
* `splitOutside_intercalate`: unbroken parts, joined with the separator, are cut apart again.
* `Balanced.unbroken_of_mem_splitOutside`: the parts of a balanced text are unbroken.
* `Balanced.outside_braces`: of a balanced text between braces, only the opening brace is outside.
-/

namespace Stencil.Selector

/-- The characters read at depth zero in a text that itself starts at the depth `depth`. -/
def outsideFrom (depth : Nat) : List Char → List Char
  | [] => []
  | c :: rest =>
    if depth = 0 then c :: outsideFrom (depthAfter depth c) rest
    else outsideFrom (depthAfter depth c) rest

/-- The characters of a text outside its braces. -/
def outside (text : List Char) : List Char :=
  outsideFrom 0 text

/-- A text that the cut at a separator leaves in one piece, wherever it stands. -/
structure Unbroken (sep : Char) (text : List Char) : Prop where
  balanced : Balanced text
  sep_notMem : sep ∉ outside text

/-! ## Joined texts -/

theorem intercalate_cons {sep : Char} (part : List Char) {rest : List (List Char)}
    (h : rest ≠ []) :
    [sep].intercalate (part :: rest) = part ++ sep :: [sep].intercalate rest := by
  rw [List.intercalate_cons_of_ne_nil h, List.append_assoc, List.singleton_append]

theorem intercalate_append {sep : Char} {parts rest : List (List Char)} (h₁ : parts ≠ [])
    (h₂ : rest ≠ []) : [sep].intercalate (parts ++ rest) =
      [sep].intercalate parts ++ sep :: [sep].intercalate rest := by
  induction parts with
  | nil => exact absurd rfl h₁
  | cons part parts ih =>
    by_cases hp : parts = []
    · subst hp
      simpa using intercalate_cons part h₂
    · rw [List.cons_append, intercalate_cons part (by simp [hp]), ih hp, intercalate_cons part hp]
      simp

/-- Joining is not changed when some neighbours are joined first. -/
theorem intercalate_middle {sep : Char} (before : List (List Char)) {middle : List (List Char)}
    (h : middle ≠ []) (after : List (List Char)) :
    [sep].intercalate (before ++ [sep].intercalate middle :: after) =
      [sep].intercalate (before ++ (middle ++ after)) := by
  induction before with
  | nil =>
    by_cases ha : after = []
    · subst ha
      simp
    · rw [List.nil_append, List.nil_append, intercalate_cons _ ha, intercalate_append h ha]
  | cons part before ih =>
    rw [List.cons_append, List.cons_append, intercalate_cons part (by simp),
      intercalate_cons part (by simp [h]), ih]

theorem mem_intercalate {sep c : Char} (hc : c ≠ sep) {parts : List (List Char)} :
    c ∈ [sep].intercalate parts ↔ ∃ part ∈ parts, c ∈ part := by
  induction parts with
  | nil => simp [List.intercalate]
  | cons part rest ih =>
    by_cases hr : rest = []
    · subst hr
      simp
    · rw [intercalate_cons part hr, List.mem_append, List.mem_cons, ih]
      simp [hc]

theorem intercalate_ne_nil {sep : Char} {part : List Char} (h : part ≠ [])
    (rest : List (List Char)) : [sep].intercalate (part :: rest) ≠ [] := by
  by_cases hr : rest = []
  · subst hr
    simpa using h
  · rw [intercalate_cons part hr]
    simp

theorem intercalate_eq_nil_iff {sep : Char} {parts : List (List Char)} :
    [sep].intercalate parts = [] ↔ parts = [] ∨ parts = [[]] := by
  rcases parts with _ | ⟨part, _ | ⟨next, rest⟩⟩
  · simp [List.intercalate]
  · simp [List.intercalate]
  · simp

/-- A property of texts that appending keeps passes from the parts to the joined text. -/
theorem intercalate_closed {p : List Char → Prop} {glue : Char} (hnil : p [])
    (happend : ∀ {s t : List Char}, p s → p t → p (s ++ t)) (hglue : p [glue])
    {parts : List (List Char)} (h : ∀ part ∈ parts, p part) : p ([glue].intercalate parts) := by
  induction parts with
  | nil => exact hnil
  | cons part rest ih =>
    have hpart := h part (by simp)
    cases rest with
    | nil => simpa using hpart
    | cons next rest =>
      rw [intercalate_cons_cons]
      exact happend hpart (happend hglue (ih fun q hq => h q (by simp [hq])))

/-! ## Depth along a text -/

theorem depthAfter_of_ne {c : Char} (h₁ : c ≠ '{') (h₂ : c ≠ '}') (depth : Nat) :
    depthAfter depth c = depth := by
  simp [depthAfter, h₁, h₂]

/-- Away from a brace closed too early, a brace moves the depth by one wherever it starts. -/
theorem depthAfter_add {depth : Nat} {c : Char} (h : ¬(c = '}' ∧ depth = 0)) (k : Nat) :
    depthAfter (depth + k) c = depthAfter depth c + k := by
  unfold depthAfter
  split
  · omega
  · split
    · have : depth ≠ 0 := fun h₀ => h ⟨by assumption, h₀⟩
      omega
    · rfl

theorem depthThrough?_append (depth : Nat) (s t : List Char) :
    depthThrough? depth (s ++ t) = (depthThrough? depth s).bind (depthThrough? · t) := by
  induction s generalizing depth with
  | nil => rfl
  | cons c s ih =>
    simp only [List.cons_append, depthThrough?]
    split
    · rfl
    · exact ih _

theorem depthThrough?_add {depth last : Nat} {s : List Char}
    (h : depthThrough? depth s = some last) (k : Nat) :
    depthThrough? (depth + k) s = some (last + k) := by
  induction s generalizing depth with
  | nil => simpa [depthThrough?] using h
  | cons c s ih =>
    rw [depthThrough?] at h ⊢
    split at h
    · cases h
    · rename_i hc
      rw [if_neg (fun h' => hc ⟨h'.1, by omega⟩), depthAfter_add hc]
      exact ih h

theorem depthThrough?_of_notMem {s : List Char} (h₁ : '{' ∉ s) (h₂ : '}' ∉ s) (depth : Nat) :
    depthThrough? depth s = some depth := by
  induction s with
  | nil => rfl
  | cons c s ih =>
    simp only [List.mem_cons, not_or] at h₁ h₂
    rw [depthThrough?, if_neg (fun h => h₂.1 h.1.symm),
      depthAfter_of_ne (Ne.symm h₁.1) (Ne.symm h₂.1), ih h₁.2 h₂.2]

/-- The braces that a text opens and does not close are those that its depth grows by. -/
theorem add_count_of_depthThrough? {depth last : Nat} {s : List Char}
    (h : depthThrough? depth s = some last) : last + s.count '}' = depth + s.count '{' := by
  induction s generalizing depth with
  | nil =>
    obtain rfl : depth = last := by simpa [depthThrough?] using h
    rfl
  | cons c s ih =>
    rw [depthThrough?] at h
    split at h
    · cases h
    rename_i hc
    have hs := ih h
    unfold depthAfter at hs
    by_cases hopen : c = '{'
    · subst hopen
      simp at hs ⊢
      omega
    · by_cases hclose : c = '}'
      · subst hclose
        simp at hs hc ⊢
        omega
      · simpa [hopen, hclose] using hs

/-- The brace depth behind a text that starts at the depth `depth`. A closing brace at depth zero
leaves it at zero. -/
def depthBehind (depth : Nat) (text : List Char) : Nat :=
  text.foldl depthAfter depth

theorem depthBehind_of_depthThrough? {depth last : Nat} {s : List Char}
    (h : depthThrough? depth s = some last) : depthBehind depth s = last := by
  induction s generalizing depth with
  | nil => exact Option.some.inj h
  | cons c s ih =>
    rw [depthThrough?] at h
    split at h
    · cases h
    · exact ih h

/-! ## Characters at depth zero -/

theorem outsideFrom_append {depth last : Nat} {s : List Char}
    (h : depthThrough? depth s = some last) (t : List Char) :
    outsideFrom depth (s ++ t) = outsideFrom depth s ++ outsideFrom last t := by
  induction s generalizing depth with
  | nil =>
    obtain rfl : depth = last := by simpa [depthThrough?] using h
    rfl
  | cons c s ih =>
    rw [depthThrough?] at h
    split at h
    · cases h
    · simp only [List.cons_append, outsideFrom, ih h]
      split <;> rfl

/-- A text that never goes below its start has nothing outside when it starts inside a brace. -/
theorem outsideFrom_of_pos {depth last : Nat} {s : List Char}
    (h : depthThrough? depth s = some last) (k : Nat) : outsideFrom (depth + (k + 1)) s = [] := by
  induction s generalizing depth with
  | nil => rfl
  | cons c s ih =>
    rw [depthThrough?] at h
    split at h
    · cases h
    · rename_i hc
      rw [outsideFrom, if_neg (by omega), depthAfter_add hc]
      exact ih h

theorem outside_of_notMem {s : List Char} (h₁ : '{' ∉ s) (h₂ : '}' ∉ s) : outside s = s := by
  induction s with
  | nil => rfl
  | cons c s ih =>
    simp only [List.mem_cons, not_or] at h₁ h₂
    rw [outside, outsideFrom, if_pos rfl, depthAfter_of_ne (Ne.symm h₁.1) (Ne.symm h₂.1)]
    exact congrArg (c :: ·) (ih h₁.2 h₂.2)

/-! ## Balanced texts -/

namespace Balanced

theorem append {s t : List Char} (hs : Balanced s) (ht : Balanced t) : Balanced (s ++ t) := by
  rw [Balanced, depthThrough?_append, hs]
  exact ht

theorem outside_append {s : List Char} (hs : Balanced s) (t : List Char) :
    outside (s ++ t) = outside s ++ outside t :=
  outsideFrom_append hs t

theorem of_notMem {s : List Char} (h₁ : '{' ∉ s) (h₂ : '}' ∉ s) : Balanced s :=
  depthThrough?_of_notMem h₁ h₂ 0

theorem braces {body : List Char} (h : Balanced body) : Balanced ('{' :: body ++ ['}']) := by
  have hb : depthThrough? 1 body = some 1 := depthThrough?_add h 1
  show depthThrough? 1 (body ++ ['}']) = some 0
  rw [depthThrough?_append, hb]
  rfl

theorem outside_braces {body : List Char} (h : Balanced body) :
    outside ('{' :: body ++ ['}']) = ['{'] := by
  have hb : depthThrough? 1 body = some 1 := depthThrough?_add h 1
  show '{' :: outsideFrom 1 (body ++ ['}']) = ['{']
  rw [outsideFrom_append hb, outsideFrom_of_pos h 0]
  rfl

/-- Balanced texts joined with a character that is no brace. -/
theorem intercalate {glue : Char} (h₁ : glue ≠ '{') (h₂ : glue ≠ '}') {parts : List (List Char)}
    (h : ∀ part ∈ parts, Balanced part) : Balanced ([glue].intercalate parts) :=
  intercalate_closed (p := Balanced) rfl append
    (of_notMem (by simpa using h₁.symm) (by simpa using h₂.symm)) h

end Balanced

/-! ## Unbroken texts -/

namespace Unbroken

variable {sep : Char}

theorem append {s t : List Char} (hs : Unbroken sep s) (ht : Unbroken sep t) :
    Unbroken sep (s ++ t) where
  balanced := hs.balanced.append ht.balanced
  sep_notMem := by
    rw [hs.balanced.outside_append, List.mem_append, not_or]
    exact ⟨hs.sep_notMem, ht.sep_notMem⟩

theorem of_notMem {s : List Char} (h : sep ∉ s) (h₁ : '{' ∉ s) (h₂ : '}' ∉ s) :
    Unbroken sep s where
  balanced := .of_notMem h₁ h₂
  sep_notMem := by rwa [outside_of_notMem h₁ h₂]

theorem braces {body : List Char} (h : Balanced body) (hsep : sep ≠ '{') :
    Unbroken sep ('{' :: body ++ ['}']) where
  balanced := h.braces
  sep_notMem := by rw [h.outside_braces, List.mem_singleton]; exact hsep

/-- Parts joined with another separator. -/
theorem intercalate {glue : Char} (hsep : sep ≠ glue) (h₁ : glue ≠ '{') (h₂ : glue ≠ '}')
    {parts : List (List Char)} (h : ∀ part ∈ parts, Unbroken sep part) :
    Unbroken sep ([glue].intercalate parts) :=
  intercalate_closed (.of_notMem (by simp) (by simp) (by simp)) append
    (.of_notMem (by simpa using hsep) (by simpa using h₁.symm) (by simpa using h₂.symm)) h

end Unbroken

/-! ## Cutting joined parts -/

theorem splitOutside_ne_nil (sep : Char) (text : List Char) : splitOutside sep text ≠ [] :=
  splitFrom_ne_nil sep 0 text

theorem intercalate_splitOutside (sep : Char) (text : List Char) :
    [sep].intercalate (splitOutside sep text) = text :=
  intercalate_splitFrom sep 0 text

section cut

variable {sep : Char} (h₁ : sep ≠ '{') (h₂ : sep ≠ '}')

include h₁ h₂

/-- The last part in front of a joint goes on with the first part behind it, which is cut at the
depth that the text in front leads to. -/
theorem exists_splitFrom_append (depth : Nat) (s t : List Char) :
    ∃ parts last, splitFrom sep depth s = parts ++ [last] ∧
      splitFrom sep depth (s ++ t) =
        parts ++ (splitFrom sep (depthBehind depth s) t).modifyHead (last ++ ·) := by
  induction s generalizing depth with
  | nil =>
    obtain ⟨part, rest, hrest⟩ := List.exists_cons_of_ne_nil (splitFrom_ne_nil sep depth t)
    exact ⟨[], [], rfl, by simp [depthBehind, hrest]⟩
  | cons c s ih =>
    obtain ⟨parts, last, hs, hst⟩ := ih (depthAfter depth c)
    rw [List.cons_append, splitFrom, splitFrom, depthBehind, List.foldl_cons, ← depthBehind]
    split
    case isTrue hcut =>
      obtain ⟨rfl, rfl⟩ := hcut
      rw [depthAfter_of_ne h₁ h₂] at hs hst ⊢
      exact ⟨[] :: parts, last, by rw [hs, List.cons_append], by rw [hst, List.cons_append]⟩
    case isFalse =>
      rw [hs, hst]
      cases parts with
      | nil => exact ⟨[], c :: last, rfl, by simp [List.modifyHead_modifyHead, Function.comp_def]⟩
      | cons part parts => exact ⟨(c :: part) :: parts, last, rfl, rfl⟩

/-- **A separator is a place of the cut exactly if the brace depth in front of it is zero.** -/
theorem splitOutside_append_sep_iff (s t : List Char) :
    splitOutside sep (s ++ sep :: t) = splitOutside sep s ++ splitOutside sep t ↔
      depthBehind 0 s = 0 := by
  obtain ⟨parts, last, hs, hst⟩ := exists_splitFrom_append h₁ h₂ 0 s (sep :: t)
  obtain ⟨part, rest, hrest⟩ :=
    List.exists_cons_of_ne_nil (splitFrom_ne_nil sep (depthAfter (depthBehind 0 s) sep) t)
  rw [splitOutside, splitOutside, splitOutside, hs, hst, splitFrom]
  by_cases hdepth : depthBehind 0 s = 0
  · simp [hdepth]
  · -- The part in which the separator stands is longer than the last part in front of it.
    simp [hdepth, hrest]

/-- The parts hold no separator outside their braces, where the first one starts at the depth of the
text and the others at zero. If the text ends at depth zero and closes no brace that it has not
opened, so do they. -/
theorem exists_splitFrom_cons (depth : Nat) (text : List Char) :
    ∃ part parts, splitFrom sep depth text = part :: parts ∧
      (sep ∉ outsideFrom depth part ∧ ∀ p ∈ parts, sep ∉ outside p) ∧
      (depthThrough? depth text = some 0 →
        depthThrough? depth part = some 0 ∧ ∀ p ∈ parts, Balanced p) := by
  induction text generalizing depth with
  | nil => exact ⟨[], [], rfl, by simp [outsideFrom], fun h => ⟨h, by simp⟩⟩
  | cons c text ih =>
    obtain ⟨part, parts, hsplit, ⟨hpart, hparts⟩, hdepth⟩ := ih (depthAfter depth c)
    rw [splitFrom]
    split
    case isTrue hcut =>
      obtain ⟨rfl, rfl⟩ := hcut
      rw [depthAfter_of_ne h₁ h₂] at hsplit hpart hdepth
      refine ⟨[], part :: parts, by rw [hsplit], ⟨by simp [outsideFrom],
        List.forall_mem_cons.2 ⟨hpart, hparts⟩⟩, fun h => ⟨rfl, List.forall_mem_cons.2 ?_⟩⟩
      rw [depthThrough?, if_neg fun hc => h₂ hc.1, depthAfter_of_ne h₁ h₂] at h
      exact hdepth h
    case isFalse hcut =>
      refine ⟨c :: part, parts, by rw [hsplit, List.modifyHead_cons], ⟨?_, hparts⟩, fun h => ?_⟩
      · rw [outsideFrom]
        split
        · rename_i hzero
          rw [List.mem_cons, not_or]
          exact ⟨fun hc => hcut ⟨hc.symm, hzero⟩, hpart⟩
        · exact hpart
      · rw [depthThrough?] at h ⊢
        split at h
        · cases h
        · rename_i hclose
          rw [if_neg hclose]
          exact hdepth h

theorem sep_notMem_outside_of_mem_splitOutside {text part : List Char}
    (hpart : part ∈ splitOutside sep text) : sep ∉ outside part := by
  obtain ⟨first, parts, hsplit, ⟨hfirst, hparts⟩, -⟩ := exists_splitFrom_cons h₁ h₂ 0 text
  rw [splitOutside, hsplit] at hpart
  rcases List.mem_cons.1 hpart with rfl | hpart
  · exact hfirst
  · exact hparts part hpart

end cut

/-- A separator behind a balanced text is a place of the cut. -/
theorem Balanced.splitOutside_append {sep : Char} (h₁ : sep ≠ '{') (h₂ : sep ≠ '}')
    {s : List Char} (h : Balanced s) (t : List Char) :
    splitOutside sep (s ++ sep :: t) = splitOutside sep s ++ splitOutside sep t :=
  (splitOutside_append_sep_iff h₁ h₂ s t).2 (depthBehind_of_depthThrough? h)

theorem splitFrom_of_notMem {sep : Char} {depth : Nat} {s : List Char}
    (h : sep ∉ outsideFrom depth s) : splitFrom sep depth s = [s] := by
  induction s generalizing depth with
  | nil => rfl
  | cons c s ih =>
    rw [outsideFrom] at h
    by_cases hd : depth = 0
    · simp only [if_pos hd, List.mem_cons, not_or] at h
      rw [splitFrom, if_neg (fun hc => h.1 hc.1.symm), ih h.2]
      rfl
    · rw [if_neg hd] at h
      rw [splitFrom, if_neg (fun hc => hd hc.2), ih h]
      rfl

/-- A text that holds no separator outside its braces stays at the front of the first part. -/
theorem splitFrom_append {sep : Char} {depth last : Nat} {s : List Char}
    (hd : depthThrough? depth s = some last) (h : sep ∉ outsideFrom depth s) (t : List Char) :
    splitFrom sep depth (s ++ t) = (splitFrom sep last t).modifyHead (s ++ ·) := by
  induction s generalizing depth with
  | nil =>
    obtain rfl : depth = last := by simpa [depthThrough?] using hd
    obtain ⟨part, parts, hparts⟩ := List.exists_cons_of_ne_nil (splitFrom_ne_nil sep depth t)
    simp [hparts]
  | cons c s ih =>
    rw [depthThrough?] at hd
    split at hd
    · cases hd
    · rw [outsideFrom] at h
      have hc : ¬(c = sep ∧ depth = 0) := by
        rintro ⟨rfl, h₀⟩
        simp [h₀] at h
      have hs : sep ∉ outsideFrom (depthAfter depth c) s := by
        split at h
        · exact fun hm => h (List.mem_cons_of_mem _ hm)
        · exact h
      rw [List.cons_append, splitFrom, if_neg hc, ih hd hs, List.modifyHead_modifyHead]
      rfl

/-- The cut at a separator behind a text that ends at depth zero. -/
theorem splitFrom_append_sep {sep : Char} {depth : Nat} {s : List Char}
    (hd : depthThrough? depth s = some 0) (h : sep ∉ outsideFrom depth s) (t : List Char) :
    splitFrom sep depth (s ++ sep :: t) = s :: splitFrom sep 0 t := by
  simp [splitFrom_append hd h, splitFrom]

/-- **Unbroken parts are cut apart again.** -/
theorem splitOutside_intercalate {sep : Char} {parts : List (List Char)} (hne : parts ≠ [])
    (h : ∀ part ∈ parts, Unbroken sep part) :
    splitOutside sep ([sep].intercalate parts) = parts := by
  induction parts with
  | nil => exact absurd rfl hne
  | cons part rest ih =>
    have hpart := h part (by simp)
    cases rest with
    | nil => simpa [splitOutside] using splitFrom_of_notMem hpart.sep_notMem
    | cons next rest =>
      rw [intercalate_cons_cons, splitOutside,
        splitFrom_append_sep hpart.balanced hpart.sep_notMem]
      exact congrArg (part :: ·) (ih (by simp) fun p hp => h p (by simp [hp]))

/-- **A balanced text is cut into unbroken parts.** -/
theorem Balanced.unbroken_of_mem_splitOutside {sep : Char} (h₁ : sep ≠ '{') (h₂ : sep ≠ '}')
    {text part : List Char} (h : Balanced text) (hpart : part ∈ splitOutside sep text) :
    Unbroken sep part := by
  obtain ⟨first, parts, hsplit, -, hdepth⟩ := exists_splitFrom_cons h₁ h₂ 0 text
  obtain ⟨hfirst, hparts⟩ := hdepth h
  refine ⟨?_, sep_notMem_outside_of_mem_splitOutside h₁ h₂ hpart⟩
  rw [splitOutside, hsplit] at hpart
  rcases List.mem_cons.1 hpart with rfl | hpart
  · exact hfirst
  · exact hparts part hpart

end Stencil.Selector
