import Mathlib.Data.List.Basic
import Stencil.Proofs.Selector.Outside
import Stencil.Selector.Alternatives

/-!
# Alternatives said again

Two path expressions that differ in the body of one group, wherever it stands, go through the same
steps of the expansion until the group itself is the first one. What the alternatives of the two
bodies have to do with each other, the texts that the two expressions stand for have to do with each
other as well. So an alternative that is written a second time in its group adds no new text, and
if the second copy stands ahead of the first, all that it adds are texts that come again.

* `Echoes`: a list with copies put in ahead of the entries that they repeat.
* `expand_swaps`: the expansions of two expressions that differ in the body of one group.
* `echoes_expand_again`, `mem_expand_again`: an alternative said again in its group.
-/

namespace Stencil

/-! ## Copies ahead of what they repeat -/

/-- The second list is the first with copies put in, each ahead of an entry that it repeats. -/
inductive Echoes {α : Type} : List α → List α → Prop where
  | nil : Echoes [] []
  | keep (x : α) {l l' : List α} : Echoes l l' → Echoes (x :: l) (x :: l')
  | again {x : α} {l l' : List α} : Echoes l l' → x ∈ l' → Echoes l (x :: l')

namespace Echoes

variable {α β : Type} {l l' m m' : List α}

@[refl] theorem refl (l : List α) : Echoes l l := by
  induction l with
  | nil => exact nil
  | cons x l ih => exact keep x ih

theorem mem_iff (h : Echoes l l') {x : α} : x ∈ l' ↔ x ∈ l := by
  induction h with
  | nil => rfl
  | keep y _ ih => simp only [List.mem_cons, ih]
  | again _ hy ih =>
    rw [List.mem_cons, ← ih]
    exact ⟨fun hx => hx.elim (fun hxy => hxy ▸ hy) id, Or.inr⟩

/-- A whole list of copies, ahead of all that they repeat. -/
theorem append_left (h : Echoes l l') (hm : ∀ x ∈ m, x ∈ l') : Echoes l (m ++ l') := by
  induction m with
  | nil => exact h
  | cons x m ih =>
    rw [List.forall_mem_cons] at hm
    exact again (ih hm.2) (List.mem_append_right m hm.1)

theorem append (h : Echoes l l') (hm : Echoes m m') : Echoes (l ++ m) (l' ++ m') := by
  induction h with
  | nil => exact hm
  | keep x _ ih => exact keep x ih
  | again _ hx ih => exact again ih (List.mem_append_left m' hx)

theorem flatMap (h : Echoes l l') (f : α → List β) : Echoes (l.flatMap f) (l'.flatMap f) := by
  induction h with
  | nil => exact nil
  | keep x _ ih => exact (refl (f x)).append ih
  | again _ hx ih => exact ih.append_left fun y hy => List.mem_flatMap.2 ⟨_, hx, hy⟩

end Echoes

namespace Selector

open Text

/-! ## Texts that differ in one group -/

/-- A text between braces. -/
def braced (body : List Char) : List Char :=
  '{' :: body ++ ['}']

theorem mem_braced (body : List Char) : '{' ∈ braced body ∧ '}' ∈ braced body := by
  simp [braced]

theorem Balanced.depthThrough?_braced {body : List Char} (h : Balanced body) (depth : Nat) :
    depthThrough? depth (braced body) = some depth := by
  have hbraced := depthThrough?_add h.braces depth
  rwa [Nat.zero_add] at hbraced

theorem Balanced.notMem_outsideFrom_braced {body : List Char} (h : Balanced body) {sep : Char}
    (hsep : sep ≠ '{') (depth : Nat) : sep ∉ outsideFrom depth (braced body) := by
  cases depth with
  | zero => exact (Unbroken.braces h hsep).sep_notMem
  | succ depth =>
    have hnil := outsideFrom_of_pos h.braces depth
    rw [Nat.zero_add] at hnil
    simp only [braced, hnil, List.not_mem_nil, not_false_eq_true]

/-- Two texts that are alike, except that in one pair of braces the second has the body `b'` where
the first has `b`. -/
def Swaps (b b' s t : List Char) : Prop :=
  ∃ front back, s = front ++ braced b ++ back ∧ t = front ++ braced b' ++ back

/-- Two lists of texts that are alike, except that one entry swaps the bodies. -/
def SwapsIn (b b' : List Char) (l l' : List (List Char)) : Prop :=
  ∃ before s t after, l = before ++ s :: after ∧ l' = before ++ t :: after ∧ Swaps b b' s t

section Swaps

variable {b b' s t : List Char}

theorem Swaps.symm (h : Swaps b b' s t) : Swaps b' b t s := by
  obtain ⟨front, back, hs, ht⟩ := h
  exact ⟨front, back, ht, hs⟩

theorem Swaps.append_left (h : Swaps b b' s t) (u : List Char) :
    Swaps b b' (u ++ s) (u ++ t) := by
  obtain ⟨front, back, rfl, rfl⟩ := h
  exact ⟨u ++ front, back, by simp, by simp⟩

theorem Swaps.append_right (h : Swaps b b' s t) (u : List Char) :
    Swaps b b' (s ++ u) (t ++ u) := by
  obtain ⟨front, back, rfl, rfl⟩ := h
  exact ⟨front, back ++ u, by simp, by simp⟩

theorem Swaps.hasBraces (h : Swaps b b' s t) : HasBraces s := by
  obtain ⟨front, back, rfl, -⟩ := h
  exact ⟨by simp [mem_braced], by simp [mem_braced]⟩

theorem SwapsIn.cons {l l' : List (List Char)} (h : SwapsIn b b' l l') (part : List Char) :
    SwapsIn b b' (part :: l) (part :: l') := by
  obtain ⟨before, s, t, after, rfl, rfl, hswap⟩ := h
  exact ⟨part :: before, s, t, after, rfl, rfl, hswap⟩

/-- What is joined from lists that differ in one entry differs there. -/
theorem SwapsIn.intercalate {l l' : List (List Char)} (h : SwapsIn b b' l l') (sep : Char) :
    Swaps b b' ([sep].intercalate l) ([sep].intercalate l') := by
  obtain ⟨before, s, t, after, rfl, rfl, hswap⟩ := h
  induction before with
  | nil =>
    cases after with
    | nil => simpa using hswap
    | cons part after =>
      rw [List.nil_append, List.nil_append, intercalate_cons_cons, intercalate_cons_cons]
      exact hswap.append_right _
  | cons part before ih =>
    rw [List.cons_append, List.cons_append, intercalate_cons part (by simp),
      intercalate_cons part (by simp)]
    exact (ih.append_left [sep]).append_left part

/-! ## Cutting and trimming -/

theorem modifyHead_cons_swapsIn {l l' : List (List Char)} (h : SwapsIn b b' l l') (c : Char) :
    SwapsIn b b' (l.modifyHead (c :: ·)) (l'.modifyHead (c :: ·)) := by
  obtain ⟨before, s, t, after, rfl, rfl, hswap⟩ := h
  cases before with
  | nil => exact ⟨[], c :: s, c :: t, after, rfl, rfl, hswap.append_left [c]⟩
  | cons part before => exact ⟨(c :: part) :: before, s, t, after, rfl, rfl, hswap⟩

/-- The cut goes through the same characters whatever stands between the braces. -/
theorem splitFrom_swapsIn (hb : Balanced b) (hb' : Balanced b') (h : Swaps b b' s t) (sep : Char)
    (hsep : sep ≠ '{') (depth : Nat) :
    SwapsIn b b' (splitFrom sep depth s) (splitFrom sep depth t) := by
  obtain ⟨front, back, rfl, rfl⟩ := h
  induction front generalizing depth with
  | nil =>
    obtain ⟨part, parts, hparts⟩ := List.exists_cons_of_ne_nil (splitFrom_ne_nil sep depth back)
    have hcut : ∀ {body : List Char}, Balanced body →
        splitFrom sep depth ([] ++ braced body ++ back) = (braced body ++ part) :: parts := by
      intro body hbody
      rw [List.nil_append, splitFrom_append (hbody.depthThrough?_braced depth)
        (hbody.notMem_outsideFrom_braced hsep depth), hparts, List.modifyHead_cons]
    exact ⟨[], _, _, parts, hcut hb, hcut hb', [], part, rfl, rfl⟩
  | cons c front ih =>
    simp only [List.cons_append, splitFrom]
    split
    · exact (ih depth).cons []
    · exact modifyHead_cons_swapsIn (ih _) c

theorem dropWhile_append_cons {p : Char → Bool} {c : Char} (hc : p c = false)
    (front back : List Char) :
    (front ++ c :: back).dropWhile p = front.dropWhile p ++ c :: back := by
  rw [List.dropWhile_append]
  split
  · rename_i hfront
    rw [List.isEmpty_iff.1 hfront, List.nil_append, List.dropWhile_cons_of_neg (by simp [hc])]
  · rfl

theorem trim_swaps (h : Swaps b b' s t) : Swaps b b' (trim s) (trim t) := by
  obtain ⟨front, back, rfl, rfl⟩ := h
  have htrim : ∀ body, trim (front ++ braced body ++ back) =
      front.dropWhile isBlank ++ braced body ++ (back.reverse.dropWhile isBlank).reverse := by
    intro body
    have hopen : isBlank '{' = false := by decide
    have hclose : isBlank '}' = false := by decide
    have hfront : (front ++ braced body ++ back).dropWhile isBlank =
        (front.dropWhile isBlank ++ '{' :: body) ++ '}' :: back := by
      simpa [braced] using dropWhile_append_cons hopen front (body ++ '}' :: back)
    rw [trim, hfront, List.reverse_append, List.reverse_cons, List.append_assoc,
      List.singleton_append, dropWhile_append_cons hclose]
    simp [braced]
  exact ⟨_, _, htrim b, htrim b'⟩

theorem bodyAlternatives_swapsIn (hb : Balanced b) (hb' : Balanced b') (h : Swaps b b' s t) :
    SwapsIn b b' (bodyAlternatives s) (bodyAlternatives t) := by
  obtain ⟨before, u, v, after, hu, hv, hswap⟩ := splitFrom_swapsIn hb hb' h ',' (by decide) 0
  refine ⟨before.map trim, trim u, trim v, after.map trim, ?_, ?_, trim_swaps hswap⟩
  · rw [bodyAlternatives, splitOutside, hu, List.map_append, List.map_cons]
  · rw [bodyAlternatives, splitOutside, hv, List.map_append, List.map_cons]

/-! ## The first group -/

theorem not_balanced_append_close {body : List Char} (h : Balanced body) (rest : List Char) :
    ¬Balanced (body ++ '}' :: rest) := by
  rw [Balanced, depthThrough?_append, h]
  simp [depthThrough?]

theorem not_balanced_append_open {body : List Char} (h : Balanced body) (front : List Char) :
    ¬Balanced (front ++ '{' :: body) := by
  rw [Balanced, depthThrough?_append]
  cases hfront : depthThrough? 0 front with
  | none => simp
  | some depth =>
    have hbody := depthThrough?_add h (depth + 1)
    rw [Nat.zero_add] at hbody
    simp [depthThrough?, depthAfter, hbody]

theorem Swaps.balanced (hb : Balanced b) (hb' : Balanced b') (h : Swaps b b' s t)
    (hs : Balanced s) : Balanced t := by
  obtain ⟨front, back, rfl, rfl⟩ := h
  unfold Balanced at hs ⊢
  simp only [depthThrough?_append, Option.bind_assoc, hb.depthThrough?_braced,
    hb'.depthThrough?_braced] at hs ⊢
  exact hs

/-- A part that is a whole group is the group with the swapped body, or has it in its own body. -/
theorem groupBody?_swaps (hb : Balanced b) (hb' : Balanced b') (h : Swaps b b' s t)
    {body : List Char} (hbody : groupBody? s = some body) :
    (body = b ∧ groupBody? t = some b') ∨
      ∃ body', groupBody? t = some body' ∧ Swaps b b' body body' := by
  obtain ⟨front, back, hs, rfl⟩ := h
  obtain ⟨rfl, hbal⟩ := groupBody?_eq_some_iff.1 hbody
  rcases front with _ | ⟨c, front⟩
  · rcases List.eq_nil_or_concat' back with rfl | ⟨back, last, rfl⟩
    · have hbody : body = b := by simpa [braced] using hs
      exact Or.inl ⟨hbody, by simpa [braced] using groupBody?_eq_some_iff.2 ⟨rfl, hb'⟩⟩
    · have hrest : body ++ ['}'] = (b ++ '}' :: back) ++ [last] := by simpa [braced] using hs
      obtain ⟨rfl, -⟩ := List.append_inj' hrest rfl
      exact absurd hbal (not_balanced_append_close hb back)
  · rcases List.eq_nil_or_concat' back with rfl | ⟨back, last, rfl⟩
    · have hrest : body ++ ['}'] = (front ++ '{' :: b) ++ ['}'] := by
        simpa [braced] using (List.cons.inj hs).2
      obtain ⟨rfl, -⟩ := List.append_inj' hrest rfl
      exact absurd hbal (not_balanced_append_open hb front)
    · obtain ⟨hc, hrest⟩ : '{' = c ∧ body ++ ['}'] = (front ++ braced b ++ back) ++ [last] := by
        simpa using hs
      subst hc
      obtain ⟨hbody, hlast⟩ := List.append_inj' hrest rfl
      obtain rfl : '}' = last := by simpa using hlast
      have hswap : Swaps b b' body (front ++ braced b' ++ back) := ⟨front, back, hbody, rfl⟩
      refine Or.inr ⟨_, groupBody?_eq_some_iff.2 ⟨?_, hswap.balanced hb hb' hbal⟩, hswap⟩
      simp

theorem groupBody?_eq_none_swaps (hb : Balanced b) (hb' : Balanced b') (h : Swaps b b' s t)
    (hs : groupBody? s = none) : groupBody? t = none := by
  refine Option.eq_none_iff_forall_ne_some.2 fun body hbody => ?_
  rcases groupBody?_swaps hb' hb h.symm hbody with ⟨-, ht⟩ | ⟨body', ht, -⟩ <;> simp [hs] at ht

/-- How the first groups of two expressions are related that differ in the body of one group: they
have the same body, and that group stands around it; or the first group is that group, or has it in
its body. -/
inductive GroupSwaps (b b' : List Char) (g g' : GroupSplit) : Prop where
  | around (body_eq : g'.body = g.body) (plug : ∀ a, Swaps b b' (g.plug a) (g'.plug a))
  | here (body_eq : g.body = b) (body_eq' : g'.body = b') (plug_eq : ∀ a, g'.plug a = g.plug a)
  | inside (body : Swaps b b' g.body g'.body) (plug_eq : ∀ a, g'.plug a = g.plug a)

theorem GroupSwaps.cons {g g' : GroupSplit} (h : GroupSwaps b b' g g') (part : List Char) :
    GroupSwaps b b' { g with before := part :: g.before }
      { g' with before := part :: g'.before } := by
  have hplug : ∀ (g : GroupSplit) (a : List Char),
      GroupSplit.plug { g with before := part :: g.before } a = (part ++ ['.']) ++ g.plug a := by
    intro g a
    simp [GroupSplit.plug]
  cases h with
  | around hbody hswap =>
    refine .around hbody fun a => ?_
    rw [hplug, hplug]
    exact (hswap a).append_left _
  | here hbody hbody' heq => exact .here hbody hbody' fun a => by rw [hplug, hplug, heq]
  | inside hbody heq => exact .inside hbody fun a => by rw [hplug, hplug, heq]

/-- Parts that differ in one group have no first group, or first groups that are related. -/
theorem firstGroup?_swaps (hb : Balanced b) (hb' : Balanced b') {l l' : List (List Char)}
    (h : SwapsIn b b' l l') :
    (firstGroup? l = none ∧ firstGroup? l' = none) ∨
      ∃ g g', firstGroup? l = some g ∧ firstGroup? l' = some g' ∧ GroupSwaps b b' g g' := by
  obtain ⟨before, s, t, after, rfl, rfl, hswap⟩ := h
  induction before with
  | nil =>
    simp only [List.nil_append, firstGroup?]
    cases hs : groupBody? s with
    | none =>
      rw [groupBody?_eq_none_swaps hb hb' hswap hs]
      cases hafter : firstGroup? after with
      | none => exact Or.inl ⟨rfl, rfl⟩
      | some g =>
        refine Or.inr ⟨_, _, rfl, rfl, .around rfl fun a => ?_⟩
        simpa [GroupSplit.plug] using (hswap.append_right _)
    | some body =>
      rcases groupBody?_swaps hb hb' hswap hs with ⟨rfl, ht⟩ | ⟨body', ht, hbody⟩
      · rw [ht]
        exact Or.inr ⟨_, _, rfl, rfl, .here rfl rfl fun a => rfl⟩
      · rw [ht]
        exact Or.inr ⟨_, _, rfl, rfl, .inside hbody fun a => rfl⟩
  | cons part before ih =>
    simp only [List.cons_append, firstGroup?]
    cases hpart : groupBody? part with
    | none =>
      rcases ih with ⟨hg, hg'⟩ | ⟨g, g', hg, hg', hrel⟩
      · simp [hg, hg']
      · exact Or.inr ⟨_, _, by rw [hg]; rfl, by rw [hg']; rfl, hrel.cons part⟩
    | some body =>
      refine Or.inr ⟨_, _, rfl, rfl, .around rfl fun a => ?_⟩
      have hbehind : Swaps b b' (['.'].intercalate (before ++ s :: after))
          (['.'].intercalate (before ++ t :: after)) :=
        SwapsIn.intercalate ⟨before, s, t, after, rfl, rfl, hswap⟩ '.'
      have hne := List.ne_nil_of_mem hbehind.hasBraces.1
      have hne' := List.ne_nil_of_mem hbehind.symm.hasBraces.1
      simpa [GroupSplit.plug, hne, hne'] using (hbehind.append_left ['.']).append_left a

/-! ## The expansion -/

theorem plug_swaps (h : Swaps b b' s t) (g : GroupSplit) : Swaps b b' (g.plug s) (g.plug t) :=
  (h.append_left _).append_right _

/-- **Two expressions that differ in the body of one group.** If what the alternatives of the two
bodies stand for, each put in the same place, is always related, then so is what the expressions
stand for. -/
theorem expand_swaps {R : List (List Char) → List (List Char) → Prop} (hrefl : ∀ l, R l l)
    (happend : ∀ {l l' m m'}, R l l' → R m m' → R (l ++ m) (l' ++ m'))
    (hbody : ∀ f : List Char → List (List Char),
      R ((bodyAlternatives b).flatMap f) ((bodyAlternatives b').flatMap f))
    (hb : Balanced b) (hb' : Balanced b') (h : Swaps b b' s t) : R (expand s) (expand t) := by
  have hflatMap : ∀ {l : List (List Char)} {f f' : List Char → List (List Char)},
      (∀ x ∈ l, R (f x) (f' x)) → R (l.flatMap f) (l.flatMap f') := by
    intro l f f' hl
    induction l with
    | nil => exact hrefl _
    | cons x l ih =>
      rw [List.forall_mem_cons] at hl
      exact happend hl.1 (ih hl.2)
  induction s using expand.induct generalizing t with
  | case1 s hs hg =>
    rcases firstGroup?_swaps hb hb' (splitFrom_swapsIn hb hb' h '.' (by decide) 0) with
      ⟨-, hg'⟩ | ⟨g, _, hg', -⟩
    · rw [expand_of_firstGroup?_eq_none hs hg,
        expand_of_firstGroup?_eq_none h.symm.hasBraces hg']
      exact hrefl _
    · simp [splitOutside, hg'] at hg
  | case2 s hs g hg ih =>
    rcases firstGroup?_swaps hb hb' (splitFrom_swapsIn hb hb' h '.' (by decide) 0) with
      ⟨hnone, -⟩ | ⟨_, g', hg₀, hg', hrel⟩
    · simp [splitOutside, hnone] at hg
    obtain rfl := Option.some.inj (hg.symm.trans hg₀)
    rw [expand_of_firstGroup? hs hg, expand_of_firstGroup? h.symm.hasBraces hg']
    cases hrel with
    | around hbody_eq hplug =>
      rw [hbody_eq]
      exact hflatMap fun a ha => ih ⟨a, ha⟩ (hplug a)
    | here hbody_eq hbody_eq' hplug =>
      simp only [hplug, hbody_eq, hbody_eq']
      exact hbody _
    | inside hswap hplug =>
      obtain ⟨before, x, y, after, hx, hy, hxy⟩ := bodyAlternatives_swapsIn hb hb' hswap
      have hmem : x ∈ bodyAlternatives g.body := by simp [hx]
      simp only [hplug, hx, hy, List.flatMap_append, List.flatMap_cons]
      exact happend (hrefl _) (happend (ih ⟨x, hmem⟩ (plug_swaps hxy g)) (hrefl _))
  | case3 s hs => exact absurd h.hasBraces hs

end Swaps

/-! ## An alternative said again -/

theorem bodyAlternatives_intercalate {parts : List (List Char)} (hne : parts ≠ [])
    (h : ∀ part ∈ parts, Unbroken ',' part) :
    bodyAlternatives ([','].intercalate parts) = parts.map trim := by
  rw [bodyAlternatives, splitOutside_intercalate hne h]

section again

variable {body again : List Char} {first second : List (List Char)} (hbody : Balanced body)
  (hparts : splitOutside ',' body = first ++ second) (front back : List Char)

include hbody hparts

/-- The group with an alternative said again is put in the place of the group. -/
theorem expand_again (R : List (List Char) → List (List Char) → Prop) (hrefl : ∀ l, R l l)
    (happend : ∀ {l l' m m'}, R l l' → R m m' → R (l ++ m) (l' ++ m'))
    (hagain : again ∈ first ++ second)
    (hflatMap : ∀ f : List Char → List (List Char),
      R ((first ++ second).flatMap f) ((first ++ again :: second).flatMap f)) :
    R (expand (front ++ braced body ++ back))
      (expand (front ++ braced ([','].intercalate (first ++ again :: second)) ++ back)) := by
  have hunbroken : ∀ part ∈ first ++ second, Unbroken ',' part := fun part hpart =>
    hbody.unbroken_of_mem_splitOutside (by decide) (by decide) (hparts ▸ hpart)
  have hunbroken' : ∀ part ∈ first ++ again :: second, Unbroken ',' part := by
    intro part hpart
    rw [List.mem_append, List.mem_cons] at hpart
    rcases hpart with hpart | rfl | hpart
    · exact hunbroken part (List.mem_append_left _ hpart)
    · exact hunbroken part hagain
    · exact hunbroken part (List.mem_append_right _ hpart)
  have hbody' : Balanced ([','].intercalate (first ++ again :: second)) :=
    .intercalate (by decide) (by decide) fun part hpart => (hunbroken' part hpart).balanced
  refine expand_swaps hrefl happend (fun f => ?_) hbody hbody' ⟨front, back, rfl, rfl⟩
  rw [bodyAlternatives_intercalate (by simp) hunbroken', bodyAlternatives, hparts,
    List.flatMap_map, List.flatMap_map]
  exact hflatMap _

/-- An alternative said again ahead of itself makes texts that come again. -/
theorem echoes_expand_again (hagain : again ∈ second) :
    Echoes (expand (front ++ braced body ++ back))
      (expand (front ++ braced ([','].intercalate (first ++ again :: second)) ++ back)) :=
  expand_again hbody hparts front back Echoes .refl .append (List.mem_append_right _ hagain)
    fun f => ((Echoes.refl first).append (.again (.refl second) hagain)).flatMap f

/-- An alternative said again anywhere makes no new text. -/
theorem mem_expand_again (hagain : again ∈ first ++ second) (text : List Char) :
    text ∈ expand (front ++ braced ([','].intercalate (first ++ again :: second)) ++ back) ↔
      text ∈ expand (front ++ braced body ++ back) := by
  refine expand_again hbody hparts front back (fun l l' => ∀ text, text ∈ l' ↔ text ∈ l)
    (fun _ _ => Iff.rfl) (fun h hm text => ?_) hagain (fun f text => ?_) text
  · rw [List.mem_append, List.mem_append, h, hm]
  · have hmem : ∀ part, part ∈ first ++ again :: second ↔ part ∈ first ++ second := by
      intro part
      rw [List.mem_append, List.mem_cons, or_left_comm, ← List.mem_append]
      exact or_iff_right_of_imp fun hpart => hpart ▸ hagain
    simp only [List.mem_flatMap, hmem]

end again

end Selector

end Stencil
