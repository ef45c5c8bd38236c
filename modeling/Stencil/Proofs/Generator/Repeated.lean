import Stencil.Generator.Basic
import Stencil.Proofs.Generator.Overlaps
import Stencil.Proofs.Generator.Simultaneous

/-!
# Expressions that repeat themselves

A generation takes the places that an expression denotes one after another, each in the document as
it then is, so a place that is denoted twice is edited twice. Where every edit leaves a settled
value, that makes no difference for an alternative said again ahead of itself, nor for a second copy
of the expression, if it finds the places that the first one has found. If no place is inside
another, neither the order nor the number of the alternatives counts.

* `Turn`: a moment in a generation at which an expression is resolved.
* `generate_eq_of_turns`: expressions that do the same at every turn give the same results.
* `generate_repeated`: copies of an expression and of its alternatives.
-/

namespace Stencil

namespace Selector

theorem resolve_ofText (text : String) (doc : Value) :
    (ofText text).resolve doc =
      (expand text.toList).flatMap fun alternative =>
        resolveSteps (stepsOfText alternative) doc := by
  rw [resolve, ofText, List.flatMap_map]

end Selector

namespace Generator

open Selector

/-- A moment at which a selector is resolved: the combo and the variable that are applied, and the
document that the edits so far have left. -/
structure Turn where
  combo : Fields Value
  name : String
  value : Value
  doc : Value

namespace Turn

variable (turn : Turn) (selector : Selector)

/-- The document that the edits along a selector leave. -/
def next : Value :=
  editAlong turn.combo turn.name turn.value turn.doc selector

/-- Whether the edits along the selector leave settled values, at paths that keep the bound for
indices. -/
structure Settled : Prop where
  inBounds : ∀ path ∈ selector.resolve turn.doc, path.InBounds
  settledAlong :
    SettledAlong turn.combo turn.name turn.value turn.doc (selector.resolve turn.doc)

instance : Decidable (turn.Settled selector) :=
  decidable_of_iff ((∀ path ∈ selector.resolve turn.doc, path.InBounds) ∧
      SettledAlong turn.combo turn.name turn.value turn.doc (selector.resolve turn.doc))
    ⟨fun h => ⟨h.1, h.2⟩, fun h => ⟨h.inBounds, h.settledAlong⟩⟩

/-- Whether the selector finds the same paths again behind its own edits. -/
def Stable : Prop :=
  selector.resolve (turn.next selector) = selector.resolve turn.doc

instance : Decidable (turn.Stable selector) :=
  inferInstanceAs (Decidable (_ = _))

/-- Whether none of the places that the selector finds is inside another one. -/
def Flat : Prop :=
  Generator.Flat (selector.resolve turn.doc)

instance : Decidable (turn.Flat selector) :=
  inferInstanceAs (Decidable (Generator.Flat _))

end Turn

/-! ## The turns of a selector -/

/-- The turns of a selector that stands between others, while variables are applied one after
another to a document. -/
def turns (combo : Fields Value) (before : List Selector) (selector : Selector)
    (after : List Selector) : Fields Value → Value → List Turn
  | [], _ => []
  | (name, value) :: rest, doc =>
    ⟨combo, name, value, before.foldl (editAlong combo name value) doc⟩ ::
      turns combo before selector after rest
        (applyVariable combo (before ++ selector :: after) doc (name, value))

/-- The turns of a path expression that stands between others in a generation. -/
def generateTurns (g : Generator) (before : List String) (expression : String)
    (after : List String) (combos : List Value) : List Turn :=
  g.templates.flatMap fun template => combos.flatMap fun combo =>
    turns (fieldsOf combo) (before.map .ofText) (.ofText expression) (after.map .ofText)
      (fieldsOf combo) template

/-- Whether something holds of a path expression at all its turns in a generation. -/
def AtTurns (g : Generator) (before : List String) (expression : String) (after : List String)
    (combos : List Value) (p : Turn → Selector → Prop) : Prop :=
  ∀ turn ∈ g.generateTurns before expression after combos, p turn (.ofText expression)

instance (g : Generator) (before : List String) (expression : String) (after : List String)
    (combos : List Value) (p : Turn → Selector → Prop)
    [∀ turn selector, Decidable (p turn selector)] :
    Decidable (g.AtTurns before expression after combos p) :=
  inferInstanceAs (Decidable (∀ turn ∈ g.generateTurns before expression after combos,
    p turn (.ofText expression)))

/-- Selectors that do at every turn what one selector does can stand in its place. -/
theorem foldl_applyVariable_eq_of_turns {combo fields : Fields Value} {doc : Value}
    {before middle after : List Selector} {selector : Selector}
    (h : ∀ turn ∈ turns combo before selector after fields doc,
      middle.foldl (editAlong turn.combo turn.name turn.value) turn.doc = turn.next selector) :
    fields.foldl (applyVariable combo (before ++ (middle ++ after))) doc =
      fields.foldl (applyVariable combo (before ++ selector :: after)) doc := by
  induction fields generalizing doc with
  | nil => rfl
  | cons entry fields ih =>
    obtain ⟨name, value⟩ := entry
    rw [turns, List.forall_mem_cons] at h
    have hstep : applyVariable combo (before ++ (middle ++ after)) doc (name, value) =
        applyVariable combo (before ++ selector :: after) doc (name, value) := by
      simp only [applyVariable, List.foldl_append, List.foldl_cons]
      rw [h.1]
      rfl
    -- both runs are now at the document from which the turns of the other fields are taken
    rw [List.foldl_cons, List.foldl_cons, hstep, ih h.2]

/-- **Expressions that do the same at every turn give the same results.** -/
theorem generate_eq_of_turns {g : Generator} {before after : List String} {expression : String}
    {combos : List Value} (middle : List String)
    (h : g.AtTurns before expression after combos fun turn selector =>
      (middle.map Selector.ofText).foldl (editAlong turn.combo turn.name turn.value) turn.doc =
        turn.next selector) :
    g.generate (before ++ (middle ++ after)) combos =
      g.generate (before ++ expression :: after) combos := by
  have hproduct : product ((before ++ (middle ++ after)).map .ofText) g.templates combos =
      product ((before ++ expression :: after).map .ofText) g.templates combos := by
    refine List.flatMap_congr fun template htemplate => List.map_congr_left fun combo hcombo => ?_
    simp only [substitute_eq_foldl, List.map_append, List.map_cons]
    refine foldl_applyVariable_eq_of_turns fun turn hturn => h turn ?_
    exact List.mem_flatMap.2 ⟨template, htemplate, List.mem_flatMap.2 ⟨combo, hcombo, hturn⟩⟩
  rw [generate, generate, hproduct]

/-! ## One turn -/

namespace Turn.Settled

variable {turn : Turn} {expression other : String} (h : turn.Settled (.ofText expression))

include h

/-- A second copy of the expression. -/
theorem foldl_copy (hstable : turn.Stable (.ofText expression)) :
    [Selector.ofText expression, .ofText expression].foldl
        (editAlong turn.combo turn.name turn.value) turn.doc = turn.next (.ofText expression) := by
  have hechoes := foldl_editAt_of_echoes h.inBounds h.settledAlong
    ((Echoes.refl _).append_left fun _ hpath => hpath)
  rw [List.foldl_append] at hechoes
  have hagain : editAlong turn.combo turn.name turn.value (turn.next (.ofText expression))
      (.ofText expression) = turn.next (.ofText expression) := by
    rw [editAlong, hstable]
    exact hechoes
  exact hagain

/-- An expression whose alternatives are those of another one, some said again ahead. -/
theorem next_of_echoes (hechoes : Echoes (expand expression.toList) (expand other.toList)) :
    turn.next (.ofText other) = turn.next (.ofText expression) := by
  have hpaths := hechoes.flatMap fun alternative =>
    resolveSteps (stepsOfText alternative) turn.doc
  rw [← resolve_ofText, ← resolve_ofText] at hpaths
  exact foldl_editAt_of_echoes h.inBounds h.settledAlong hpaths

/-- An expression with the alternatives of another one, in any order and number. -/
theorem next_of_flat (hflat : turn.Flat (.ofText expression))
    (hmem : ∀ alternative, alternative ∈ expand other.toList ↔
      alternative ∈ expand expression.toList) :
    turn.next (.ofText other) = turn.next (.ofText expression) := by
  refine foldl_editAt_of_flat h.inBounds h.settledAlong hflat fun path => ?_
  simp only [resolve_ofText, List.mem_flatMap, hmem]

end Turn.Settled

/-! ## A generation -/

section generate

variable (g : Generator) (before : List String) (expression : String) (after : List String)
  (combos : List Value)

/-- **Repeating an expression or an alternative.** Let the edits of an expression leave settled
values at all its turns. A second copy of the expression changes nothing, if the expression finds
the same paths behind its own edits. Nor does another expression in its place, whose alternatives
are the same with some said again ahead; nor one with the same alternatives in any order and
number, if no place that is found is inside another. In particular an alternative may be repeated
in its group, ahead of itself or, if no place is inside another, anywhere. -/
theorem generate_repeated
    (hsettled : g.AtTurns before expression after combos Turn.Settled) :
    (g.AtTurns before expression after combos Turn.Stable →
      g.generate (before ++ expression :: expression :: after) combos =
        g.generate (before ++ expression :: after) combos) ∧
    (∀ other : String, Echoes (expand expression.toList) (expand other.toList) →
      g.generate (before ++ other :: after) combos =
        g.generate (before ++ expression :: after) combos) ∧
    (∀ other : String, g.AtTurns before expression after combos Turn.Flat →
      (∀ alternative, alternative ∈ expand other.toList ↔
        alternative ∈ expand expression.toList) →
      g.generate (before ++ other :: after) combos =
        g.generate (before ++ expression :: after) combos) ∧
    (∀ (front body back : List Char) (first second : List (List Char)) (again : List Char),
      expression.toList = front ++ braced body ++ back → Balanced body →
      splitOutside ',' body = first ++ second →
      again ∈ second ∨
        again ∈ first ∧ g.AtTurns before expression after combos Turn.Flat →
      g.generate (before ++ String.ofList
          (front ++ braced ([','].intercalate (first ++ again :: second)) ++ back) :: after) combos =
        g.generate (before ++ expression :: after) combos) := by
  have hechoes : ∀ other : String, Echoes (expand expression.toList) (expand other.toList) →
      g.generate (before ++ other :: after) combos =
        g.generate (before ++ expression :: after) combos := fun other h =>
    generate_eq_of_turns [other] fun turn hturn =>
      (hsettled turn hturn).next_of_echoes h
  have hmem : ∀ other : String, g.AtTurns before expression after combos Turn.Flat →
      (∀ alternative, alternative ∈ expand other.toList ↔
        alternative ∈ expand expression.toList) →
      g.generate (before ++ other :: after) combos =
        g.generate (before ++ expression :: after) combos := fun other hflat h =>
    generate_eq_of_turns [other] fun turn hturn =>
      (hsettled turn hturn).next_of_flat (hflat turn hturn) h
  refine ⟨fun hstable => ?_, hechoes, hmem, ?_⟩
  · exact generate_eq_of_turns [expression, expression] fun turn hturn =>
      (hsettled turn hturn).foldl_copy (hstable turn hturn)
  · intro front body back first second again hexpression hbody hparts hagain
    rcases hagain with hagain | ⟨hagain, hflat⟩
    · refine hechoes _ ?_
      rw [String.toList_ofList, hexpression]
      exact echoes_expand_again hbody hparts front back hagain
    · refine hmem _ hflat ?_
      rw [String.toList_ofList, hexpression]
      exact mem_expand_again hbody hparts front back (List.mem_append_left _ hagain)

end generate

/-- A template with a text in it, and with a sequence of a text and a number. -/
def invitations : Generator :=
  ofTemplates [.mapping [("head", .mapping [("to", .string "Dear \x7b\x7bname\x7d\x7d")]),
    ("rows", .sequence [.string "\x7b\x7bname\x7d\x7d", .number (.integer 1)])]]

/-- Two kinds of places in an invitation. -/
def greetings : String :=
  "\x7bhead.to,rows.@each\x7d"

/-- A combo with one variable. -/
def guest : Value :=
  .mapping [("name", .string "Ann")]

theorem generate_repeated_invitations :
    invitations.AtTurns [] greetings ["rows.0"] [guest] Turn.Settled ∧
    invitations.AtTurns [] greetings ["rows.0"] [guest] Turn.Stable ∧
    invitations.AtTurns [] greetings ["rows.0"] [guest] Turn.Flat ∧
    invitations.generate [greetings, greetings, "rows.0"] [guest] =
      invitations.generate [greetings, "rows.0"] [guest] ∧
    invitations.generate ["\x7bhead.\x7bto,to\x7d,rows.@each\x7d", "rows.0"] [guest] =
      invitations.generate [greetings, "rows.0"] [guest] ∧
    invitations.generate ["\x7bhead.to,rows.@each,head.to\x7d", "rows.0"] [guest] =
      invitations.generate [greetings, "rows.0"] [guest] := by
  have hsettled : invitations.AtTurns [] greetings ["rows.0"] [guest] Turn.Settled := by
    decide +kernel
  have hstable : invitations.AtTurns [] greetings ["rows.0"] [guest] Turn.Stable := by
    decide +kernel
  have hflat : invitations.AtTurns [] greetings ["rows.0"] [guest] Turn.Flat := by
    decide +kernel
  have hinner : Echoes (expand greetings.toList)
      (expand "\x7bhead.\x7bto,to\x7d,rows.@each\x7d".toList) := by
    have h : expand "\x7bhead.\x7bto,to\x7d,rows.@each\x7d".toList =
        "head.to".toList :: expand greetings.toList := by
      decide +kernel
    rw [h]
    exact .again (.refl _) (by decide +kernel)
  have htext : String.ofList ([] ++ braced ([','].intercalate
      ["head.to".toList, "rows.@each".toList, "head.to".toList]) ++ []) =
        "\x7bhead.to,rows.@each,head.to\x7d" := by
    decide +kernel
  obtain ⟨hcopy, hechoes, -, hgroup⟩ := generate_repeated _ [] _ ["rows.0"] _ hsettled
  have hagain := hgroup [] "head.to,rows.@each".toList [] ["head.to".toList, "rows.@each".toList]
    [] "head.to".toList (by decide +kernel) (by decide +kernel) (by decide +kernel)
    (.inr ⟨by simp, hflat⟩)
  exact ⟨hsettled, hstable, hflat, hcopy hstable, hechoes _ hinner, htext ▸ hagain⟩

/-- The results of one template and one combo. -/
def resultsOf (template combo : Value) (paths : List String) : List Value :=
  ((ofTemplates [template]).generate paths [combo]).results

/-- None of the three conditions can be left out. A second edit at a place that is not settled goes
on with what the first has left; behind its own edits an expression may find a place that was not
there; and an alternative said again behind one around its place edits what that one has put
there. -/
theorem not_generate_repeated :
    resultsOf (.mapping [("a", .string "\x7b\x7bk\x7d\x7d")])
        (.mapping [("k", .string "\x7b\x7bk\x7d\x7d\x7b\x7bk\x7d\x7d")]) ["a", "a"] ≠
      resultsOf (.mapping [("a", .string "\x7b\x7bk\x7d\x7d")])
        (.mapping [("k", .string "\x7b\x7bk\x7d\x7d\x7b\x7bk\x7d\x7d")]) ["a"] ∧
    resultsOf (.mapping [("a", .sequence [.number (.integer 0)])])
        (.mapping [("a", .sequence [.number (.integer 5), .number (.integer 6)])])
        ["\x7ba,a.@each\x7d", "\x7ba,a.@each\x7d"] ≠
      resultsOf (.mapping [("a", .sequence [.number (.integer 0)])])
        (.mapping [("a", .sequence [.number (.integer 5), .number (.integer 6)])])
        ["\x7ba,a.@each\x7d"] ∧
    resultsOf (.mapping [("a", .mapping [("b", .number (.integer 1))])])
        (.mapping [("a", .mapping [("b", .number (.integer 2))])]) ["\x7ba.b,a,a.b\x7d"] ≠
      resultsOf (.mapping [("a", .mapping [("b", .number (.integer 1))])])
        (.mapping [("a", .mapping [("b", .number (.integer 2))])]) ["\x7ba.b,a\x7d"] := by
  refine ⟨?_, ?_, ?_⟩ <;>
    exact ne_of_apply_ne (List.map Json.compactText) (by decide +kernel)

end Generator

end Stencil
