import Stencil.Generator.Basic

/-!
# Plans

A plan is a list of stages, each one generation: templates and combos come from documents written
in the plan, from a file, or from the results of an earlier stage. A stage may append the results
of earlier stages, rename top-level fields and drop repeated results. The plan also says which
stage is the output and how it is written.

* `RenameTable.pairwise_insertPair`: a pair written to its place keeps the table in the order of the
  names.
* `RenameTable.toList_ofPairs`: pairs in the order of the names are the table that is made of them.
* `RenameTable.ofPairs_toList`: a table is made again of its pairs.
-/

namespace Stencil

/-- Renames of top-level fields, in ascending order of the names to be replaced, each name once. -/
structure RenameTable where
  toList : List (String × String)
  ascending : toList.Pairwise fun p q => p.1 < q.1

namespace RenameTable

/-- The table without renames. -/
def empty : RenameTable :=
  ⟨[], List.Pairwise.nil⟩

/-- Writes a pair to its place in a list of pairs; it replaces a pair for the same name. -/
def insertPair (pair : String × String) : List (String × String) → List (String × String)
  | [] => [pair]
  | p :: rest =>
    if pair.1 < p.1 then pair :: p :: rest
    else if pair.1 = p.1 then pair :: rest
    else p :: insertPair pair rest

theorem mem_insertPair {pair q : String × String} {l : List (String × String)}
    (h : q ∈ insertPair pair l) : q = pair ∨ q ∈ l := by
  induction l with
  | nil => simpa [insertPair] using h
  | cons p rest ih =>
    simp only [insertPair] at h
    split at h
    · simpa using h
    · split at h
      · rcases List.mem_cons.1 h with rfl | h
        · exact .inl rfl
        · exact .inr (List.mem_cons_of_mem _ h)
      · rcases List.mem_cons.1 h with rfl | h
        · exact .inr List.mem_cons_self
        · exact (ih h).imp_right (List.mem_cons_of_mem _)

theorem pairwise_insertPair (pair : String × String) {l : List (String × String)}
    (h : l.Pairwise fun p q => p.1 < q.1) :
    (insertPair pair l).Pairwise fun p q => p.1 < q.1 := by
  induction l with
  | nil => simp [insertPair]
  | cons p rest ih =>
    obtain ⟨hp, hr⟩ := List.pairwise_cons.1 h
    simp only [insertPair]
    split
    · rename_i hlt
      refine List.pairwise_cons.2 ⟨fun q hq => ?_, h⟩
      rcases List.mem_cons.1 hq with rfl | hq
      · exact hlt
      · exact String.lt_trans hlt (hp q hq)
    · rename_i hnlt
      split
      · rename_i heq
        exact List.pairwise_cons.2 ⟨fun q hq => heq ▸ hp q hq, hr⟩
      · rename_i hne
        refine List.pairwise_cons.2 ⟨fun q hq => ?_, ih hr⟩
        rcases mem_insertPair hq with rfl | hq
        · rcases Std.Trichotomous.rel_or_eq_or_rel_swap (r := (· < · : String → String → Prop))
            (a := p.1) (b := q.1) with h | h | h
          · exact h
          · exact absurd h.symm hne
          · exact absurd h hnlt
        · exact hp q hq

/-- The table with a pair added. A name that is already in the table gets the new pair. -/
def insert (table : RenameTable) (pair : String × String) : RenameTable :=
  ⟨insertPair pair table.toList, pairwise_insertPair pair table.ascending⟩

/-- The table of pairs that are added one after another. -/
def ofPairs (pairs : List (String × String)) : RenameTable :=
  pairs.foldl insert empty

/-- A name behind all those in the table is written at the end. -/
theorem insertPair_of_forall_lt {pair : String × String} {l : List (String × String)}
    (h : ∀ p ∈ l, p.1 < pair.1) : insertPair pair l = l ++ [pair] := by
  induction l with
  | nil => rfl
  | cons p rest ih =>
    obtain ⟨hp, hrest⟩ := List.forall_mem_cons.1 h
    rw [insertPair, if_neg (String.lt_asymm hp), if_neg fun heq => String.lt_irrefl _ (heq ▸ hp),
      ih hrest]
    rfl

theorem toList_foldl_insert {table : RenameTable} {pairs : List (String × String)}
    (h : (table.toList ++ pairs).Pairwise fun p q => p.1 < q.1) :
    (pairs.foldl insert table).toList = table.toList ++ pairs := by
  induction pairs generalizing table with
  | nil => simp
  | cons pair rest ih =>
    have hlast : (table.insert pair).toList = table.toList ++ [pair] :=
      insertPair_of_forall_lt fun p hp => (List.pairwise_append.1 h).2.2 p hp pair (by simp)
    rw [List.foldl_cons, ih (by simpa [hlast] using h), hlast]
    simp

/-- Pairs in the order of the names are the table that is made of them. -/
theorem toList_ofPairs {pairs : List (String × String)}
    (h : pairs.Pairwise fun p q => p.1 < q.1) : (ofPairs pairs).toList = pairs :=
  @toList_foldl_insert empty pairs h

theorem eq_of_toList_eq {table other : RenameTable} (h : table.toList = other.toList) :
    table = other := by
  cases table
  cases other
  cases h
  rfl

theorem ofPairs_toList (table : RenameTable) : ofPairs table.toList = table :=
  eq_of_toList_eq (toList_ofPairs table.ascending)

end RenameTable

/-- Where a stage takes its templates or combos from: documents written in the plan, a file that
holds a JSON array, or the results of an earlier stage. -/
inductive Source where
  | inline (documents : List Value)
  | file (path : String)
  | stage (name : String)

/-- One generation. -/
structure Stage where
  name : String
  paths : List String
  templates : Source
  combos : Source
  /-- The stages whose results are appended, in order. -/
  concat : List String
  rename : RenameTable
  unique : Bool

/-- How the results of a plan are written, and which. -/
structure OutputSettings where
  pretty : Bool := true
  dedup : DedupPolicy := .structural
  /-- The stage that is the output, if it is named. -/
  stage : Option String := none

/-- A list of stages with an output. -/
structure Plan where
  output : OutputSettings
  stages : List Stage

/-- The name of the output stage: the one that is named, else the last. -/
def Plan.outputStage? (plan : Plan) : Option String :=
  plan.output.stage <|> plan.stages.getLast?.map Stage.name

end Stencil
