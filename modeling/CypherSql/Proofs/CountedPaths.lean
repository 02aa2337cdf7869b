import CypherSql.Proofs.Paths.Matches
import CypherSql.Proofs.SubqueryColumns

/-! Paths that are counted by their first nodes: which clauses have to be found for that to be
right.
-/

namespace CypherSql.Plan

variable {catalog : Catalog} {query : Cypher.Query} {walk : Walk} {draft : Draft} {vars : VarTable}
  {id : VarId} {hops : Nat} {elements : List VarId}

/-- Where functions are about to be simplified, variables stand for the paths that were collected,
and go on to do so while that is done.
-/
theorem pathOf?_of_draftAfter? (collected : collect query = .ok walk)
    (reached : draftAfter? catalog .findExports query = some draft)
    (keeps : draft.vars.KeepsPaths walk.declared vars) (id : VarId)
    : pathOf? vars id = pathOf? walk.vars id := by
  obtain ⟨start, begins, runs⟩ := draftAfter?_eq_some reached
  have upTo : Step.findExports.upTo = Step.arrangeJoins.upTo ++ [.findExports] := by decide
  obtain ⟨arranged, arranges, finds⟩ := QueryModel.exists_of_runSteps_append (upTo ▸ runs)
  have finds : findExports arranged = .ok draft := by simpa [runSteps, runStep] using finds
  obtain ⟨other, collected', empty, models, sameVars⟩ := QueryModel.exists_of_ofQuery begins
  obtain rfl := Except.ok.inj (collected.symm.trans collected')
  obtain ⟨inOrder, isCollected, -⟩ := (collect_safely query).of_ok collected
  have after
      : QueryModel.After ⟨walk.vars, walk.models, isCollected⟩ catalog start .collectVariables :=
    ⟨empty, models, sameVars⟩
  obtain ⟨refined, -⟩ := (after.arranged arranges).2
  rw [← Draft.findExports_vars finds] at refined
  exact ((keeps (refined.typed inOrder)).2 id).trans (refined.pathOf?_eq id)

/-- A path of a query that a clause declares has a chain of elements, and so a first node. -/
theorem exists_declaredPath (collected : collect query = .ok walk)
    (isPath : pathOf? walk.vars id = some (hops, elements))
    : ∃ first rest,
        elements = first :: rest
        ∧ ∀ clauses clause,
            clause ∈ clauses
            → walk.vars.resolve id ∈ clause.declared
            → DeclaredPath walk.vars clauses clause (walk.vars.resolve id) hops first rest := by
  obtain ⟨-, isCollected, -⟩ := (collect_safely query).of_ok collected
  have hasPath := VarTable.hasPath_resolve isPath
  obtain ⟨var, found, defined⟩ := VarTable.definition?_eq_some.mp hasPath.definition?
  have linked := isCollected.linked found
  rw [defined] at linked
  obtain ⟨length, chain⟩ := linked
  cases elements with
  | nil => exact chain.elim
  | cons first rest =>
      exact ⟨first, rest, rfl, fun clauses clause member declared =>
        ⟨member, declared, hasPath, length, chain⟩⟩

/-- A count of a path is made a count of its first node. In every bag of matches of the patterns up
to a scope both are the same exactly if the clause that declares the path is found wherever that
node has a key, and either all paths are counted or they have no hops.
-/
theorem countOfPath_iff (Key : Type) [DecidableEq Key] [Nontrivial Key]
    (collected : collect query = .ok walk)
    (reached : draftAfter? catalog .findExports query = some draft)
    (keeps : draft.vars.KeepsPaths walk.declared vars)
    (isPath : pathOf? vars id = some (hops, elements))
    : ∃ clauses first,
        patternClauses query = .ok clauses
        ∧ elements.head? = some first
        ∧ (∃ clause ∈ clauses, walk.vars.resolve id ∈ clause.declared)
        ∧ ∀ clause ∈ clauses,
            walk.vars.resolve id ∈ clause.declared
            → ∀ (scope : Nat) (distinct : Bool),
                clause.scope ≤ scope
                → simplifyFunction vars (.aggregate .count distinct [.var id])
                    = .ok (.aggregate .count distinct [.var first])
                  ∧ (SameCounts walk.vars (clauses.filter (·.scope ≤ scope)) distinct
                        (fun m : Match Key => m.key (walk.vars.resolve first))
                        (fun m => m.pathValue walk.vars clause elements)
                      ↔ clause.FoundWith walk.vars (clauses.filter (·.scope ≤ scope))
                            (walk.vars.resolve first)
                        ∧ (distinct = true → hops = 0)) := by
  have collectedPath := (pathOf?_of_draftAfter? collected reached keeps id).symm.trans isPath
  obtain ⟨first, rest, rfl, declares⟩ := exists_declaredPath collected collectedPath
  obtain ⟨clauses, isClauses, each⟩ := collect_patternClauses collected
  refine ⟨clauses, first, isClauses, rfl, each _ _ (VarTable.hasPath_resolve collectedPath), ?_⟩
  intro clause member declared scope distinct before
  have seen : clause ∈ clauses.filter (·.scope ≤ scope) :=
    List.mem_filter.mpr ⟨member, decide_eq_true before⟩
  refine ⟨?_, (declares _ clause seen declared).count_iff distinct⟩
  simp [simplifyFunction, countArgs, isPath]

/-- The query `MATCH (a:Person) OPTIONAL MATCH p = (b:Person)-[:KNOWS]->(a) RETURN count(p) AS n`.
-/
def incomingPaths : Cypher.Query where
  clauses :=
    [.matching ⟨false, [⟨none, ⟨some "a", ["Person"], none⟩, []⟩], none⟩,
      .matching
        ⟨true,
          [⟨some "p", ⟨some "b", ["Person"], none⟩,
            [(⟨none, .right, ["KNOWS"], none, none⟩, ⟨some "a", [], none⟩)]⟩],
          none⟩,
      .returnItems ⟨false, [⟨.call "count" false [.var "p"], some "n", "count(p)"⟩],
        [], none, none⟩]

/-- Witness: an optional path that declares its first node is counted by it, but the different paths
among several are not.
-/
theorem incomingPaths_counted
    : ∃ walk draft clauses clause,
        collect incomingPaths = .ok walk
        ∧ draftAfter? acquaintances.catalog .findExports incomingPaths = some draft
        ∧ pathOf? draft.vars "p" = some (1, ["b", "anon_r", "a"])
        ∧ patternClauses incomingPaths = .ok clauses
        ∧ clause ∈ clauses
        ∧ "p" ∈ clause.declared
        ∧ SameCounts walk.vars (clauses.filter (·.scope ≤ 0)) false (fun m : Match Nat => m.key "b")
            (fun m => m.pathValue walk.vars clause ["b", "anon_r", "a"])
        ∧ ¬ SameCounts walk.vars (clauses.filter (·.scope ≤ 0)) true
          (fun m : Match Nat => m.key "b")
            (fun m => m.pathValue walk.vars clause ["b", "anon_r", "a"]) := by
  have walks : ((collect incomingPaths).toOption.any fun walk =>
      walk.vars.resolve "p" = "p" && walk.vars.resolve "b" = "b") = true := by
    decide +kernel
  have drafts : ((draftAfter? acquaintances.catalog .findExports incomingPaths).any fun draft =>
      pathOf? draft.vars "p" = some (1, ["b", "anon_r", "a"])) = true := by
    decide +kernel
  have declaring : ((patternClauses incomingPaths).toOption.any fun clauses =>
      clauses.all fun clause => "p" ∉ clause.declared || clause.scope = 0 && "b" ∈ clause.declared)
      = true := by
    decide +kernel
  obtain ⟨walk, collected, names⟩ := (Option.any_eq_true _ _).mp walks
  obtain ⟨draft, reached, isPath⟩ := (Option.any_eq_true _ _).mp drafts
  obtain ⟨all, patterns, declaring⟩ := (Option.any_eq_true _ _).mp declaring
  have collected := toOption_eq_some.mp collected
  have isPath := of_decide_eq_true isPath
  simp only [Bool.and_eq_true, decide_eq_true_iff] at names
  obtain ⟨samePath, sameNode⟩ := names
  obtain ⟨clauses, first, isClauses, isFirst, ⟨clause, member, declared⟩, counts⟩ :=
    countOfPath_iff Nat collected reached (VarTable.KeepsPaths.threads.refl _) isPath
  obtain rfl := Option.some.inj isFirst
  obtain rfl := Except.ok.inj ((toOption_eq_some.mp patterns).symm.trans isClauses)
  have own := List.all_eq_true.mp declaring clause member
  rw [samePath] at declared
  simp only [declared, not_true_eq_false, decide_false, Bool.false_or, Bool.and_eq_true,
    decide_eq_true_iff] at own
  obtain ⟨scope, declaresFirst⟩ := own
  have counts (distinct : Bool) :=
    counts clause member (by rwa [samePath]) 0 distinct (Nat.le_of_eq scope)
  simp only [sameNode] at counts
  refine ⟨walk, draft, all, clause, collected, reached, isPath, isClauses, member, declared,
    (counts false).2.mpr ⟨?_, nofun⟩, fun same => ?_⟩
  · exact .declares (List.mem_filter.mpr ⟨member, decide_eq_true (Nat.le_of_eq scope)⟩)
      declaresFirst
  · cases ((counts true).2.mp same).2 rfl

/-- The query `MATCH (a:Person) OPTIONAL MATCH p = (a)-[:KNOWS]->(b:Person) RETURN count(p) AS n`.
-/
def outgoingPaths : Cypher.Query where
  clauses :=
    [.matching ⟨false, [⟨none, ⟨some "a", ["Person"], none⟩, []⟩], none⟩,
      .matching
        ⟨true,
          [⟨some "p", ⟨some "a", [], none⟩,
            [(⟨none, .right, ["KNOWS"], none, none⟩, ⟨some "b", ["Person"], none⟩)]⟩],
          none⟩,
      .returnItems ⟨false, [⟨.call "count" false [.var "p"], some "n", "count(p)"⟩],
        [], none, none⟩]

instance {Key : Type} (vars : VarTable) (clauses : List PatternClause) (m : Match Key)
    : Decidable (m.Fits vars clauses) :=
  decidable_of_iff
    ((∀ clause ∈ clauses, clause.isOptional = false → m.found clause = true)
      ∧ (∀ clause ∈ clauses,
          m.found clause = true → ∀ id ∈ clause.elements vars, (m.key id).isSome = true)
      ∧ ∀ clause ∈ clauses,
          m.found clause = false → ∀ id ∈ clause.declared, (m.key id).isNone = true)
    ⟨fun ⟨required, bound, unbound⟩ => ⟨required, bound, by simpa using unbound⟩,
      fun fits => ⟨fits.required, fits.bound, by simpa using fits.unbound⟩⟩

/-- A match of a person who knows nobody. -/
def aloneMatch : Match Nat where
  found := fun clause => !clause.isOptional
  key := fun id => if id = "a" then some 0 else none

/-- An optional path that is not found is counted where another clause declares its first node. -/
theorem outgoingPaths_miscounted
    : ∃ walk draft clauses,
        collect outgoingPaths = .ok walk
        ∧ draftAfter? acquaintances.catalog .findExports outgoingPaths = some draft
        ∧ patternClauses outgoingPaths = .ok clauses
        ∧ simplifyFunction draft.vars (.aggregate .count false [.var "p"])
            = .ok (.aggregate .count false [.var "a"])
        ∧ aloneMatch.Fits walk.vars clauses
        ∧ ∃ clause ∈ clauses,
            "p" ∈ clause.declared
            ∧ countBound false {aloneMatch.key "a"} = 1
            ∧ countBound false {aloneMatch.pathValue walk.vars clause ["a", "anon_r", "b"]}
              = 0 := by
  have reached : ((collect outgoingPaths).toOption.any fun walk =>
      (draftAfter? acquaintances.catalog .findExports outgoingPaths).any fun draft =>
        (patternClauses outgoingPaths).toOption.any fun clauses =>
          (simplifyFunction draft.vars (.aggregate .count false [.var "p"])).toOption
              = some (.aggregate .count false [.var "a"])
            && aloneMatch.Fits walk.vars clauses
            && clauses.any fun clause =>
              "p" ∈ clause.declared
              && countBound false {aloneMatch.key "a"} = 1
              && countBound false {aloneMatch.pathValue walk.vars clause ["a", "anon_r", "b"]} = 0)
      = true := by
    decide +kernel
  obtain ⟨walk, collected, reached⟩ := (Option.any_eq_true _ _).mp reached
  obtain ⟨draft, drafts, reached⟩ := (Option.any_eq_true _ _).mp reached
  obtain ⟨clauses, patterns, reached⟩ := (Option.any_eq_true _ _).mp reached
  simp only [Bool.and_eq_true, decide_eq_true_iff, List.any_eq_true, toOption_eq_some] at reached
  obtain ⟨⟨simplified, fits⟩, clause, member, ⟨declared, counted⟩, notCounted⟩ := reached
  exact ⟨walk, draft, clauses, toOption_eq_some.mp collected, drafts, toOption_eq_some.mp patterns,
    simplified, fits, clause, member, declared, counted, notCounted⟩

end CypherSql.Plan
