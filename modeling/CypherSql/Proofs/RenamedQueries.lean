import CypherSql.Plan.Lowering
import CypherSql.Proofs.Pipeline
import CypherSql.Proofs.Renaming.Rewriting
import CypherSql.Proofs.Renaming.UserNames

/-! Lowering of a query with other names: the steps do not look into names, so that they fail for
both queries or for none and lead to the same tree under other ids. What the rewriting of an
expression reads of the expressions that other names stand for depends on the order in which they
are visited, which is the order of their ids.
-/

namespace CypherSql.Plan

variable {ρ : Renaming} {allowed : VarId → Prop}

/-- A lowered query is another one with each variable under its new id. -/
structure Lowered.Renamed (ρ : Renaming) (lowered other : Lowered) : Prop where
  tree : other.tree = lowered.tree.rename ρ
  vars : lowered.vars.Renamed ρ lowered.vars.Projects other.vars
  warnings : other.warnings = lowered.warnings.map (Warning.rename ρ)

/-- Every step leads from a draft and a renamed one to a draft and a renamed one. -/
theorem runStep_rename (catalog : Catalog) (ordered : VarTable.KeepsOrder ρ allowed) (step : Step)
    {draft draftOther : Draft} (renamed : draft.Renamed ρ allowed draftOther)
    : SameOutcome (Draft.Renamed ρ allowed) (runStep catalog step draft)
        (runStep catalog step draftOther) := by
  cases step with
  | collectVariables => exact .ok renamed
  | inferTypes => exact inferTypes_rename ordered renamed
  | buildScopes => exact buildScopes_rename renamed
  | nameSubqueries => exact nameSubqueries_rename renamed
  | findSources => exact findSources_rename renamed
  | moveRestrictions => exact moveRestrictions_rename renamed
  | resolveTables => exact resolveTables_rename catalog renamed
  | arrangeJoins => exact arrangeJoins_rename catalog renamed
  | findExports => exact findExports_rename renamed
  | simplifyFunctions => exact simplifyFunctions_rename renamed ordered
  | simplifyProperties => exact .ok (simplifyProperties_rename renamed ordered)
  | inlineConstants => exact .ok (inlineConstants_rename renamed ordered)
  | markProperties => exact .ok (markProperties_rename renamed ordered)
  | resolveNames => exact .ok (resolveNames_rename renamed ordered)
  | mergeVariants => exact .ok renamed

theorem runSteps_rename (catalog : Catalog) (ordered : VarTable.KeepsOrder ρ allowed)
    (steps : List Step) {draft draftOther : Draft} (renamed : draft.Renamed ρ allowed draftOther)
    : SameOutcome (Draft.Renamed ρ allowed) (runSteps catalog steps draft)
        (runSteps catalog steps draftOther) := by
  have run := SameOutcome.foldlM (f := fun draft step => runStep catalog step draft)
    (g := fun draft step => runStep catalog step draft) id steps renamed fun _ _ step =>
      runStep_rename catalog ordered step
  rwa [List.map_id] at run

variable (ρ) in
/-- A renamed tree has a faulty item if the tree has one. -/
theorem Tree.fault?_rename (needsTables : Bool) (tree : Tree)
    : ((tree.rename ρ).fault? needsTables).isSome = (tree.fault? needsTables).isSome := by
  have count : (tree.rename ρ).subqueries.length = tree.subqueries.length := List.length_map _
  have items : (tree.rename ρ).scopes.flatMap (·.select.items)
      = (tree.scopes.flatMap (·.select.items)).map (FromItem.rename ρ) := by
    rw [Tree.scopes_rename, List.flatMap_map, List.map_flatMap]
    exact congrArg (List.flatMap · _) (funext fun scope => scope.select.items_rename ρ)
  have each (item : FromItem)
      : ((tree.rename ρ).itemFault? needsTables (item.rename ρ)).isSome
        = (tree.itemFault? needsTables item).isSome := by
    have source : (item.rename ρ).source = item.source := rfl
    simp only [Tree.itemFault?, Option.isSome_or, FromItem.fault?_rename, source, count]
  rw [Tree.fault?, Tree.fault?, items, Bool.eq_iff_iff, List.isSome_findSome?,
    List.isSome_findSome?, List.any_map]
  exact iff_of_eq (congrArg (List.any _ · = true) (funext each))

theorem Draft.Renamed.finish {draft draftOther : Draft}
    (renamed : draft.Renamed ρ allowed draftOther)
    : SameOutcome (Lowered.Renamed ρ) draft.finish draftOther.finish := by
  unfold Draft.finish
  rw [renamed.tree]
  rcases rel_cases (rel_of_isSome (Tree.fault?_rename ρ true draft.tree)) with
    ⟨sound, soundOther⟩ | ⟨fault, faultOther, found, there, -⟩
  · simp only [sound, soundOther]
    exact .ok ⟨rfl, renamed.vars.restrict, renamed.warnings⟩
  · simp only [found, there]
    exact .fail rfl

/-- A query with other names, and any texts of its items, is lowered like the query where the ids of
the variables that name expressions keep their order.
-/
theorem lower_rename (catalog : Catalog) {query other : Cypher.Query}
    (renamed : other.unworded = (query.rename ρ).unworded)
    (ordered : ∀ walk, collect query = .ok walk → VarTable.KeepsOrder ρ walk.vars.Projects)
    : SameOutcome (Lowered.Renamed ρ) (lower catalog query) (lower catalog other) := by
  have collected := collect_rename renamed
  unfold lower Draft.ofQuery
  generalize collect query = first at collected ordered ⊢
  generalize collect other = second at collected ⊢
  cases collected with
  | error same => exact .error same
  | @ok walk walkOther holds =>
      have start : Draft.Renamed ρ walk.vars.Projects
          { tree := .empty, vars := walk.vars, naming := walk.naming, models := walk.models,
            warnings := [] }
          { tree := .empty, vars := walkOther.vars, naming := walkOther.naming,
            models := walkOther.models, warnings := [] } :=
        { tree := rfl, vars := holds.vars.restrict, naming := holds.naming, models := holds.models,
          warnings := rfl }
      exact (runSteps_rename catalog (ordered walk rfl) Step.pipeline start).bind fun _ _ renamed =>
        renamed.finish

/-- Other names for the variables of a query are part of a renaming of all names. Where it keeps the
alphabetical order of the ids of the variables that name expressions, the query with the other names
is lowered if the query is, to the tree with the new ids, and fails in the same category if it is
not.
-/
theorem lower_sameOutcome_of_keepsOrder (catalog : Catalog) (query other : Cypher.Query)
    (newName : String → String) (given : ∀ name ∈ query.variableNames, Cypher.IsUserName name)
    (new : ∀ name ∈ query.variableNames, Cypher.IsUserName (newName name))
    (injective : Set.InjOn newName { name | name ∈ query.variableNames })
    (renamed : other.unworded = (query.rename newName).unworded)
    : (∃ ρ : Renaming, ∀ name ∈ query.variableNames, ρ name = newName name)
      ∧ ∀ ρ : Renaming,
          (∀ name ∈ query.variableNames, ρ name = newName name)
          → (∀ walk, collect query = .ok walk → VarTable.KeepsOrder ρ walk.vars.Projects)
          → SameOutcome (Lowered.Renamed ρ) (lower catalog query) (lower catalog other) := by
  refine ⟨exists_renaming_of_injOn given new injective, fun ρ agrees ordered => ?_⟩
  have same : query.rename newName = query.rename ρ :=
    (query.rename_congr agrees).symm
  exact lower_rename catalog (same ▸ renamed) ordered

/-- The query `MATCH (a:Person) WITH id(a) AS y WITH id(y) AS z RETURN z`, for other names
`y` and `z`.
-/
def keyOfKey (y z : String) : Cypher.Query where
  clauses :=
    [.matching ⟨false, [⟨none, ⟨some "a", ["Person"], none⟩, []⟩], none⟩,
      .withItems ⟨false, [⟨.call "id" false [.var "a"], some y, "id(a)"⟩], [], none, none⟩ none,
      .withItems ⟨false, [⟨.call "id" false [.var y], some z, "id(" ++ y ++ ")"⟩], [],
        none, none⟩ none,
      .returnItems ⟨false, [⟨.var z, none, z⟩], [], none, none⟩]

/-- Witness: the key of a key is lowered under two other names that are in the same order. -/
theorem keyOfKey_sameOutcome
    : ∃ ρ : Renaming,
        ρ "y" = "b"
        ∧ ρ "z" = "c"
        ∧ (lower acquaintances.catalog (keyOfKey "y" "z")).isOk
        ∧ SameOutcome (Lowered.Renamed ρ) (lower acquaintances.catalog (keyOfKey "y" "z"))
            (lower acquaintances.catalog (keyOfKey "b" "c")) := by
  let newName := fun name => if name = "y" then "b" else if name = "z" then "c" else name
  have injective : ∀ name ∈ (keyOfKey "y" "z").variableNames,
      ∀ other ∈ (keyOfKey "y" "z").variableNames, newName name = newName other → name = other := by
    decide +kernel
  obtain ⟨⟨ρ, agrees⟩, same⟩ := lower_sameOutcome_of_keepsOrder acquaintances.catalog
    (keyOfKey "y" "z") (keyOfKey "b" "c") newName (by decide +kernel) (by decide +kernel)
    (fun name member other memberOther => injective name member other memberOther) rfl
  have y : ρ "y" = "b" := agrees "y" (by decide +kernel)
  have z : ρ "z" = "c" := agrees "z" (by decide +kernel)
  refine ⟨ρ, y, z, by decide +kernel, same ρ agrees fun walk collected => ?_⟩
  have aliases : ((collect (keyOfKey "y" "z")).toOption.all fun walk =>
      walk.vars.ids.filter walk.vars.projects = ["y", "z"]) = true := by
    decide +kernel
  have among {id : VarId} (projects : walk.vars.Projects id) : id = "y" ∨ id = "z" := by
    have listed : walk.vars.ids.filter walk.vars.projects = ["y", "z"] := by
      rw [collected] at aliases
      exact of_decide_eq_true aliases
    have member : id ∈ walk.vars.ids.filter walk.vars.projects := by
      refine List.mem_filter.mpr ⟨?_, VarTable.projects_iff.mpr projects⟩
      obtain ⟨expr, type, found⟩ := projects
      obtain ⟨var, present, -⟩ := VarTable.definition?_eq_some.mp found
      exact VarTable.mem_ids.mpr (by rw [present]; rfl)
    simpa [listed] using member
  intro id other projects projectsOther before
  rcases among projects with rfl | rfl <;> rcases among projectsOther with rfl | rfl
  · exact absurd before (by decide)
  · rw [y, z]
    decide
  · exact absurd before (by decide)
  · exact absurd before (by decide)

/-- The key of a key is lowered, but not once its two names are exchanged: the name that comes first
in the alphabet is simplified first, and the key of a node passes for the node from then on.
-/
theorem exchangedKeys_not_sameOutcome
    : ¬ ∀ (query other : Cypher.Query) (newName : String → String),
          (∀ name ∈ query.variableNames, Cypher.IsUserName name)
          → (∀ name ∈ query.variableNames, Cypher.IsUserName (newName name))
          → Set.InjOn newName { name | name ∈ query.variableNames }
          → other.unworded = (query.rename newName).unworded
          → (lower acquaintances.catalog query).isOk
            = (lower acquaintances.catalog other).isOk := by
  intro equivariant
  have same :=
    equivariant (keyOfKey "y" "z") (keyOfKey "z" "y") (Equiv.swap "y" "z") (by decide +kernel)
    (by decide +kernel) (Equiv.swap "y" "z").injective.injOn rfl
  have lowers : (lower acquaintances.catalog (keyOfKey "y" "z")).isOk = true := by decide +kernel
  have fails : (lower acquaintances.catalog (keyOfKey "z" "y")).isOk = false := by decide +kernel
  rw [lowers, fails] at same
  cases same

end CypherSql.Plan
