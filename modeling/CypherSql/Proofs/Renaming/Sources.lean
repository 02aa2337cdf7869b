import CypherSql.Plan.Scopes
import CypherSql.Plan.Sources
import CypherSql.Proofs.Renaming.Tables
import CypherSql.Proofs.Sharing.Rewriting

/-! The steps from the variable model to scopes with sources, of a query and of the same query with
other names: types, the skeleton of the tree, its sources and the places of conditions.
-/

namespace CypherSql.Plan

variable {ρ : Renaming} {allowed : VarId → Prop}

/-- A draft is another one with each variable under its new id. -/
structure Draft.Renamed (ρ : Renaming) (allowed : VarId → Prop) (draft other : Draft) : Prop where
  tree : other.tree = draft.tree.rename ρ
  vars : draft.vars.Renamed ρ allowed other.vars
  naming : draft.naming.Renamed ρ other.naming
  models : other.models = draft.models.map (ScopeModel.rename ρ)
  warnings : other.warnings = draft.warnings.map (Warning.rename ρ)

/-- Changes that agree on scopes and variables agree on drafts. -/
theorem Draft.Renamed.eachScope {draft other : Draft} (renamed : draft.Renamed ρ allowed other)
    {f g : Scope → VarTable → Except LoweringError (Scope × VarTable)}
    (each
      : ∀ scope vars varsOther,
          vars.Renamed ρ allowed varsOther
          → SameOutcome (Both (ImageOf (Scope.rename ρ)) (VarTable.Renamed ρ allowed))
            (f scope vars)
              (g (scope.rename ρ) varsOther))
    : SameOutcome (Draft.Renamed ρ allowed) (draft.eachScope f) (other.eachScope g) := by
  have scopes := Tree.mapScopesM_rename (SameOutcome.stateRelator (VarTable.Renamed ρ allowed))
    (fun scope => each scope) draft.tree
  unfold Draft.eachScope
  rw [renamed.tree]
  refine (scopes draft.vars other.vars renamed.vars).bind ?_
  rintro ⟨tree, vars⟩ ⟨_, varsOther⟩ ⟨rfl, vars⟩
  exact .ok { renamed with tree := rfl, vars }

section Types

variable {vars other : VarTable}

/-- Types are found alike, by induction over the number of names that are followed. -/
theorem typeWithin_rename (renamed : vars.Renamed ρ allowed other) (start : VarId) (times : Nat)
    (id : VarId)
    : SameOutcome Eq (typeWithin vars start times id)
      (typeWithin other (ρ start) times (ρ id)) := by
  induction times generalizing id with
  | zero => exact .fail rfl
  | succ times ih =>
      rcases rel_cases (renamed.definition? id)
        with ⟨missing, gone⟩ | ⟨definition, new, found, there, same⟩
      · simp only [typeWithin, missing, gone]
        exact .fail rfl
      · simp only [typeWithin, found, there]
        cases same with
        | projected expr type =>
            cases type with
            | some type => exact .ok rfl
            | none =>
                cases expr with
                | var target => exact ih target
                | _ => exact .ok rfl
        | _ => exact .ok rfl

/-- Where only some variables name expressions, the others are passed over, by induction over the
variables.
-/
theorem inferTypesOf_filter (p : VarId → Bool) (ids : List VarId)
    (only : ∀ id, vars.Projects id → p id)
    : inferTypesOf ids vars = inferTypesOf (ids.filter p) vars := by
  induction ids generalizing vars with
  | nil => rfl
  | cons id rest ih =>
      by_cases untyped : ∃ expr, vars.definition? id = some (.projected expr none)
      · obtain ⟨expr, found⟩ := untyped
        rw [List.filter_cons_of_pos (only id ⟨expr, none, found⟩)]
        simp only [inferTypesOf, found]
        refine bind_congr fun type => ih fun other projects => ?_
        obtain ⟨expr', type', found'⟩ := projects
        by_cases same : other = id
        · subst same
          exact only other ⟨expr, none, found⟩
        · rw [VarTable.definition?_redefine_of_ne same] at found'
          exact only other ⟨expr', type', found'⟩
      · have passed (rest : List VarId)
            : inferTypesOf (id :: rest) vars = inferTypesOf rest vars := by
          rw [inferTypesOf]
          split
          · rename_i expr found
            exact absurd ⟨expr, found⟩ untyped
          · rfl
        rw [passed, ih only, List.filter_cons]
        split
        · rw [passed]
        · rfl

/-- Variables get their types alike, by induction over them. -/
theorem inferTypesOf_rename (renamed : vars.Renamed ρ allowed other) (ids : List VarId)
    : SameOutcome (VarTable.Renamed ρ allowed) (inferTypesOf ids vars)
      (inferTypesOf (ids.map ρ) other) := by
  induction ids generalizing vars other with
  | nil => exact .ok renamed
  | cons id rest ih =>
      rcases rel_cases (renamed.definition? id)
        with ⟨missing, gone⟩ | ⟨definition, new, found, there, same⟩
      · simp only [List.map_cons, inferTypesOf, missing, gone]
        exact ih renamed
      · simp only [List.map_cons, inferTypesOf, found, there]
        cases same with
        | projected expr type =>
            cases type with
            | some type => exact ih renamed
            | none =>
                rw [renamed.size_eq]
                refine (typeWithin_rename renamed id (vars.size + 1) id).bind ?_
                rintro type _ rfl
                exact ih (renamed.redefine found (.projected expr (some type)) rfl rfl)
        | _ => exact ih renamed

theorem isNode_rename (renamed : vars.Renamed ρ allowed other) (id : VarId)
    : isNode other (ρ id) = isNode vars id := by
  have type := renamed.type?_eq id
  unfold VarTable.type? at type
  rw [isNode, isNode, type]

/-- There is an end of a relationship that is no node in both tables or in none. -/
theorem badEndpoint?_isSome (renamed : vars.Renamed ρ allowed other)
    : (badEndpoint? other).isSome = (badEndpoint? vars).isSome := by
  have bad (table : VarTable)
      : (badEndpoint? table).isSome = true
        ↔ ∃ id rel, table.relationship? id = some rel
            ∧ (isNode table rel.left = false ∨ isNode table rel.right = false) := by
    rw [badEndpoint?, List.isSome_findSome?, List.any_eq_true]
    constructor
    · rintro ⟨var, member, found⟩
      obtain ⟨id, present⟩ := VarTable.mem_toList.mp member
      cases kind : var.definition with
      | relationship rel =>
          have own := VarTable.definition?_of_get? present
          rw [kind] at own found
          refine ⟨id, rel, VarTable.relationship?_eq_some.mpr own, ?_⟩
          simpa using found
      | _ =>
          rw [kind] at found
          cases found
    · rintro ⟨id, rel, found, ends⟩
      obtain ⟨var, present, kind⟩ :=
        VarTable.definition?_eq_some.mp (VarTable.relationship?_eq_some.mp found)
      refine ⟨var, VarTable.mem_toList.mpr ⟨id, present⟩, ?_⟩
      rw [kind]
      simpa using ends
  rw [Bool.eq_iff_iff, bad, bad]
  constructor
  · rintro ⟨id, rel, found, ends⟩
    obtain ⟨old, rfl⟩ := ρ.exists_eq id
    rw [renamed.relationship?_eq, Option.map_eq_some_iff] at found
    obtain ⟨rel, found, rfl⟩ := found
    refine ⟨old, rel, found, ?_⟩
    simpa only [RelationshipVar.rename, isNode_rename renamed] using ends
  · rintro ⟨id, rel, found, ends⟩
    refine ⟨ρ id, rel.rename ρ, ?_, ?_⟩
    · rw [renamed.relationship?_eq, found, Option.map_some]
    · simpa only [RelationshipVar.rename, isNode_rename renamed] using ends

theorem inferTypes_rename (ordered : VarTable.KeepsOrder ρ allowed) {draft other : Draft}
    (renamed : draft.Renamed ρ allowed other)
    : SameOutcome (Draft.Renamed ρ allowed) (inferTypes draft) (inferTypes other) := by
  have visited (vars : VarTable)
      : inferTypesOf vars.ids vars = inferTypesOf (vars.ids.filter vars.projects) vars :=
    inferTypesOf_filter _ _ fun _ => VarTable.projects_iff.mpr
  unfold inferTypes
  rw [visited draft.vars, visited other.vars, renamed.vars.projecting_eq ordered]
  refine (inferTypesOf_rename renamed.vars _).bind fun vars varsOther same => ?_
  rcases rel_cases (rel_of_isSome (badEndpoint?_isSome same)) with
    ⟨missing, gone⟩ | ⟨breach, other, found, there, -⟩
  · simp only [missing, gone]
    exact .ok { renamed with vars := same }
  · simp only [found, there]
    exact .fail rfl

end Types

section Scopes

variable (ρ) in
theorem ScopeModel.scope_rename (model : ScopeModel) (index : Nat)
    : (model.rename ρ).scope index = (model.scope index).rename ρ := by
  have conditions (filter : Option Expr)
      : (filter.map (Expr.rename ρ)).elim [] Expr.conjuncts
        = (filter.elim [] Expr.conjuncts).map (Expr.rename ρ) := by
    cases filter with
    | none => rfl
    | some condition => exact condition.conjuncts_rename ρ
  have sorting (keys : List SortKey)
      : (keys.map (SortKey.rename ρ)).filter (fun key => !key.expr.isConstant)
        = (keys.filter fun key => !key.expr.isConstant).map (SortKey.rename ρ) := by
    rw [List.filter_map]
    refine congrArg _ (List.filter_congr fun key _ => ?_)
    exact congrArg _ (key.expr.isConstant_rename ρ)
  simp only [ScopeModel.scope, ScopeModel.rename, Scope.rename, Select.rename,
    Select.empty, conditions, sorting, List.map_nil]

variable (ρ) in
theorem ScopeModel.warnings_rename (model : ScopeModel) (index : Nat)
    : (model.rename ρ).warnings index = (model.warnings index).map (Warning.rename ρ) := by
  simp only [ScopeModel.warnings, ScopeModel.rename, List.filter_map, List.map_map]
  have same : (fun key : SortKey => key.expr.isConstant) ∘ SortKey.rename ρ
      = fun key => key.expr.isConstant :=
    funext fun key => key.expr.isConstant_rename ρ
  rw [same]
  rfl

/-- Trees are built alike, by induction over the models. -/
theorem treeFrom_rename (count index : Nat) (models : List ScopeModel)
    : SameOutcome
      (Both (ImageOf (List.map (Subquery.rename ρ))) (ImageOf (Option.map (Scope.rename ρ))))
        (treeFrom count index models)
        (treeFrom count index (models.map (ScopeModel.rename ρ))) := by
  induction models generalizing index with
  | nil => exact .ok ⟨rfl, rfl⟩
  | cons model rest ih =>
      obtain ⟨kind, clauses, items, distinct, orderBy, skip, limit, filter⟩ := model
      cases kind with
      | withClause =>
          cases rest with
          | nil => exact .fail rfl
          | cons next rest =>
              refine (ih (index + 1)).bind ?_
              rintro ⟨subqueries, root⟩ ⟨_, _⟩ ⟨rfl, rfl⟩
              refine .ok ⟨?_, rfl⟩
              exact congrArg (· :: subqueries.map (Subquery.rename ρ))
                (congrArg (Subquery.mk none · []) (ScopeModel.scope_rename ρ _ index))
      | returnClause =>
          cases rest with
          | nil => exact .ok ⟨rfl, congrArg some (ScopeModel.scope_rename ρ _ index)⟩
          | cons next rest => exact .fail rfl

theorem buildScopes_rename {draft other : Draft} (renamed : draft.Renamed ρ allowed other)
    : SameOutcome (Draft.Renamed ρ allowed) (buildScopes draft) (buildScopes other) := by
  have built : other.tree.subqueries.isEmpty = draft.tree.subqueries.isEmpty := by
    rw [renamed.tree]
    exact List.isEmpty_map
  have warnings : (other.models.zipIdx.flatMap fun entry => entry.1.warnings entry.2)
      = (draft.models.zipIdx.flatMap fun entry => entry.1.warnings entry.2).map
        (Warning.rename ρ) := by
    rw [renamed.models, List.zipIdx_map, List.flatMap_map, List.map_flatMap]
    exact congrArg (List.flatMap · _) (funext fun entry => entry.1.warnings_rename ρ entry.2)
  unfold buildScopes
  rw [built]
  split
  · exact .fail rfl
  · rw [warnings, renamed.models, List.length_map]
    refine (treeFrom_rename _ _ draft.models).bind ?_
    rintro ⟨subqueries, root⟩ ⟨_, _⟩ ⟨rfl, rfl⟩
    cases root with
    | none => exact .fail rfl
    | some root =>
        refine .ok { renamed with tree := rfl, models := rfl, warnings := ?_ }
        simp only [renamed.warnings, List.map_append]

/-- Subqueries are named alike, by induction over them. -/
theorem nameAll_rename {naming namingOther : Naming} (renamed : naming.Renamed ρ namingOther)
    (subqueries : List Subquery)
    : SameOutcome (Both (ImageOf (List.map (Subquery.rename ρ))) (Naming.Renamed ρ))
        (nameAll naming subqueries) (nameAll namingOther (subqueries.map (Subquery.rename ρ))) := by
  induction subqueries generalizing naming namingOther with
  | nil => exact .ok ⟨rfl, renamed⟩
  | cons subquery rest ih =>
      obtain ⟨name, scope, exports⟩ := subquery
      cases name with
      | some name => exact .fail rfl
      | none =>
          obtain ⟨name, later⟩ := renamed.freshSubquery
          simp only [List.map_cons, nameAll, Subquery.rename, name]
          refine (ih later).bind ?_
          rintro ⟨subqueries, last⟩ ⟨_, lastOther⟩ ⟨rfl, renamed⟩
          exact .ok ⟨rfl, renamed⟩

theorem nameSubqueries_rename {draft other : Draft} (renamed : draft.Renamed ρ allowed other)
    : SameOutcome (Draft.Renamed ρ allowed) (nameSubqueries draft) (nameSubqueries other) := by
  unfold nameSubqueries
  rw [renamed.tree]
  refine (nameAll_rename renamed.naming draft.tree.subqueries).bind ?_
  rintro ⟨subqueries, naming⟩ ⟨_, namingOther⟩ ⟨rfl, naming⟩
  exact .ok { renamed with tree := rfl, naming }

end Scopes

section Sources

variable {vars other : VarTable}

theorem addNew_rename (seen ids : List VarId)
    : addNew (seen.map ρ) (ids.map ρ) = (addNew seen ids).map ρ := by
  unfold addNew
  induction ids generalizing seen with
  | nil => rfl
  | cons id rest ih =>
      simp only [List.map_cons, List.foldl_cons, List.mem_map_of_injective ρ.injective]
      split
      · exact ih seen
      · rw [← ih (seen ++ [id]), List.map_append, List.map_cons, List.map_nil]

theorem projected_rename (step : Step) (renamed : vars.Renamed ρ allowed other) (scope : Scope)
    : SameOutcome (ImageOf (List.map ρ)) (projected step vars scope)
        (projected step other (scope.rename ρ)) := by
  have unnamed : (scope.rename ρ).items.findSome? Item.unnamed?
      = (scope.items.findSome? Item.unnamed?).map (Expr.rename ρ) := by
    have each : Item.unnamed? ∘ Item.rename ρ = fun item => item.unnamed?.map (Expr.rename ρ) := by
      funext item
      rcases item with id | ⟨expr, column⟩
      · rfl
      · cases expr <;> rfl
    rw [Scope.rename, List.findSome?_map, each, List.map_findSome?]
    rfl
  have items : (scope.rename ρ).items.filterMap Item.projected?
      = (scope.items.filterMap Item.projected?).map ρ := by
    refine filterMap_image ?_ scope.items
    rintro (id | ⟨expr, column⟩)
    · rfl
    · cases expr <;> rfl
  have resolved : ((scope.items.filterMap Item.projected?).map ρ).map other.resolve
      = ((scope.items.filterMap Item.projected?).map vars.resolve).map ρ := by
    simp [renamed.resolve_eq]
  have kind : (scope.rename ρ).kind = scope.kind := rfl
  have new := addNew_rename (ρ := ρ) [] ((scope.items.filterMap Item.projected?).map vars.resolve)
  unfold projected
  rw [unnamed, items, resolved, kind]
  cases scope.kind with
  | returnClause => exact .ok new
  | withClause =>
      cases scope.items.findSome? Item.unnamed? with
      | none => exact .ok new
      | some expr => exact .fail rfl

theorem withElements_rename (renamed : vars.Renamed ρ allowed other) (id : VarId)
    : withElements other (ρ id) = (withElements vars id).map ρ := by
  rcases rel_cases (renamed.definition? id)
    with ⟨missing, gone⟩ | ⟨definition, new, found, there, same⟩
  · simp only [withElements, missing, gone, List.map_cons, List.map_nil]
  · simp only [withElements, found, there]
    cases same <;> rfl

theorem suppliedBy_rename (renamed : vars.Renamed ρ allowed other) (scope : Scope)
    : SameOutcome (ImageOf (List.map ρ)) (suppliedBy vars scope)
      (suppliedBy other (scope.rename ρ)) := by
  unfold suppliedBy
  refine (projected_rename .findSources renamed scope).bind_image fun ids => .ok ?_
  have supplied
      : (ids.map ρ).flatMap (withElements other) = (ids.flatMap (withElements vars)).map ρ := by
    rw [List.flatMap_map, List.map_flatMap]
    exact congrArg (List.flatMap · ids) (funext (withElements_rename renamed))
  rw [supplied]
  exact addNew_rename [] _

theorem innerItems_rename (supplied : List (List VarId)) (scope : Scope)
    : SameOutcome (ImageOf (List.map (FromItem.rename ρ))) (innerItems supplied scope)
        (innerItems (supplied.map (List.map ρ)) (scope.rename ρ)) := by
  have inner : (scope.rename ρ).inner = scope.inner := rfl
  unfold innerItems
  rw [inner]
  cases scope.inner with
  | none => exact .ok rfl
  | some source =>
      simp only [List.getElem?_map]
      rcases supplied[source]? with _ | _ | ⟨id, ids⟩
      · exact .fail rfl
      · exact .fail rfl
      · exact .ok rfl

variable (ρ) in
theorem tableItems_rename (scope : Scope)
    : tableItems (scope.rename ρ) = (tableItems scope).map (FromItem.rename ρ) := by
  simp only [tableItems, Scope.rename, List.zipIdx_map, List.flatMap_map, List.map_flatMap]
  refine congrArg (List.flatMap · _) (funext fun entry => ?_)
  simp [ReadingClause.rename, FromItem.ofTable, FromItem.rename]

/-- What a renamed scope refers to are the new ids of what the scope refers to. -/
theorem referenced_rename (renamed : vars.Renamed ρ allowed other) (scope : Scope)
    : (referenced vars scope).Renamed ρ (referenced other (scope.rename ρ)) := by
  have dependencies (id : VarId)
      : ((vars.dependencies.get? id).getD ∅).Renamed ρ
        ((other.dependencies.get? (ρ id)).getD ∅) := by
    rcases rel_cases (renamed.dependencies id) with ⟨missing, gone⟩ | ⟨set, new, found, there, same⟩
    · rw [missing, gone]
      exact .empty
    · rw [found, there]
      exact same
  have relationships : (scope.rename ρ).clauses.flatMap (·.relationships)
      = (scope.clauses.flatMap (·.relationships)).map ρ := by
    simp only [Scope.rename, List.flatMap_map, List.map_flatMap]
    rfl
  unfold referenced
  rw [Scope.expressions_rename, Scope.declared_rename, relationships]
  have expressions := NameSet.Renamed.empty.foldl_union scope.expressions fun expr : Expr =>
    expr.references_rename ρ
  exact (expressions.foldl_union scope.declared dependencies).foldl_union _ dependencies

theorem referenceBreach?_isSome (renamed : vars.Renamed ρ allowed other) (scope : Scope)
    (items : List FromItem) (id : VarId)
    : (referenceBreach? other (scope.rename ρ) (items.map (FromItem.rename ρ)) (ρ id)).isSome
      = (referenceBreach? vars scope items id).isSome := by
  have supplies (id : VarId)
      : (items.map (FromItem.rename ρ)).any (·.supplies (ρ id)) = items.any (·.supplies id) := by
    rw [List.any_map]
    exact congrArg items.any (funext fun item => item.supplies_rename ρ id)
  simp only [referenceBreach?, renamed.resolve_eq]
  rcases rel_cases (renamed.get? (vars.resolve id))
    with ⟨missing, gone⟩ | ⟨var, new, found, there, same⟩
  · simp only [missing, gone, Option.isSome_some]
  · simp only [found, there, same.scope, supplies, Scope.rename]
    split <;> rfl

theorem scopeSources_rename (renamed : vars.Renamed ρ allowed other) (supplied : List (List VarId))
    (scope : Scope)
    : SameOutcome (ImageOf (Scope.rename ρ)) (scopeSources vars supplied scope)
        (scopeSources other (supplied.map (List.map ρ)) (scope.rename ρ)) := by
  unfold scopeSources
  have sources
      : (!(scope.rename ρ).select.fromItems.isEmpty || !(scope.rename ρ).select.joins.isEmpty)
      = (!scope.select.fromItems.isEmpty || !scope.select.joins.isEmpty) := by
    simp only [Scope.rename, Select.rename, List.isEmpty_map]
  rw [sources]
  split
  · exact .fail rfl
  · refine (innerItems_rename supplied scope).bind_image fun inner => ?_
    simp only [tableItems_rename, ← List.map_append]
    have breach := (referenced_rename renamed scope).findSome?_isSome
      (referenceBreach?_isSome renamed scope (inner ++ tableItems scope))
    rcases rel_cases (rel_of_isSome breach) with ⟨missing, gone⟩ | ⟨breach, other, found, there, -⟩
    · simp only [missing, gone]
      exact .ok rfl
    · simp only [found, there]
      exact .fail rfl

theorem findSources_rename {draft other : Draft} (renamed : draft.Renamed ρ allowed other)
    : SameOutcome (Draft.Renamed ρ allowed) (findSources draft) (findSources other) := by
  unfold findSources
  rw [renamed.tree]
  refine (SameOutcome.relator.mapM (Subquery.rename ρ) (List.map ρ) fun subquery _ => ?_).bind_image
    fun supplied => ?_
  · exact suppliedBy_rename renamed.vars subquery.scope
  refine (Tree.mapScopesM_rename SameOutcome.relator
    (scopeSources_rename renamed.vars supplied) draft.tree).bind_image fun tree => ?_
  exact .ok { renamed with tree := rfl }

end Sources

end CypherSql.Plan
