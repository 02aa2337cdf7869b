import CypherSql.Proofs.Paths.Kept
import CypherSql.Proofs.SubqueryColumns

/-! What becomes of sort keys. The keys of a finished tree are those of the query as it was
collected, without its constants, and rewritten one by one.
-/

namespace CypherSql.Plan

/-- A sort key with its expression replaced. -/
def SortKey.mapExpr (f : Expr → Expr) (key : SortKey) : SortKey :=
  { key with expr := f key.expr }

/-- The sort keys of a model but for constants. -/
def ScopeModel.sortKeys (model : ScopeModel) : List SortKey :=
  model.orderBy.filter fun key => !key.expr.isConstant

/-- The sort keys of a scope are those of its model, each of them rewritten. -/
def ScopeModel.Sorts (rewrite : Nat → Expr → Expr) (model : ScopeModel) (scope : Scope) : Prop :=
  scope.orderBy = model.sortKeys.map (SortKey.mapExpr (rewrite scope.index))

/-- The items and sort keys of a scope are rewritten. -/
structure Scope.Rewritten (f : Site → Expr → Expr) (old new : Scope) : Prop where
  kind : new.kind = old.kind
  index : new.index = old.index
  items : new.items = old.items.map (Item.mapExpr (f ⟨old.index, old.kind = .withClause⟩))
  orderBy : new.orderBy = old.orderBy.map (SortKey.mapExpr (f ⟨old.index, false⟩))

section Keys

variable {m : Type → Type} [Monad m] [LawfulMonad m] (modality : Modality m)

/-- Rewriting the expressions of a scope rewrites its items and sort keys. -/
theorem Scope.mapExprsM_rewrites {f : Site → Expr → m Expr} {g : Site → Expr → Expr}
    (each : ∀ site expr, modality.Holds (fun new => g site expr = new) (f site expr))
    (scope : Scope)
    : modality.Holds (Scope.Rewritten g scope) (scope.mapExprsM f) := by
  have any (site : Site) (expr : Expr) : modality.Holds (fun _ => True) (f site expr) :=
    modality.mono (each site expr) fun _ _ => trivial
  have eachItem (site : Site) (item : Item)
      : modality.Holds (fun later => item.mapExpr (g site) = later) (item.mapExprsM (f site)) := by
    cases item with
    | named id => exact modality.pure rfl
    | unnamed expr column =>
        exact modality.bind (each site expr) fun _ same =>
          modality.pure (by rw [Item.mapExpr, same])
  have listed {α : Type} {old new : List α} {change : α → α}
      (changed : List.Forall₂ (fun one other => change one = other) old new)
      : new = old.map change := by
    simpa using map_eq_of_forall₂ (g := id) changed fun _ _ same => same.symm
  unfold Scope.mapExprsM
  refine modality.bind (modality.mapM fun item _ => eachItem _ item) fun items rewritten => ?_
  refine modality.bind (modality.mapM fun key _ => show modality.Holds
      (fun later => key.mapExpr (g ⟨scope.index, false⟩) = later) _ from
    modality.bind (each _ key.expr) fun _ same => modality.pure (by rw [SortKey.mapExpr, same]))
    fun orderBy keys => ?_
  refine modality.bind (modality.optionMapM scope.skip fun expr _ => any _ expr) fun skip _ => ?_
  refine modality.bind (modality.optionMapM scope.limit fun expr _ => any _ expr) fun limit _ => ?_
  refine modality.bind (modality.mapM fun expr _ => any _ expr) fun conditions _ => ?_
  refine modality.bind (modality.mapM fun clause _ => show modality.Holds (fun _ => True) _ from
    modality.bind (modality.optionMapM clause.condition fun expr _ => any _ expr) fun _ _ =>
      modality.pure trivial) fun clauses _ => ?_
  refine modality.bind (modality.mapM fun item _ =>
    FromItem.mapExprsM_alike modality (any _) item) fun fromItems _ => ?_
  refine modality.bind (modality.mapM fun join _ =>
    Join.mapExprsM_alike modality (any _) join) fun joins _ => ?_
  exact modality.pure ⟨rfl, rfl, listed rewritten, listed keys⟩

/-- Rewriting the expressions of a draft rewrites its sort keys once more. -/
theorem Draft.mapExprsM_sorts {f : VarTable → Site → Expr → m Expr} {g : Site → Expr → Expr}
    {before : Nat → Expr → Expr} {models : List ScopeModel} {draft : Draft}
    (each : ∀ site expr, modality.Holds (fun new => g site expr = new) (f draft.vars site expr))
    (any : ∀ {α : Type} (result : m α), modality.Holds (fun _ => True) result)
    (sorts : draft.tree.Each models (ScopeModel.Sorts before))
    : modality.Holds
        (fun later =>
          later.tree.Each models
            (ScopeModel.Sorts fun index expr => g ⟨index, false⟩ (before index expr)))
        (draft.mapExprsM f) := by
  unfold Draft.mapExprsM
  refine modality.bind (Tree.mapScopesM_holds modality fun scope _ =>
    Scope.mapExprsM_rewrites modality each scope) fun tree maps => ?_
  refine modality.bind (any _) fun vars _ => modality.pure ?_
  refine sorts.maps maps fun model old new _ sorted rewritten => ⟨rewritten.index, ?_⟩
  rw [ScopeModel.Sorts, rewritten.orderBy, rewritten.index, sorted, List.map_map]
  rfl

end Keys

variable {models : List ScopeModel} {draft : Draft} {before : Nat → Expr → Expr}

/-- The same for rewriting that does not fail. -/
theorem Draft.mapExprs_sorts {f : VarTable → Site → Expr → Expr}
    (sorts : draft.tree.Each models (ScopeModel.Sorts before))
    : (draft.mapExprs f).tree.Each models
        (ScopeModel.Sorts fun index expr => f draft.vars ⟨index, false⟩ (before index expr)) :=
  Draft.mapExprsM_sorts Modality.ofId (g := f draft.vars) (fun _ _ => rfl) (fun _ => trivial) sorts

/-- Dropping constants leaves the sort keys. -/
theorem Draft.dropConstants_sorts (sorts : draft.tree.Each models (ScopeModel.Sorts before))
    : (dropConstants draft).tree.Each models (ScopeModel.Sorts before) := by
  have contents := (dropConstants_drops draft).contents
  refine ⟨?_, fun scope member => ?_⟩
  · have indices := congrArg (List.map Prod.fst) contents
    simp only [List.map_map] at indices
    exact indices.trans sorts.indexed
  · have listed := List.mem_map_of_mem (f := Scope.contents) member
    rw [contents] at listed
    obtain ⟨old, present, same⟩ := List.mem_map.mp listed
    simp only [Scope.contents, Prod.mk.injEq] at same
    obtain ⟨model, found, sorted⟩ := sorts.each old present
    refine ⟨model, same.1 ▸ found, ?_⟩
    rw [ScopeModel.Sorts, ← same.2.2.2, ← same.1]
    exact sorted

/-- The tables with which functions and properties are simplified and constants put in place of
variables, for variables as they were collected.
-/
structure Stages (vars : VarTable) where
  functions : VarTable
  properties : VarTable
  constants : VarTable
  paths : ∀ id, pathOf? functions id = pathOf? vars id
  constant : ∀ id, constant? constants id = vars.measured? id
  entity : ∀ id, isEntity functions id = true → vars.measured? id = none
  named
    : ∀ id,
        isEntity properties id = true
        → vars.measured? id = none ∧ vars.measured? (properties.resolve id) = none

/-- An expression of a scope in which functions and properties are simplified and constants put in
place of variables.
-/
def Stages.simplify {vars : VarTable} (stages : Stages vars) (scope : Nat) (expr : Expr) : Expr :=
  ((expr.mapParts (simplified stages.functions)).mapParts
    (simplifyProperty stages.properties)).mapParts
    (inlineConstant stages.constants scope)

/-- The tables of a query whose joins are arranged. -/
theorem QueryModel.Refined.exists_stages {query : QueryModel} {catalog : Catalog}
    {declared : List VarId}
    {simple : Draft} (refined : query.Refined catalog true draft.vars)
    (inOrder : query.vars.Ordered declared) (succeeded : simplifyFunctions draft = .ok simple)
    : ∃ stages : Stages query.vars,
        stages.functions = draft.vars
        ∧ stages.properties = simple.vars
        ∧ stages.constants = (simplifyProperties simple).vars := by
  have typed := refined.typed inOrder
  have typedSimple : simple.vars.Typed declared :=
    ((Draft.simplifyFunctions_visits succeeded).kept typed).1
  have constant := refined.constant?_simplifyFunctions inOrder succeeded
  obtain ⟨_, -, ordered⟩ := typedSimple.coherent.inOrder
  refine ⟨{
    functions := draft.vars
    properties := simple.vars
    constants := (simplifyProperties simple).vars
    paths := refined.pathOf?_eq
    constant := fun id => (constant?_simplifyProperties simple id).trans (constant id)
    entity := fun id entity => ?_
    named := fun id entity => ?_
  }, rfl, rfl, rfl⟩
  · cases measured : query.vars.measured? id with
    | none => rfl
    | some value =>
        have isMeasured : query.vars.measured? id ≠ none := by simp [measured]
        have noEntity := refined.isEntity_eq_false inOrder isMeasured
        rw [entity] at noEntity
        cases noEntity
  · rw [← constant, ← constant]
    exact ⟨typedSimple.constant?_eq_none entity,
      typedSimple.constant?_eq_none (ordered.isEntity_resolve entity)⟩

/-- Simplifying functions and properties and inlining constants rewrites the sort keys three times.
-/
theorem Draft.simplified_sorts {functions : Draft}
    (sorts : draft.tree.Each models (ScopeModel.Sorts fun _ expr => expr))
    (succeeded : simplifyFunctions draft = .ok functions)
    : (inlineConstants (simplifyProperties functions)).tree.Each models
        (ScopeModel.Sorts fun index expr =>
          ((expr.mapParts (simplified draft.vars)).mapParts
            (simplifyProperty functions.vars)).mapParts
            (inlineConstant (simplifyProperties functions).vars index)) := by
  have first := Draft.mapExprsM_sorts Modality.ofOk
    (g := fun _ expr => expr.mapParts (simplified draft.vars))
    (fun _ _ _ succeeded => Expr.eq_mapParts_of_mapPartsM succeeded) Modality.ofOk_any
      sorts functions
    succeeded
  have second := Draft.mapExprs_sorts first
    (f := fun vars _ expr => expr.mapParts (simplifyProperty vars))
  have third := Draft.mapExprs_sorts second (f := replaceConstants)
  exact Draft.dropConstants_sorts third

/-- Noting which properties are read leaves the sort keys, and resolving names rewrites them. -/
theorem Draft.finished_sorts (sorts : draft.tree.Each models (ScopeModel.Sorts before))
    : (resolveNames (markProperties draft)).tree.Each models
        (ScopeModel.Sorts fun index expr =>
          (before index expr).mapParts (resolveName (markProperties draft).vars)) := by
  have marked : (markProperties draft).tree.Each models (ScopeModel.Sorts before) := sorts
  exact Draft.mapExprs_sorts marked (f := fun vars _ expr => expr.mapParts (resolveName vars))

/-- The sort keys of a lowered query are those that were collected but for constants, each
simplified and with other names of variables resolved.
-/
theorem lower_sorts {catalog : Catalog} {query : Cypher.Query} {walk : Walk} {lowered : Lowered}
    (collected : collect query = .ok walk) (succeeded : lower catalog query = .ok lowered)
    : ∃ (stages : Stages walk.vars) (names : VarTable),
        lowered.tree.Each walk.models
          (ScopeModel.Sorts fun index expr =>
            (stages.simplify index expr).mapParts (resolveName names)) := by
  obtain ⟨start, arranged, exported, simple, begins, arranges, finds, simplifies, -, tree, -⟩ :=
    exists_of_lower succeeded
  obtain ⟨other, collected', empty, models, vars⟩ := QueryModel.exists_of_ofQuery begins
  obtain rfl := Except.ok.inj (collected.symm.trans collected')
  obtain ⟨inOrder, isCollected, -⟩ := (collect_safely query).of_ok collected
  have after
      : QueryModel.After ⟨walk.vars, walk.models, isCollected⟩ catalog start .collectVariables :=
    ⟨empty, models, vars⟩
  obtain ⟨refined, each, -⟩ := (after.arranged arranges).2
  have exportedVars := Draft.findExports_vars finds
  have sorts : exported.tree.Each walk.models (ScopeModel.Sorts fun _ expr => expr) := by
    refine ⟨?_, fun scope member => ?_⟩
    · rw [findExports_scopes finds]
      exact each.indexed
    · rw [findExports_scopes finds] at member
      obtain ⟨model, found, joined, -⟩ := each.each scope member
      refine ⟨model, found, ?_⟩
      have keys := congrArg Scope.orderBy joined.frame
      exact keys.trans (List.map_id' _).symm
  obtain ⟨functions, first, rest⟩ := bind_eq_ok.mp simplifies
  obtain rfl : inlineConstants (simplifyProperties functions) = simple := Except.ok.inj rest
  obtain ⟨stages, sameFunctions, sameProperties, sameConstants⟩ :=
    QueryModel.Refined.exists_stages (exportedVars ▸ refined) inOrder first
  refine ⟨stages, (markProperties (inlineConstants (simplifyProperties functions))).vars, ?_⟩
  rw [tree]
  refine Draft.finished_sorts ?_
  have simple := Draft.simplified_sorts sorts first
  rw [← sameFunctions, ← sameProperties, ← sameConstants] at simple
  exact simple

end CypherSql.Plan
