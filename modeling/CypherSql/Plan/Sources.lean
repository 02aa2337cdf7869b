import CypherSql.Plan.Draft

/-!
The sources of every scope: a table for each node and relationship that its clauses declare, and
the subquery of the scope before it. Then the conditions of patterns move to where they are
checked.
-/

namespace CypherSql.Plan

/-- A variable with the elements of the path it may be. -/
def withElements (vars : VarTable) (id : VarId) : List VarId :=
  match vars.definition? id with
  | some (.path _ elements) => id :: elements
  | _ => [id]

/-- The variables that a subquery supplies: those it projects, and the elements of paths. -/
def suppliedBy (vars : VarTable) (scope : Scope) : Except LoweringError (List VarId) := do
  let ids ← projected .findSources vars scope
  return addNew [] (ids.flatMap (withElements vars))

/-- The item of the subquery that a scope reads from, if it reads from one. -/
def innerItems (supplied : List (List VarId)) (scope : Scope)
    : Except LoweringError (List FromItem) :=
  match scope.inner with
  | none => .ok []
  | some source =>
      match supplied[source]? with
      | none => fail .findSources (.breach (.missingInner scope.index source))
      | some [] => fail .findSources (.breach (.emptySubquery source))
      | some ids => .ok [.ofSubquery source ids]

/-- The items of the tables that the clauses of a scope read. -/
def tableItems (scope : Scope) : List FromItem :=
  scope.clauses.zipIdx.flatMap fun (clause, index) =>
    clause.ids.map fun id => .ofTable id index clause.optional

/-- The variables that a scope refers to: in its expressions, in the expressions it names, and in
the ends and conditions of its relationships.
-/
def referenced (vars : VarTable) (scope : Scope) : NameSet :=
  let dependencies (id : VarId) : NameSet := (vars.dependencies.get? id).getD ∅
  let inExpressions := scope.expressions.foldl (fun seen expr => seen.union expr.references) ∅
  let inProjection := scope.declared.foldl (fun seen id => seen.union (dependencies id))
    inExpressions
  (scope.clauses.flatMap (·.relationships)).foldl (fun seen id => seen.union (dependencies id))
    inProjection

/-- What is wrong with a reference of a scope to a variable: it is not declared, or an earlier
scope declares it and no item supplies it.
-/
def referenceBreach? (vars : VarTable) (scope : Scope) (items : List FromItem) (id : VarId)
    : Option Breach :=
  let resolved := vars.resolve id
  match vars.get? resolved with
  | none => some (.undeclaredReference resolved)
  | some var =>
      if var.scope < scope.index && !items.any (·.supplies resolved) then
        some (.notExported resolved var.scope scope.index)
      else none

/-- A scope with its sources. -/
def scopeSources (vars : VarTable) (supplied : List (List VarId)) (scope : Scope)
    : Except LoweringError Scope := do
  if !scope.select.fromItems.isEmpty || !scope.select.joins.isEmpty then
    fail .findSources (.breach (.hasSources scope.index))
  else
    let inner ← innerItems supplied scope
    let items := inner ++ tableItems scope
    match (referenced vars scope).names.findSome? (referenceBreach? vars scope items) with
    | some breach => fail .findSources (.breach breach)
    | none => return { scope with select := { scope.select with fromItems := items } }

/-- Gives every scope its sources. -/
def findSources (draft : Draft) : Except LoweringError Draft := do
  let supplied ← draft.tree.subqueries.mapM fun subquery => suppliedBy draft.vars subquery.scope
  let tree ← draft.tree.mapScopesM (scopeSources draft.vars supplied)
  return { draft with tree }

/-- The condition that a pattern puts on a variable, and the definition without it. -/
def takeRestriction : Definition → Option (Option Expr × Definition)
  | .node node => some (node.restriction, .node { node with restriction := none })
  | .relationship rel =>
      some (rel.restriction, .relationship { rel with restriction := none })
  | _ => none

/-- Moves the conditions on the variables of tables: those of optional items become pending, the
others go to the conditions of the select.
-/
def moveItemRestrictions
    : List FromItem → VarTable → Except LoweringError (List FromItem × List Expr × VarTable)
  | [], vars => .ok ([], [], vars)
  | item :: rest, vars =>
      match item.tableVar? with
      | none => do
          let (items, moved, vars) ← moveItemRestrictions rest vars
          return (item :: items, moved, vars)
      | some id =>
          match (vars.definition? id).bind takeRestriction with
          | none => fail .moveRestrictions (.breach (.restrictionOfOther id))
          | some (restriction, definition) => do
              let conditions := restriction.elim [] Expr.conjuncts
              let vars := (vars.redefine id definition).refresh id
              let (items, moved, vars) ← moveItemRestrictions rest vars
              if item.optional then
                return ({ item with pending := item.pending ++ conditions } :: items, moved, vars)
              else return (item :: items, conditions ++ moved, vars)

/-- Adds pending conditions to the first item of a clause, if it has one. -/
def addPendingFirst? (clause : Nat) (conditions : List Expr)
    : List FromItem → Option (List FromItem)
  | [] => none
  | item :: rest =>
      if item.clause = some clause then
        some ({ item with pending := item.pending ++ conditions } :: rest)
      else (addPendingFirst? clause conditions rest).map (item :: ·)

/-- Adds pending conditions to the last item of a clause, if it has one. -/
def addPending? (clause : Nat) (conditions : List Expr) (items : List FromItem)
    : Option (List FromItem) :=
  (addPendingFirst? clause conditions items.reverse).map List.reverse

/-- Moves the conditions of clauses: that of an optional one to its last item, the others to the
conditions of the select.
-/
def moveClauseConditions (scope : Nat)
    : List (ReadingClause × Nat) → List FromItem →
      Except LoweringError (List ReadingClause × List FromItem × List Expr)
  | [], items => .ok ([], items, [])
  | (clause, index) :: rest, items =>
      match clause.condition with
      | none => do
          let (clauses, items, moved) ← moveClauseConditions scope rest items
          return (clause :: clauses, items, moved)
      | some condition =>
          let clause := { clause with condition := none }
          if clause.optional then
            match addPending? index condition.conjuncts items with
            | none => fail .moveRestrictions (.unsupported (.optionalWithoutVariables scope))
            | some items => do
                let (clauses, items, moved) ← moveClauseConditions scope rest items
                return (clause :: clauses, items, moved)
          else do
            let (clauses, items, moved) ← moveClauseConditions scope rest items
            return (clause :: clauses, items, condition.conjuncts ++ moved)

/-- Moves the conditions of a scope. -/
def moveInScope (scope : Scope) (vars : VarTable) : Except LoweringError (Scope × VarTable) := do
  let (items, ofItems, vars) ← moveItemRestrictions scope.select.fromItems vars
  let (clauses, items, ofClauses) ← moveClauseConditions scope.index scope.clauses.zipIdx items
  let select := { scope.select with
    fromItems := items
    conditions := scope.select.conditions ++ ofItems ++ ofClauses }
  return ({ scope with clauses, select }, vars)

/-- Changes the scopes of a tree and the variables together, the innermost scope first. -/
def Draft.eachScope (f : Scope → VarTable → Except LoweringError (Scope × VarTable))
    (draft : Draft) : Except LoweringError Draft := do
  let (tree, vars) ← (draft.tree.mapScopesM f : StateT VarTable (Except LoweringError) Tree).run
    draft.vars
  return { draft with tree, vars }

/-- Moves the conditions of patterns and clauses to where they are checked. -/
def moveRestrictions (draft : Draft) : Except LoweringError Draft :=
  draft.eachScope moveInScope

end CypherSql.Plan
