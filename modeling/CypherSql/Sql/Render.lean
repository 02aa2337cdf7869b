import CypherSql.Plan.Merge
import CypherSql.Sql.Scope
import CypherSql.Sql.Select

/-!
Lowered queries as SQL. A subquery is written inside the `FROM` of the scope that reads it; it
selects the key and the read properties of each exported node or relationship, and one column for
each exported value.
-/

namespace CypherSql.Sql

open Plan (VarId VarTable)

/-- The name of the column of a variable. -/
def columnName (vars : VarTable) (id : VarId) : Except RenderError String :=
  match vars.get? id with
  | some var => .ok var.columnName
  | none => broken (.undeclared id)

/-- The expression that a variable projects. -/
def projectedExpr (vars : VarTable) (id : VarId) : Except RenderError Plan.Expr :=
  match (vars.definition? id).bind Plan.Definition.projection? with
  | some expr => .ok expr
  | none => broken (.notProjected id)

/-- The properties of a node or relationship that scopes after a given one read. -/
def exportedProperties (vars : VarTable) (id : VarId) (scope : Nat)
    : Except RenderError (List String) :=
  let readAfter (required : NameMap Nat) : List String :=
    (required.entries.filter fun entry => scope < entry.2).map (·.1)
  match vars.definition? id with
  | some (.node node) => .ok (readAfter node.required)
  | some (.relationship rel) => .ok (readAfter rel.required)
  | _ => broken (.entityOfOther id)

namespace Context

/-- The column of an expression under a name. -/
def entry (context : Context) (expr : Plan.Expr) (name : String) : Except RenderError Entry := do
  let sql ← context.expr expr
  return { expr := sql, name, aggregate := expr.hasAggregate, constant := expr.isConstant }

/-- The column of a returned item. -/
def returnEntry (context : Context) : Plan.Item → Except RenderError Entry
  | .named id => do
      let expr ← projectedExpr context.vars id
      let name ← columnName context.vars id
      context.entry expr name
  | .unnamed expr column => do
      let name ← columnName context.vars column
      context.entry expr name

/-- The column of a variable that is passed on. -/
def valueEntry (context : Context) (id : VarId) : Except RenderError Entry := do
  let sql ← context.value id
  return { expr := sql, name := id, aggregate := false, constant := false }

/-- The column of a property that is passed on. -/
def propertyEntry (context : Context) (id : VarId) (key : String) : Except RenderError Entry := do
  let sql ← context.property id key
  return { expr := sql, name := propertyColumn id key, aggregate := false, constant := false }

/-- The columns of an export. A value that the scope itself names is computed here. -/
def exportEntries (context : Context) (declared : List VarId)
    : Plan.Export → Except RenderError (List Entry)
  | .entity id => do
      let key ← context.valueEntry id
      let properties ← exportedProperties context.vars id context.scope
      let properties ← properties.mapM (context.propertyEntry id)
      return key :: properties
  | .scalar id => do
      if id ∈ declared then
        let expr ← projectedExpr context.vars id
        let entry ← context.entry expr id
        return [entry]
      else
        let entry ← context.valueEntry id
        return [entry]

end Context

/-- The columns of a scope: what it exports, or what it returns. -/
def scopeEntries (context : Context) (scope : Plan.Scope)
    : Option (List Plan.Export) → Except RenderError (List Entry)
  | some exports => do
      let entries ← exports.mapM (context.exportEntries scope.declared)
      return entries.flatten
  | none => scope.items.mapM context.returnEntry

/-- The source of an item, given how the subqueries are written. -/
def sourceOf (subqueries : List Plan.Subquery) (written : List (Except RenderError String))
    (item : Plan.FromItem) : Except RenderError Source :=
  match item.fault? true with
  | some fault => broken (.badItem fault)
  | none =>
      if !item.pending.isEmpty then broken (.unplacedConditions item.pending.length)
      else
        match item.source, item.table, item.tableVar? with
        | some source, _, _ =>
            match subqueries[source]?, written[source]? with
            | some { name := none, .. }, _ => broken (.unnamedSubquery source)
            | some { name := some name, .. }, some select => do
                let select ← select
                return .subquery select name
            | _, _ => broken (.missingSubquery source)
        | none, some table, some id => .ok (.table table id)
        | _, _, _ => broken .noSource

/-- A sort key of a scope. One that the scope names is the column itself. -/
def sortTerm (context : Context) (scope : Plan.Scope) (key : Plan.SortKey)
    : Except RenderError (Expr × Bool) := do
  match key.expr with
  | .var id =>
      if id ∈ scope.declared then
        match scope.kind with
        | .returnClause =>
            let name ← columnName context.vars id
            return (.label name, key.descending)
        | .withClause => return (.label id, key.descending)
      else
        let expr ← context.expr key.expr
        return (expr, key.descending)
  | _ =>
      let expr ← context.expr key.expr
      return (expr, key.descending)

/-- The sorting and cutting of a scope. -/
def scopePaging (context : Context) (scope : Plan.Scope) : Except RenderError Paging := do
  let orderBy ← scope.orderBy.mapM (sortTerm context scope)
  let limit ← scope.limit.mapM context.expr
  let offset ← scope.skip.mapM context.expr
  return { orderBy, limit, offset }

/-- A join of a scope. -/
def scopeJoin (context : Context) (written : List (Except RenderError String))
    (join : Plan.Join) : Except RenderError Join := do
  let source ← sourceOf context.subqueries written join.item
  let condition ← context.expr join.condition
  return { outer := join.outer, source, condition }

/-- The context of a scope. -/
def contextOf (subqueries : List Plan.Subquery) (vars : VarTable) (scope : Plan.Scope)
    : Context :=
  { subqueries, vars, scope := scope.index, select := scope.select }

/-- The select of a scope, given how the subqueries are written, sorted and cut only where asked. -/
def scopeSelect (context : Context) (written : List (Except RenderError String))
    (scope : Plan.Scope) (exports : Option (List Plan.Export)) (paged : Bool)
    : Except RenderError Select := do
  let entries ← scopeEntries context scope exports
  if entries.isEmpty then broken (.noColumns scope.index)
  else
    let sources ← scope.select.fromItems.mapM (sourceOf context.subqueries written)
    let joins ← scope.select.joins.mapM (scopeJoin context written)
    let conditions ← scope.select.conditions.mapM context.expr
    let paging ← if paged then scopePaging context scope else pure Paging.none
    return { distinct := scope.distinct, entries, sources, joins, conditions, paging }

/-- The subqueries of a tree as they are written, in order, each after those it can read. -/
def writtenSubqueries (tree : Plan.Tree) (vars : VarTable) : List (Except RenderError String) :=
  tree.subqueries.foldl (fun written subquery =>
    let context := contextOf tree.subqueries vars subquery.scope
    written ++
      [(scopeSelect context written subquery.scope (some subquery.exports) true).map Select.text])
    []

/-- The `RETURN` of a tree, sorted and cut only where asked. -/
def rootText (tree : Plan.Tree) (vars : VarTable) (paged : Bool) : Except RenderError String := do
  let context := contextOf tree.subqueries vars tree.root
  let select ← scopeSelect context (writtenSubqueries tree vars) tree.root none paged
  return select.text

/-- A tree with its variables as SQL. -/
def treeText (tree : Plan.Tree) (vars : VarTable) : Except RenderError String :=
  rootText tree vars true

/-- A column of a union as it is selected from the union. -/
def mergedColumnText (column : Plan.MergedColumn) : String :=
  let name := identifier column.name
  match column.merge with
  | some merge => merge.sqlName ++ "(" ++ name ++ ") AS " ++ name
  | none => name

/-- The texts to group a union by. -/
def mergedGroupKeys (union : Plan.UnionQuery) : List String :=
  if union.reaggregate then
    (union.columns.filter (·.merge.isNone)).map fun column => identifier column.name
  else []

/-- Something has to be done to the rows of the union as a whole. -/
def needsWrapping (union : Plan.UnionQuery) : Bool :=
  union.reaggregate || !union.orderBy.isEmpty || union.skip.isSome || union.limit.isSome

/-- A select from the rows of the union, with the columns aggregated, sorted and cut. -/
def wrapped (union : Plan.UnionQuery) (combined : String) : Except RenderError String := do
  let first := union.first
  let context := contextOf first.tree.subqueries first.vars first.tree.root
  let limit ← union.limit.mapM context.expr
  let offset ← union.skip.mapM context.expr
  let orderBy := union.orderBy.map fun (name, descending) => (Expr.label name, descending)
  return "SELECT " ++ commas (union.columns.map mergedColumnText) ++ " FROM (" ++ combined ++
    ") AS merged" ++ part " GROUP BY " ", " (mergedGroupKeys union) ++
    Paging.text { orderBy, limit, offset }

/-- A union as SQL. -/
def unionText (union : Plan.UnionQuery) : Except RenderError String := do
  let branches ← union.branches.mapM fun branch => rootText branch.tree branch.vars false
  let combined := String.intercalate (if union.all then " UNION ALL " else " UNION ") branches
  if needsWrapping union then wrapped union combined else return combined

/-- A query whose variants are merged as SQL. -/
def mergedText : Plan.Merged → Except RenderError String
  | .single lowered => treeText lowered.tree lowered.vars
  | .union union => unionText union

end CypherSql.Sql
