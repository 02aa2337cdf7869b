import CypherSql.Plan.Variable
import CypherSql.Text.Shown

/-!
Query trees: one select for each scope of a query. Every scope but the last is a subquery that the
next scope reads from, the innermost first.
-/

namespace CypherSql.Plan

/-- What ends a scope. -/
inductive ScopeKind where
  | withClause
  | returnClause
  deriving DecidableEq, Repr

/-- The name of the kind of a scope. -/
def ScopeKind.name : ScopeKind → String
  | .withClause => "With"
  | .returnClause => "Return"

/-- A projected item: a variable that names an expression, or an expression with the temporary
variable that holds its column name.
-/
inductive Item where
  | named (id : VarId)
  | unnamed (expr : Expr) (column : VarId)
  deriving DecidableEq

/-- A sort key. -/
structure SortKey where
  expr : Expr
  descending : Bool
  deriving DecidableEq

/-- A `MATCH` of a scope: the nodes and relationships it declares, the relationships among them,
and its condition.
-/
structure ReadingClause where
  optional : Bool
  ids : List VarId
  relationships : List VarId
  condition : Option Expr
  deriving DecidableEq

/-- A source of variables: a table for one variable, or a subquery for at least one. The clause is
the position of the `MATCH` that declared the variable of a table, and pending conditions have to
go into the join of the item.
-/
structure FromItem where
  source : Option Nat
  table : Option String
  ids : List VarId
  clause : Option Nat
  optional : Bool
  pending : List Expr
  deriving DecidableEq

/-- What is wrong with an item. -/
inductive ItemFault where
  | emptySubquery (source : Nat)
  | subqueryWithTable (table : String)
  | variableCount (table : Option String) (count : Nat)
  | unresolvedTable (id : VarId)
  | missingSubquery (source : Nat)
  deriving DecidableEq

/-- A subquery as messages show it. -/
def subqueryText (source : Nat) : String :=
  "SubqueryId(" ++ toString source ++ ")"

/-- The wording of a fault. -/
def ItemFault.message : ItemFault → String
  | .emptySubquery source => "subquery item over " ++ subqueryText source ++ " has no variables"
  | .subqueryWithTable table => "item has both a subquery and the table `" ++ table ++ "`"
  | .variableCount table count =>
      let table := table.elim "None" fun table => "Some(" ++ Text.shown table ++ ")"
      "table item " ++ table ++ " must supply exactly one variable, found " ++ toString count
  | .unresolvedTable id => "no table was resolved for `" ++ id ++ "`"
  | .missingSubquery source => "item refers to missing subquery " ++ subqueryText source

namespace FromItem

/-- The item of a table for a variable that a clause declares. -/
def ofTable (id : VarId) (clause : Nat) (optional : Bool) : FromItem :=
  { source := none, table := none, ids := [id], clause := some clause, optional,
    pending := [] }

/-- The item of a subquery. -/
def ofSubquery (source : Nat) (ids : List VarId) : FromItem :=
  { source := some source, table := none, ids, clause := none, optional := false,
    pending := [] }

/-- The item supplies a variable. -/
def supplies (item : FromItem) (id : VarId) : Bool :=
  id ∈ item.ids

/-- The variable of a table item. -/
def tableVar? (item : FromItem) : Option VarId :=
  match item.source, item.ids with
  | none, [id] => some id
  | _, _ => none

/-- The fault of an item, if it has one. A table has to be resolved only where that is asked. -/
def fault? (needsTable : Bool) (item : FromItem) : Option ItemFault :=
  match item.source, item.table with
  | some source, none => if item.ids.isEmpty then some (.emptySubquery source) else none
  | some _, some table => some (.subqueryWithTable table)
  | none, table =>
      match item.ids with
      | [id] => if needsTable && table.isNone then some (.unresolvedTable id) else none
      | ids => some (.variableCount table ids.length)

end FromItem

/-- A joined item with its condition; an outer join keeps rows without a partner. -/
structure Join where
  outer : Bool
  item : FromItem
  condition : Expr
  deriving DecidableEq

/-- The sources of a select: the items of its `FROM`, its joins in order, and the conditions of its
`WHERE`.
-/
structure Select where
  fromItems : List FromItem
  joins : List Join
  conditions : List Expr
  deriving DecidableEq

namespace Select

/-- A select without sources. -/
def empty : Select := ⟨[], [], []⟩

/-- All items, those of the `FROM` first. -/
def items (select : Select) : List FromItem :=
  select.fromItems ++ select.joins.map (·.item)

/-- The item that supplies a variable. -/
def supplier? (select : Select) (id : VarId) : Option FromItem :=
  select.items.find? (·.supplies id)

end Select

/-- A scope: the clauses up to a `WITH` or `RETURN` with what it projects. -/
structure Scope where
  kind : ScopeKind
  index : Nat
  inner : Option Nat
  clauses : List ReadingClause
  select : Select
  distinct : Bool
  items : List Item
  orderBy : List SortKey
  skip : Option Expr
  limit : Option Expr
  deriving DecidableEq

namespace Scope

/-- A scope in which nothing is set. -/
def blank (kind : ScopeKind) (index : Nat) : Scope :=
  { kind, index, inner := none, clauses := [], select := .empty, distinct := false, items := [],
    orderBy := [], skip := none, limit := none }

/-- The expressions that the scope itself holds; those of named items are with their variables. -/
def expressions (scope : Scope) : List Expr :=
  (scope.items.filterMap fun
    | .unnamed expr _ => some expr
    | .named _ => none) ++
  scope.orderBy.map (·.expr) ++ scope.skip.toList ++ scope.limit.toList ++
  scope.select.conditions ++ scope.clauses.filterMap (·.condition) ++
  scope.select.items.flatMap (·.pending) ++ scope.select.joins.map (·.condition)

/-- The variables that the projection of the scope declares. -/
def declared (scope : Scope) : List VarId :=
  scope.items.filterMap fun
    | .named id => some id
    | .unnamed _ _ => none

end Scope

/-- A column set of a subquery: the key and properties of a node or relationship, or one value. -/
inductive Export where
  | entity (id : VarId)
  | scalar (id : VarId)
  deriving DecidableEq

/-- The variable of an export. -/
def Export.id : Export → VarId
  | .entity id => id
  | .scalar id => id

/-- A scope that a later one reads from. -/
structure Subquery where
  name : Option String
  scope : Scope
  exports : List Export
  deriving DecidableEq

/-- The selects of a query. -/
structure Tree where
  subqueries : List Subquery
  root : Scope
  deriving DecidableEq

namespace Tree

/-- The tree before its scopes are built. -/
def empty : Tree := ⟨[], .blank .returnClause 0⟩

instance : Inhabited Tree := ⟨empty⟩

/-- The scopes from the innermost outward. -/
def scopes (tree : Tree) : List Scope :=
  tree.subqueries.map (·.scope) ++ [tree.root]

/-- The fault of an item in the tree: its own, or that its subquery is missing. -/
def itemFault? (needsTables : Bool) (tree : Tree) (item : FromItem) : Option ItemFault :=
  (item.fault? needsTables).or
    (item.source.bind fun source =>
      if source < tree.subqueries.length then none else some (.missingSubquery source))

/-- The first fault of the items of the tree. -/
def fault? (needsTables : Bool) (tree : Tree) : Option ItemFault :=
  (tree.scopes.flatMap (·.select.items)).findSome? (tree.itemFault? needsTables)

end Tree

/-- What the clauses of a query say about one scope. The filter is the condition of the `WITH`
before it.
-/
structure ScopeModel where
  kind : ScopeKind
  clauses : List ReadingClause
  items : List Item
  distinct : Bool
  orderBy : List SortKey
  skip : Option Expr
  limit : Option Expr
  filter : Option Expr
  deriving DecidableEq

end CypherSql.Plan
