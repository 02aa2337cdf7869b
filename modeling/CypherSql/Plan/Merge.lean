import CypherSql.Plan.Lowering

/-!
The union of lowered variants of one query. An aggregate over all variants is computed from the
aggregates of each, where that is possible.
-/

namespace CypherSql.Plan

/-- An aggregate over the values that the variants give. -/
inductive MergeAggregate where
  | sum
  | min
  | max
  deriving DecidableEq, Repr

/-- The name of the aggregate in SQL. -/
def MergeAggregate.sqlName : MergeAggregate → String
  | .sum => "SUM"
  | .min => "MIN"
  | .max => "MAX"

/-- The aggregate over variants that continues an aggregate within each. -/
def MergeAggregate.ofAggregate? : Aggregate → Option MergeAggregate
  | .count => some .sum
  | .sum => some .sum
  | .min => some .min
  | .max => some .max
  | .avg => none
  | .collect => none

/-- How a returned expression is merged over variants: not at all, or by an aggregate. -/
def mergeOf : Expr → Except LoweringError (Option MergeAggregate)
  | .aggregate function _ _ =>
      match MergeAggregate.ofAggregate? function with
      | some merge => .ok (some merge)
      | none => fail .mergeVariants (.unsupported (.aggregateOverVariants function))
  | expr =>
      if expr.hasAggregate then fail .mergeVariants (.unsupported (.aggregateInside expr))
      else .ok none

/-- A returned column with the item and the expression behind it. -/
structure ReturnColumn where
  item : Item
  name : String
  expr : Expr
  merge : Option MergeAggregate

/-- The name of the column of a variable. -/
def Variable.columnName (var : Variable) : String :=
  match var.definition with
  | .temporary column => column
  | _ => var.name

/-- The variable behind the name of an item, and its expression. -/
def Item.content (vars : VarTable) : Item → Except LoweringError (VarId × Expr)
  | .named id =>
      match (vars.definition? id).bind Definition.projection? with
      | some expr => .ok (id, expr)
      | none => fail .mergeVariants (.breach (.undefinedColumn id))
  | .unnamed expr column => .ok (column, expr)

/-- The column of an item. -/
def returnColumn (vars : VarTable) (item : Item) : Except LoweringError ReturnColumn := do
  let (id, expr) ← item.content vars
  match vars.get? id with
  | none => fail .mergeVariants (.breach (.undeclaredColumn id))
  | some var =>
      let merge ← mergeOf expr
      return { item, name := var.columnName, expr, merge }

/-- The columns that a variant returns. -/
def Lowered.columns (variant : Lowered) : Except LoweringError (List ReturnColumn) :=
  variant.tree.root.items.mapM (returnColumn variant.vars)

/-- The item names a variable, possibly by another name of it. -/
def Item.names (vars : VarTable) (id : VarId) : Item → Bool
  | .named other => other = id || vars.resolve other = id
  | .unnamed _ _ => false

/-- The column sorts by a key: it is the variable of the key, or has the same expression. -/
def ReturnColumn.sortsBy (vars : VarTable) (key : Expr) (column : ReturnColumn) : Bool :=
  (match key with
    | .var id => column.item.names vars id
    | _ => false) || column.expr.equalValue key

/-- The column name of a sort key. -/
def sortColumn (vars : VarTable) (columns : List ReturnColumn) (key : SortKey)
    : Except LoweringError (String × Bool) :=
  match columns.find? (·.sortsBy vars key.expr) with
  | some column => .ok (column.name, key.descending)
  | none => fail .mergeVariants (.unsupported (.orderByOther key.expr))

/-- The expressions are equal as values, or both are missing. -/
def sameValue : Option Expr → Option Expr → Bool
  | none, none => true
  | some left, some right => left.equalValue right
  | _, _ => false

/-- The variants agree on what they cut and whether they drop repetitions. -/
def samePaging (left right : Scope) : Bool :=
  left.distinct = right.distinct && sameValue left.skip right.skip &&
    sameValue left.limit right.limit

/-- Checks that a variant fits the first one. -/
def checkVariant (first : Lowered) (names : List String) (variant : Lowered × Nat)
    : Except LoweringError Unit := do
  let (variant, index) := variant
  let columns ← variant.columns
  let others := columns.map (·.name)
  if others ≠ names then
    fail .mergeVariants (.breach (.otherColumns index others names))
  else if samePaging first.tree.root variant.tree.root then return ()
  else fail .mergeVariants (.breach (.otherPaging index))

/-- A column of a union. -/
structure MergedColumn where
  name : String
  merge : Option MergeAggregate
  deriving DecidableEq

/-- The union of variants. Sorting and cutting apply to the whole. -/
structure UnionQuery where
  first : Lowered
  rest : List Lowered
  all : Bool
  columns : List MergedColumn
  reaggregate : Bool
  orderBy : List (String × Bool)
  skip : Option Expr
  limit : Option Expr

/-- The variants of a union. -/
def UnionQuery.branches (union : UnionQuery) : List Lowered :=
  union.first :: union.rest

/-- A query whose variants are merged. -/
inductive Merged where
  | single (lowered : Lowered)
  | union (union : UnionQuery)

/-- The union of a variant with others. Repeated rows are dropped only where no aggregate needs
them.
-/
def unite (unionDistinct : Bool) (first : Lowered) (rest : List Lowered)
    : Except LoweringError UnionQuery := do
  let columns ← first.columns
  (rest.zipIdx 1).forM (checkVariant first (columns.map (·.name)))
  let root := first.tree.root
  let orderBy ← root.orderBy.mapM (sortColumn first.vars columns)
  let reaggregate := columns.any (·.merge.isSome)
  return { first, rest
           all := reaggregate || !(root.distinct || unionDistinct)
           columns := columns.map fun column => ⟨column.name, column.merge⟩
           reaggregate, orderBy
           skip := root.skip
           limit := root.limit }

/-- Merges variants. -/
def merge (unionDistinct : Bool) : List Lowered → Except LoweringError Merged
  | [] => fail .mergeVariants (.breach .noVariants)
  | [lowered] => .ok (.single lowered)
  | first :: rest => do
      let union ← unite unionDistinct first rest
      return .union union

end CypherSql.Plan
