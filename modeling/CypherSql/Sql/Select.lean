import CypherSql.Sql.Expr

/-!
Selects of SQL and how they are written, on a single line.
-/

namespace CypherSql.Sql

/-- A column of a select list. Whether it aggregates or is constant decides about the grouping. -/
structure Entry where
  expr : Expr
  name : String
  aggregate : Bool
  constant : Bool

/-- The written form of a column. -/
def Entry.text (entry : Entry) : String :=
  entry.expr.text ++ " AS " ++ identifier entry.name

/-- A source of rows: a table, whose name is taken as it is, or a select that is written already. -/
inductive Source where
  | table (content name : String)
  | subquery (select name : String)

/-- The written form of a source. -/
def Source.text : Source → String
  | .table content name => content ++ " AS " ++ identifier name
  | .subquery select name => "(" ++ select ++ ") AS " ++ identifier name

/-- A joined source with its condition; an outer join keeps rows without a partner. -/
structure Join where
  outer : Bool
  source : Source
  condition : Expr

/-- The written form of a join. -/
def Join.text (join : Join) : String :=
  (if join.outer then " LEFT JOIN " else " JOIN ") ++ join.source.text ++ " ON (" ++
    join.condition.text ++ ")"

/-- A sort key as it is written. -/
def sortText (key : String) (descending : Bool) : String :=
  if descending then key ++ " DESC" else key

/-- What is done to the rows at the end: sorting by keys, some of them descending, and cutting. -/
structure Paging where
  orderBy : List (Expr × Bool)
  limit : Option Expr
  offset : Option Expr

namespace Paging

/-- The rows are left as they are. -/
def none : Paging := ⟨[], .none, .none⟩

end Paging

/-- A part of a select: a keyword before items, or nothing if there are none. -/
def part (keyword separator : String) (items : List String) : String :=
  if items.isEmpty then "" else keyword ++ String.intercalate separator items

/-- The written form of a paging. -/
def Paging.text (paging : Paging) : String :=
  part " ORDER BY " ", " (paging.orderBy.map fun (key, descending) => sortText key.text descending)
    ++ part " LIMIT " "" (paging.limit.toList.map Expr.text)
    ++ part " OFFSET " "" (paging.offset.toList.map Expr.text)

/-- A select. -/
structure Select where
  distinct : Bool
  entries : List Entry
  sources : List Source
  joins : List Join
  conditions : List Expr
  paging : Paging

/-- The texts without repetition, in the order of their first occurrence. -/
def firstOccurrences (texts : List String) : List String :=
  texts.foldl (fun seen text => if text ∈ seen then seen else seen ++ [text]) []

namespace Select

/-- The texts to group by: where some column aggregates, all others that are no constants. -/
def groupKeys (select : Select) : List String :=
  if select.entries.any (·.aggregate) then
    firstOccurrences
      ((select.entries.filter fun entry => !entry.aggregate && !entry.constant).map (·.expr.text))
  else []

/-- The written form of a select. -/
def text (select : Select) : String :=
  "SELECT " ++ (if select.distinct then "DISTINCT " else "") ++
    commas (select.entries.map (·.text)) ++
    part " FROM " " CROSS JOIN " (select.sources.map (·.text)) ++
    String.join (select.joins.map (·.text)) ++
    part " WHERE " " AND " (select.conditions.map (·.conditionText)) ++
    part " GROUP BY " ", " select.groupKeys ++
    select.paging.text

end Select

end CypherSql.Sql
