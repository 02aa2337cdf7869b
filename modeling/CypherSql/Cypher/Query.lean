import CypherSql.Literal
import CypherSql.Operator

/-!
Read queries as they are written: clauses of patterns and projections over expressions that still
refer to variables by name.
-/

namespace CypherSql.Cypher

/-- An expression as written. The text of a string literal still holds its escapes. -/
inductive Expr where
  | literal (value : Literal)
  | var (name : String)
  | parameter (name : String)
  | list (items : List Expr)
  | map (entries : List (String × Expr))
  | property (base : Expr) (key : String)
  | unary (op : UnaryOp) (operand : Expr)
  | binary (op : BinaryOp) (left right : Expr)
  | call (name : String) (distinct : Bool) (args : List Expr)
  | star
  deriving Repr

/-- The entries of a property map, or `none` where no map was written. -/
abbrev Properties := Option (List (String × Expr))

/-- The bounds of a variable-length relationship; an open bound is `none`. -/
structure HopRange where
  least : Option Nat
  most : Option Nat
  deriving DecidableEq, Repr

/-- A node of a pattern, such as `(a:Person)`. -/
structure NodePattern where
  name : Option String
  labels : List String
  properties : Properties
  deriving Repr

/-- A relationship of a pattern, such as `-[r:KNOWS]->`. -/
structure RelationshipPattern where
  name : Option String
  direction : Direction
  types : List String
  properties : Properties
  length : Option HopRange
  deriving Repr

/-- A chain of relationships from a start node on, with an optional name for the whole path. -/
structure PathPattern where
  name : Option String
  start : NodePattern
  hops : List (RelationshipPattern × NodePattern)
  deriving Repr

namespace PathPattern

/-- The nodes of the chain in order. -/
def nodes (path : PathPattern) : List NodePattern :=
  path.start :: path.hops.map (·.2)

/-- The relationships of the chain in order; the i-th one joins the i-th node and the next. -/
def relationships (path : PathPattern) : List RelationshipPattern :=
  path.hops.map (·.1)

end PathPattern

/-- A `MATCH` or `OPTIONAL MATCH`. -/
structure MatchClause where
  optional : Bool
  patterns : List PathPattern
  condition : Option Expr
  deriving Repr

/-- An item of a projection with the text it was written as. -/
structure ProjectionItem where
  expr : Expr
  aliasName : Option String
  text : String
  deriving Repr

/-- A sort key. -/
structure SortItem where
  expr : Expr
  descending : Bool
  deriving Repr

/-- What `WITH` and `RETURN` share. -/
structure Projection where
  distinct : Bool
  items : List ProjectionItem
  orderBy : List SortItem
  skip : Option Expr
  limit : Option Expr
  deriving Repr

/-- A clause of a query. Only a `WITH` can carry a condition of its own. -/
inductive Clause where
  | matching (clause : MatchClause)
  | withItems (projection : Projection) (condition : Option Expr)
  | returnItems (projection : Projection)
  deriving Repr

/-- The words that open the clause. -/
def Clause.kind : Clause → String
  | .matching clause => if clause.optional then "OPTIONAL MATCH" else "MATCH"
  | .withItems _ _ => "WITH"
  | .returnItems _ => "RETURN"

/-- A query: its clauses in source order, in any sequence. -/
structure Query where
  clauses : List Clause
  deriving Repr

mutual

/-- An expression and all expressions inside it. -/
def Expr.parts : Expr → List Expr
  | .list items => .list items :: partsEach items
  | .map entries => .map entries :: partsEntries entries
  | .property base key => .property base key :: base.parts
  | .unary op operand => .unary op operand :: operand.parts
  | .binary op left right => .binary op left right :: (left.parts ++ right.parts)
  | .call name distinct args => .call name distinct args :: partsEach args
  | expr => [expr]

def partsEach : List Expr → List Expr
  | [] => []
  | expr :: rest => expr.parts ++ partsEach rest

def partsEntries : List (String × Expr) → List Expr
  | [] => []
  | (_, value) :: rest => value.parts ++ partsEntries rest

end

/-- The values of a property map. -/
def Properties.expressions (properties : Properties) : List Expr :=
  (properties.getD []).map (·.2)

def PathPattern.expressions (path : PathPattern) : List Expr :=
  path.nodes.flatMap (·.properties.expressions)
    ++ path.relationships.flatMap (·.properties.expressions)

def Projection.expressions (projection : Projection) : List Expr :=
  projection.items.map (·.expr) ++ projection.orderBy.map (·.expr) ++ projection.skip.toList
    ++ projection.limit.toList

def Clause.expressions : Clause → List Expr
  | .matching clause => clause.patterns.flatMap (·.expressions) ++ clause.condition.toList
  | .withItems projection condition => projection.expressions ++ condition.toList
  | .returnItems projection => projection.expressions

/-- All expressions of a query with all expressions inside them. -/
def Query.parts (query : Query) : List Expr :=
  (query.clauses.flatMap (·.expressions)).flatMap (·.parts)

end CypherSql.Cypher
