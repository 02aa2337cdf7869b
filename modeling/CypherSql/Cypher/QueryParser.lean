import CypherSql.Cypher.ExprParser
import CypherSql.Text.Blank

/-!
Patterns, clauses and whole queries.
-/

namespace CypherSql.Cypher

/-- A node of a pattern. -/
def nodePattern : Parser NodePattern :=
  Parser.within .nodePattern do
    mark '('
    let name ← (padded identifier).optional
    let labels ← Parser.many do
      mark ':'
      padded symbol
    let properties ← (mapLiteral expression).optional
    mark ')'
    pure { name, labels, properties }

/-- The types of a relationship: `:A|B` or `:A|:B`. -/
def relationshipTypes : Parser (List String) := do
  let types ← Parser.optional do
    mark ':'
    Parser.separated1 (mark '|') do
      let _ ← (mark ':').optional
      padded symbol
  pure (types.getD [])

/-- The bounds of a variable-length relationship: `*`, `*3`, `*1..3`, `*..3` or `*2..`. A single
number is both bounds.
-/
def hopRange : Parser HopRange := do
  mark '*'
  let least ← (padded hopCount).optional
  let most ← Parser.optional do
    padded (literally "..")
    (padded hopCount).optional
  pure { least, most := most.getD least }

/-- What stands between the brackets of a relationship. -/
structure RelationshipDetail where
  name : Option String
  types : List String
  length : Option HopRange
  properties : Properties

/-- The bracketed part of a relationship. -/
def relationshipDetail : Parser RelationshipDetail := do
  mark '['
  let name ← (padded identifier).optional
  let types ← relationshipTypes
  let length ← hopRange.optional
  let properties ← (mapLiteral expression).optional
  mark ']'
  pure { name, types, length, properties }

/-- An end of a relationship with or without an arrow head. -/
def arrowEnd (withHead : String) : Parser Bool :=
  padded (Parser.choice [
    do
      literally withHead
      pure true,
    do
      literally "-"
      pure false])

/-- A relationship of a pattern. -/
def relationshipPattern : Parser RelationshipPattern := do
  let leftHead ← arrowEnd "<-"
  let detail ← relationshipDetail.optional
  let rightHead ← arrowEnd "->"
  let detail := detail.getD { name := none, types := [], length := none, properties := none }
  pure
    { name := detail.name
      direction := .ofHeads leftHead rightHead
      types := detail.types
      properties := detail.properties
      length := detail.length }

/-- The longest chain of relationships in one path pattern. -/
def longestChain : Nat := 50

/-- A path pattern with an optional name. -/
def pathPattern : Parser PathPattern := do
  let name ← Parser.optional do
    let name ← padded identifier
    mark '='
    pure name
  let start ← nodePattern
  let hops ← Parser.many do
    let relationship ← relationshipPattern
    let node ← nodePattern
    pure (relationship, node)
  fun s =>
    if longestChain < hops.length then .failed (.here s .chainTooLong)
    else .ok { name, start, hops } s

/-- The condition of a clause. -/
def whereClause : Parser Expr := do
  keyword "WHERE"
  expression.committed.within .whereClause

/-- A `MATCH` or `OPTIONAL MATCH`. -/
def matchClause : Parser MatchClause := do
  let optional ← (keyword "OPTIONAL").optional
  keyword "MATCH"
  let patterns ← (Parser.separated1 (mark ',') pathPattern).committed.within .matchClause
  let condition ← whereClause.optional
  pure { optional := optional.isSome, patterns, condition }

/-- An item of a projection, with the text of its expression. -/
def projectionItem : Parser ProjectionItem := do
  let (expr, text) ← fun s =>
    match expression s with
    | .ok expr rest =>
        .ok (expr, String.ofList (Text.trim (s.take (s.length - rest.length)))) rest
    | .rejected trace => .rejected trace
    | .failed trace => .failed trace
  let aliasName ← Parser.optional do
    keyword "AS"
    padded identifier
  pure { expr, aliasName, text }

/-- A sort key. -/
def sortItem : Parser SortItem := do
  let expr ← expression
  let descending ← (Parser.choice [
    keywordAs "DESCENDING" true,
    keywordAs "DESC" true,
    keywordAs "ASCENDING" false,
    keywordAs "ASC" false]).optional
  pure { expr, descending := descending.getD false }

/-- The sort keys of a projection. -/
def orderByClause : Parser (List SortItem) := do
  keyword "ORDER"
  keyword "BY"
  (Parser.separated1 (mark ',') sortItem).committed.within .orderByClause

/-- An expression after a keyword that can have no other meaning. -/
def pageClause (word : String) (complaint : Complaint) : Parser Expr := do
  keyword word
  expression.committed.within complaint

/-- The items of a projection with its sort keys, and its `SKIP` before its `LIMIT`. -/
def projection : Parser Projection := do
  let distinct ← (keyword "DISTINCT").optional
  let items ← (Parser.separated1 (mark ',') projectionItem).committed.within .projectionItems
  let orderBy ← orderByClause.optional
  let skip ← (pageClause "SKIP" .skipClause).optional
  let limit ← (pageClause "LIMIT" .limitClause).optional
  pure { distinct := distinct.isSome, items, orderBy := orderBy.getD [], skip, limit }

/-- A clause. -/
def clause : Parser Clause :=
  Parser.choice [
    do
      let clause ← matchClause
      pure (.matching clause),
    do
      keyword "WITH"
      let projection ← projection
      let condition ← whereClause.optional
      pure (.withItems projection condition),
    do
      keyword "RETURN"
      let projection ← projection
      pure (.returnItems projection)]

/-- The clauses of a query with an optional semicolon after them. -/
def statement : Parser Query := do
  blanks
  let clauses ← Parser.many1 clause
  let _ ← (mark ';').optional
  pure { clauses }

/-- Reads a whole query; nothing but blanks may follow it. -/
def Query.parse (source : String) : Except Trace Query :=
  match statement source.toList with
  | .ok query rest =>
      match Text.trim rest with
      | [] => .ok query
      | trailing => .error (.here trailing .trailingTokens)
  | .rejected trace => .error trace
  | .failed trace => .error trace

end CypherSql.Cypher
